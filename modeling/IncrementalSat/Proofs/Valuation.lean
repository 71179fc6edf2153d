import IncrementalSat.Formula

/-!
# Valuations

A valuation gives every variable a truth value. Literals over the variables of an engine are read
through the number of their variable, so the same valuations serve engines of every size.
-/
namespace IncrementalSat

abbrev Valuation := Nat → Bool

namespace Literal

/-- The literal is true under the valuation. -/
def Holds (σ : Valuation) (l : Literal Nat) : Prop := σ l.var = l.positive

theorem holds_neg_iff (σ : Valuation) (l : Literal Nat) : l.neg.Holds σ ↔ ¬ l.Holds σ := by
  simp only [Holds, neg_var, neg_positive]
  cases σ l.var <;> cases l.positive <;> simp

end Literal

namespace Formula

/-- Some literal of the clause is true. -/
def ClauseHolds (σ : Valuation) (clause : List (Literal Nat)) : Prop := ∃ l ∈ clause, l.Holds σ

/-- Every clause is true. -/
def Holds (σ : Valuation) (f : Formula) : Prop := ∀ clause ∈ f, ClauseHolds σ clause

/-- No valuation makes every clause true. -/
def Unsatisfiable (f : Formula) : Prop := ∀ σ, ¬ f.Holds σ

end Formula

namespace Lit

variable {n : Nat}

/-- The literal is true under the valuation. -/
def Holds (σ : Valuation) (l : Lit n) : Prop := σ l.var = l.positive

instance (σ : Valuation) (l : Lit n) : Decidable (l.Holds σ) :=
  inferInstanceAs (Decidable (_ = _))

theorem holds_neg_iff (σ : Valuation) (l : Lit n) : Holds σ l.neg ↔ ¬ l.Holds σ := by
  simp only [Holds, Literal.neg_var, Literal.neg_positive]
  cases σ l.var <;> cases l.positive <;> simp

theorem holds_toLiteral_iff (σ : Valuation) (l : Lit n) : l.toLiteral.Holds σ ↔ l.Holds σ := Iff.rfl

/-- Some literal of the list is true. -/
def AnyHolds (σ : Valuation) (ls : List (Lit n)) : Prop := ∃ l ∈ ls, l.Holds σ

theorem AnyHolds.mono {σ : Valuation} {ls ms : List (Lit n)} (h : AnyHolds σ ls)
    (sub : ∀ l ∈ ls, l ∈ ms) : AnyHolds σ ms := by
  obtain ⟨l, hl, holds⟩ := h
  exact ⟨l, sub l hl, holds⟩

theorem anyHolds_perm {σ : Valuation} {ls ms : List (Lit n)} (h : ls.Perm ms) :
    AnyHolds σ ls ↔ AnyHolds σ ms :=
  ⟨fun a => a.mono fun _ => h.mem_iff.1, fun a => a.mono fun _ => h.mem_iff.2⟩

end Lit

end IncrementalSat

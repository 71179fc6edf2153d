import IncrementalSat.Fault

/-!
# Computations that succeed

`Yields m Q` says that a checked computation runs into no fault and that its result satisfies `Q`.
Statements about the engine have this shape: they exclude faults and describe the result at once.
-/
namespace IncrementalSat

/-- The computation ends without a fault, in a result that satisfies `Q`. -/
def Yields {α : Type} (m : Checked α) (Q : α → Prop) : Prop := ∃ a, m = .ok a ∧ Q a

/-- Whether a computation yields such a result can be found out by carrying it out. -/
instance {α : Type} (m : Checked α) (Q : α → Prop) [DecidablePred Q] : Decidable (Yields m Q) :=
  match m with
  | .ok a => decidable_of_iff (Q a)
      ⟨fun h => ⟨a, rfl, h⟩, fun ⟨_, eq, h⟩ => Except.ok.inj eq ▸ h⟩
  | .error _ => .isFalse fun ⟨_, eq, _⟩ => nomatch eq

namespace Yields

variable {α β : Type} {P Q : α → Prop}

theorem ok {a : α} (h : Q a) : Yields (.ok a) Q := ⟨a, rfl, h⟩

theorem pure {a : α} (h : Q a) : Yields (Pure.pure a) Q := ⟨a, rfl, h⟩

/-- The first computation hands a result to the second, which has to succeed on all such results. -/
theorem bind {m : Checked α} {f : α → Checked β} {R : β → Prop}
    (first : Yields m P) (second : ∀ a, P a → Yields (f a) R) : Yields (m >>= f) R := by
  obtain ⟨a, rfl, ha⟩ := first
  exact second a ha

theorem mono {m : Checked α} (h : Yields m P) (weaker : ∀ a, P a → Q a) : Yields m Q := by
  obtain ⟨a, rfl, ha⟩ := h
  exact ⟨a, rfl, weaker a ha⟩

theorem and {m : Checked α} (h : Yields m P) (h' : Yields m Q) : Yields m fun a => P a ∧ Q a := by
  obtain ⟨a, rfl, ha⟩ := h
  obtain ⟨b, eq, hb⟩ := h'
  cases eq
  exact ⟨a, rfl, ha, hb⟩

/-- What holds of every result a computation yields holds of the one it has. -/
theorem of_eq {m : Checked α} {a : α} (h : Yields m Q) (result : m = .ok a) : Q a := by
  obtain ⟨b, eq, hb⟩ := h
  rw [eq] at result
  cases result
  exact hb

end Yields

/-- A sequence of two computations succeeds if both do. -/
theorem bind_eq_ok_iff {ε α β : Type} {m : Except ε α} {f : α → Except ε β} {b : β} :
    m >>= f = .ok b ↔ ∃ a, m = .ok a ∧ f a = .ok b := by
  cases m with
  | error fault => simp [bind, Except.bind]
  | ok a => simp [bind, Except.bind]

end IncrementalSat

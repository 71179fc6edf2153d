import IncrementalSat.Proofs.Propagator.Cleaning
import Mathlib.Data.Fintype.Pi
import Mathlib.Data.Fintype.BigOperators
import Mathlib.Data.Fintype.Option

/-!
# What a search makes progress in

The signature of a clause says which sign it has each variable with. A search stores clauses with
new signatures and fixes variables; both are bounded by the number of variables.
-/
namespace IncrementalSat

/-- The sign that a clause has each variable with. -/
def Clause.signature {n : Nat} (c : Clause n) : Fin n → Option Bool := fun v =>
  if c.lits.contains ⟨v, true⟩ then some true
  else if c.lits.contains ⟨v, false⟩ then some false
  else none

namespace Propagator

variable {n : Nat} {p p' : Propagator n}

/-- The signatures of all clauses. -/
def signatures (p : Propagator n) : Finset (Fin n → Option Bool) :=
  (p.store.clauses.map Clause.signature).toFinset

/-- The variables with a value at the root level. -/
def fixedVars (p : Propagator n) : Finset (Fin n) :=
  Finset.univ.filter fun v => p.trail.levelOf v = some 0

/-! ## Signatures -/

theorem signature_eq_some_iff {c : Clause n} (distinct : (c.lits.map (·.var)).Nodup) (l : Lit n) :
    c.signature l.var = some l.positive ↔ l ∈ c.lits := by
  have one : (⟨l.var, true⟩ : Lit n) ∈ c.lits → (⟨l.var, false⟩ : Lit n) ∉ c.lits := by
    intro pos neg
    have same := List.inj_on_of_nodup_map distinct pos neg rfl
    simp at same
  obtain ⟨v, b⟩ := l
  simp only [Clause.signature, List.contains_iff_mem]
  cases b with
  | true =>
    by_cases pos : (⟨v, true⟩ : Lit n) ∈ c.lits
    · simp [pos]
    · by_cases neg : (⟨v, false⟩ : Lit n) ∈ c.lits <;> simp [pos, neg]
  | false =>
    by_cases pos : (⟨v, true⟩ : Lit n) ∈ c.lits
    · simp [pos, one pos]
    · by_cases neg : (⟨v, false⟩ : Lit n) ∈ c.lits <;> simp [pos, neg]

theorem signature_of_perm {c d : Clause n} (perm : d.lits.Perm c.lits) :
    d.signature = c.signature := by
  funext v
  simp only [Clause.signature, List.contains_iff_mem, perm.mem_iff]

theorem mem_signatures_iff (p : Propagator n) (s : Fin n → Option Bool) :
    s ∈ p.signatures ↔ ∃ i c, p.store.Has i c ∧ c.signature = s := by
  simp only [signatures, List.mem_toFinset, List.mem_map, ClauseStore.mem_clauses_iff]
  constructor
  · rintro ⟨c, ⟨i, hc⟩, same⟩
    exact ⟨i, c, hc, same⟩
  · rintro ⟨i, c, hc, same⟩
    exact ⟨c, ⟨i, hc⟩, same⟩

theorem card_signatures_le (p : Propagator n) : p.signatures.card ≤ 3 ^ n := by
  have bound := p.signatures.card_le_univ
  simpa using bound

/-- Reordering literals keeps the signatures. -/
theorem signatures_of_matches {s : ClauseStore n}
    (same : p.store.Matches Clause.Reordered s) :
    ({ p with store := s } : Propagator n).signatures = p.signatures := by
  ext f
  rw [mem_signatures_iff, mem_signatures_iff]
  constructor
  · rintro ⟨i, d, hd, rfl⟩
    obtain ⟨c, hc, perm, -⟩ := same.has_of hd
    exact ⟨i, c, hc, (signature_of_perm perm).symm⟩
  · rintro ⟨i, c, hc, rfl⟩
    obtain ⟨d, hd, perm, -⟩ := same.has hc
    exact ⟨i, d, hd, signature_of_perm perm⟩

theorem signatures_congr (store : p'.store = p.store) : p'.signatures = p.signatures := by
  rw [signatures, store, signatures]

theorem signatures_extends (h : p.Extends p') : p'.signatures = p.signatures := by
  rw [← signatures_of_matches h.store]
  exact signatures_congr rfl

/-- A clause whose literals are those of no other clause has a new signature. -/
theorem signature_attach {c : Clause n} (distinct : (c.lits.map (·.var)).Nodup)
    (store : p.store.WellFormed)
    (new : ∀ i d, p.store.Has i d → ¬ ∀ l, l ∈ d.lits ↔ l ∈ c.lits) :
    (p.attach c).signatures.card = p.signatures.card + 1 := by
  have grown : (p.attach c).signatures = insert c.signature p.signatures := by
    ext f
    rw [Finset.mem_insert, mem_signatures_iff, mem_signatures_iff]
    constructor
    · rintro ⟨i, d, hd, rfl⟩
      rcases (p.store.has_push_iff c i d).1 hd with old | ⟨-, rfl⟩
      · exact .inr ⟨i, d, old, rfl⟩
      · exact .inl rfl
    · rintro (rfl | ⟨i, d, hd, rfl⟩)
      · exact ⟨p.store.size, c, (p.store.has_push_iff ..).2 (.inr ⟨rfl, rfl⟩), rfl⟩
      · exact ⟨i, d, (p.store.has_push_iff ..).2 (.inl hd), rfl⟩
  have fresh : c.signature ∉ p.signatures := by
    intro mem
    obtain ⟨i, d, hd, same⟩ := (mem_signatures_iff ..).1 mem
    apply new i d hd
    intro l
    rw [← signature_eq_some_iff (store.distinct i d hd), same, signature_eq_some_iff distinct]
  rw [grown, Finset.card_insert_of_notMem fresh]

/-! ## Fixed variables -/

theorem mem_fixedVars_iff (p : Propagator n) (v : Fin n) :
    v ∈ p.fixedVars ↔ ∃ l, p.Fixes l ∧ l.var = v := by
  have root : v ∈ p.fixedVars ↔ p.trail.levelOf v = some 0 := by simp [fixedVars]
  rw [root, Trail.levelOf]
  constructor
  · intro low
    cases hc : p.trail.cells.get v with
    | none =>
      rw [hc] at low
      cases low
    | some c =>
      rw [hc, Option.map_some, Option.some.injEq] at low
      refine ⟨⟨v, c.value⟩, ⟨?_, ?_⟩, rfl⟩
      · simp [Trail.eval, Trail.valueOf, hc]
      · simp [Trail.depth, Trail.levelOf, hc, low]
  · rintro ⟨l, ⟨holds, low⟩, rfl⟩
    unfold Trail.eval Trail.valueOf at holds
    unfold Trail.depth Trail.levelOf at low
    cases hc : p.trail.cells.get l.var with
    | none =>
      rw [hc] at holds
      cases holds
    | some c =>
      rw [hc, Option.map_some, Option.getD_some] at low
      rw [Option.map_some, low]

theorem card_fixedVars_le (p : Propagator n) : p.fixedVars.card ≤ n := by
  have bound := p.fixedVars.card_le_univ
  simpa using bound

theorem fixedVars_mono (h : ∀ l, p.Fixes l → p'.Fixes l) : p.fixedVars ⊆ p'.fixedVars := by
  intro v hv
  obtain ⟨l, hl, same⟩ := (mem_fixedVars_iff p v).1 hv
  exact (mem_fixedVars_iff p' v).2 ⟨l, h l hl, same⟩

end Propagator

end IncrementalSat

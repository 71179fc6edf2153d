import IncrementalSat.Proofs.Valuation
import IncrementalSat.Propagator.Addition

/-!
# Normal forms of clauses

Normalizing a clause keeps its set of literals and orders it by code. The two literals of a variable
have neighbouring codes, so opposite literals of a normalized clause are neighbours.
-/
namespace IncrementalSat

namespace Literal

theorem mem_insert_iff {l m : Literal Nat} {ls : List (Literal Nat)} :
    m ∈ insert l ls ↔ m = l ∨ m ∈ ls := by
  induction ls with
  | nil => simp [insert]
  | cons k ks ih =>
    simp only [insert]
    split
    · simp
    · split
      · next same =>
        rw [code_injective same]
        simp
      · simp only [List.mem_cons, ih, or_left_comm]

theorem mem_normalize_iff {l : Literal Nat} {ls : List (Literal Nat)} :
    l ∈ normalize ls ↔ l ∈ ls := by
  induction ls with
  | nil => rfl
  | cons m ms ih =>
    have step : normalize (m :: ms) = insert m (normalize ms) := rfl
    rw [step, mem_insert_iff, ih, List.mem_cons]

theorem sorted_insert {l : Literal Nat} {ls : List (Literal Nat)}
    (h : ls.Pairwise (·.code < ·.code)) : (insert l ls).Pairwise (·.code < ·.code) := by
  induction ls with
  | nil => simp [insert]
  | cons k ks ih =>
    obtain ⟨least, rest⟩ := List.pairwise_cons.1 h
    simp only [insert]
    split
    · next low =>
      refine List.pairwise_cons.2 ⟨?_, h⟩
      intro m hm
      rcases List.mem_cons.1 hm with rfl | hm
      · exact low
      · exact Nat.lt_trans low (least m hm)
    · split
      · exact h
      · next different =>
        refine List.pairwise_cons.2 ⟨?_, ih rest⟩
        intro m hm
        rcases mem_insert_iff.1 hm with rfl | hm
        · omega
        · exact least m hm

theorem sorted_normalize (ls : List (Literal Nat)) :
    (normalize ls).Pairwise (·.code < ·.code) := by
  induction ls with
  | nil => exact .nil
  | cons l ls ih => exact sorted_insert ih

/-- Opposite neighbours are opposite literals. -/
theorem opposite_of_neighbours {ls : List (Literal Nat)} (h : hasOppositeNeighbours ls = true) :
    ∃ l ∈ ls, l.neg ∈ ls := by
  induction ls with
  | nil => cases h
  | cons l ls ih =>
    cases ls with
    | nil => cases h
    | cons m ms =>
      rw [hasOppositeNeighbours, Bool.or_eq_true, beq_iff_eq] at h
      rcases h with same | later
      · exact ⟨m, by simp, by simp [same]⟩
      · obtain ⟨k, hk, opposite⟩ := ih later
        exact ⟨k, List.mem_cons_of_mem _ hk, List.mem_cons_of_mem _ opposite⟩

/-- A clause with opposite literals holds everywhere. -/
theorem clauseHolds_of_opposite {ls : List (Literal Nat)} (h : ∃ l ∈ ls, l.neg ∈ ls)
    (σ : Valuation) : Formula.ClauseHolds σ ls := by
  obtain ⟨l, hl, opposite⟩ := h
  by_cases holds : l.Holds σ
  · exact ⟨l, hl, holds⟩
  · exact ⟨l.neg, opposite, (holds_neg_iff σ l).2 holds⟩

/-- Between the codes of the two literals of a variable there is no other one. -/
theorem code_eq_succ_of_lt {l m : Literal Nat} (same : l.var = m.var) (lt : l.code < m.code) :
    m = l.neg ∧ m.code = l.code + 1 := by
  obtain ⟨v, p⟩ := l
  obtain ⟨w, q⟩ := m
  simp only at same
  subst same
  cases p with
  | true =>
    cases q with
    | true => exact absurd lt (Nat.lt_irrefl _)
    | false => exact ⟨rfl, rfl⟩
  | false =>
    cases q with
    | true => exact absurd lt (by simp [code])
    | false => exact absurd lt (Nat.lt_irrefl _)

/-- Without opposite neighbours, the literals of an ordered list are over distinct variables. -/
theorem nodup_var_of_sorted {ls : List (Literal Nat)} (sorted : ls.Pairwise (·.code < ·.code))
    (apart : hasOppositeNeighbours ls = false) : (ls.map (·.var)).Nodup := by
  induction ls with
  | nil => simp
  | cons l ls ih =>
    obtain ⟨least, rest⟩ := List.pairwise_cons.1 sorted
    have tail : hasOppositeNeighbours ls = false := by
      cases ls with
      | nil => rfl
      | cons m ms =>
        rw [hasOppositeNeighbours, Bool.or_eq_false_iff] at apart
        exact apart.2
    rw [List.map_cons, List.nodup_cons]
    refine ⟨?_, ih rest tail⟩
    intro found
    obtain ⟨m, hm, same⟩ := List.mem_map.1 found
    obtain ⟨opposite, next⟩ := code_eq_succ_of_lt same.symm (least m hm)
    cases ls with
    | nil => simp at hm
    | cons k ks =>
      have first : k = m := by
        rcases List.mem_cons.1 hm with rfl | later
        · rfl
        · have := least k (by simp)
          have := (List.pairwise_cons.1 rest).1 m later
          omega
      rw [hasOppositeNeighbours, Bool.or_eq_false_iff, beq_eq_false_iff_ne] at apart
      apply apart.1
      rw [first, opposite, neg_neg]

end Literal

end IncrementalSat

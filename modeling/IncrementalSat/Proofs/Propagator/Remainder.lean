import IncrementalSat.Proofs.Propagator.Addition
import IncrementalSat.Proofs.Propagator.Storing
import Mathlib.Data.List.Perm.Basic

/-!
# A clause is added as a set

Two lists with the same literals have the same normal form, so it makes no difference which of them
is added. Nothing happens if the set contains opposite literals or one that is true for good.
Otherwise the literals that are not false for good remain, in the order of their codes, and how many
they are decides whether they become a contradiction, a fact or a clause.
-/
namespace IncrementalSat

namespace Literal

variable {ls ms : List (Literal Nat)}

/-- A list that is strictly ordered by code is determined by its members. -/
theorem eq_of_sorted (hl : ls.Pairwise (·.code < ·.code)) (hm : ms.Pairwise (·.code < ·.code))
    (same : ∀ l, l ∈ ls ↔ l ∈ ms) : ls = ms := by
  have nodup : ∀ {ks : List (Literal Nat)}, ks.Pairwise (·.code < ·.code) → ks.Nodup := fun h =>
    h.imp fun lt eq => Nat.ne_of_lt lt (congrArg code eq)
  have perm : ls.Perm ms := (List.perm_ext_iff_of_nodup (nodup hl) (nodup hm)).2 same
  exact perm.eq_of_pairwise (fun _ _ _ _ lt gt => absurd lt (Nat.lt_asymm gt)) hl hm

theorem normalize_congr (same : ∀ l, l ∈ ls ↔ l ∈ ms) : normalize ls = normalize ms := by
  refine eq_of_sorted (sorted_normalize ls) (sorted_normalize ms) fun l => ?_
  rw [mem_normalize_iff, mem_normalize_iff, same]

/-- Opposite literals are found among the neighbours of the normal form. -/
theorem hasOppositeNeighbours_normalize_iff (ls : List (Literal Nat)) :
    hasOppositeNeighbours (normalize ls) = true ↔ ∃ l ∈ ls, l.neg ∈ ls := by
  constructor
  · intro neighbours
    obtain ⟨l, hl, opposite⟩ := opposite_of_neighbours neighbours
    exact ⟨l, mem_normalize_iff.1 hl, mem_normalize_iff.1 opposite⟩
  · rintro ⟨l, hl, opposite⟩
    by_contra apart
    rw [Bool.not_eq_true] at apart
    have distinct := nodup_var_of_sorted (sorted_normalize ls) apart
    exact l.neg_ne (List.inj_on_of_nodup_map distinct (mem_normalize_iff.2 opposite)
      (mem_normalize_iff.2 hl) rfl)

end Literal

theorem Lit.toLiteral_injective {n : Nat} {l m : Lit n} (h : l.toLiteral = m.toLiteral) :
    l = m := by
  obtain ⟨v, p⟩ := l
  obtain ⟨w, q⟩ := m
  simpa [toLiteral, Literal.map, Fin.ext_iff] using h

theorem Lit.toLiteral_mem_map_iff {n : Nat} {ls : List (Lit n)} {l : Lit n} :
    l.toLiteral ∈ ls.map toLiteral ↔ l ∈ ls :=
  List.mem_map_of_injective fun _ _ => toLiteral_injective

namespace Propagator

variable {n : Nat} {p p' : Propagator n} {ls rest : List (Lit n)}

/-- The clause contains opposite literals, or one that is true for good. -/
def Idles (p : Propagator n) (ls : List (Lit n)) : Prop :=
  (∃ l ∈ ls, l.neg ∈ ls) ∨ ∃ l ∈ ls, l ∈ p.fixed

/-- The literals of the clause that are not false for good, each once, in the order of their
codes. -/
structure Remains (p : Propagator n) (ls rest : List (Lit n)) : Prop where
  ordered : (rest.map Lit.toLiteral).Pairwise (·.code < ·.code)
  mem_iff : ∀ l, l ∈ rest ↔ l ∈ ls ∧ l.neg ∉ p.fixed

/-- One more problem clause is in the store, and listed under its first two literals. -/
structure Stores (p : Propagator n) (c : Clause n) (p' : Propagator n) : Prop where
  problem : c.learnt = false
  slots : p'.store.slots = p.store.slots.push (some c)
  problems : p'.store.problems = p.store.problems + 1
  watches : ∀ l, p'.watches.get l = if l = c.first ∨ l = c.second then
    (p.watches.get l).push p.store.size else p.watches.get l
  frame : p' = { p with
    store := { p.store with slots := p'.store.slots, problems := p'.store.problems }
    watches := p'.watches }

/-- What the remaining literals lead to. -/
inductive Adds (p : Propagator n) : List (Lit n) → Bool → Propagator n → Prop
  | contradiction : Adds p [] false { p with consistent := false }
  | fact {l : Lit n} {conflict : Option Nat} {p' : Propagator n}
      (propagated : (p.assign l .root).propagate = .ok (conflict, p')) :
      Adds p [l] conflict.isNone { p' with consistent := conflict.isNone }
  | clause {l m : Lit n} {ls : List (Lit n)} {p' : Propagator n}
      (stores : p.Stores { first := l, second := m, rest := ls, learnt := false } p') :
      Adds p (l :: m :: ls) true p'

theorem stores_attach (p : Propagator n) {c : Clause n} (problem : c.learnt = false)
    (different : c.first ≠ c.second) : p.Stores c (p.attach c) where
  problem := problem
  slots := by simp [attach, ClauseStore.push, problem]
  problems := by simp [attach, ClauseStore.push, problem]
  watches := by
    intro l
    change ((p.watches.push c.first p.store.size).push c.second p.store.size).get l = _
    rw [LitMap.get_push, LitMap.get_push]
    by_cases first : c.first = l
    · have other : c.second ≠ l := fun second => different (first.trans second.symm)
      simp [first, other]
    · by_cases second : c.second = l
      · simp [first, second]
      · simp [first, second, Ne.symm first, Ne.symm second]
  frame := by simp [attach, ClauseStore.push, problem]

/-- The literals that remain are determined by which they are. -/
theorem Remains.eq_of_mem_iff {ms : List (Lit n)} (h : p.Remains ls rest)
    (ordered : (ms.map Lit.toLiteral).Pairwise (·.code < ·.code))
    (mem : ∀ l, l ∈ ms ↔ l ∈ ls ∧ l.neg ∉ p.fixed) : rest = ms := by
  refine List.map_injective_iff.2 (fun _ _ => Lit.toLiteral_injective)
    (Literal.eq_of_sorted h.ordered ordered fun l => ?_)
  simp only [List.mem_map, h.mem_iff, mem]

/-- What remains can be added. -/
theorem addResidue_spec (wf : p.WellFormed) (root : p.trail.level = 0) (remains : p.Remains ls rest)
    (fresh : ∀ l ∈ rest, p.trail.eval l = none) :
    Yields (p.addResidue rest) fun (ok, p') => p.Adds rest ok p' := by
  match rest, remains, fresh with
  | [], _, _ => exact Yields.ok .contradiction
  | [l], _, fresh =>
    obtain ⟨⟨conflict, p'⟩, propagated, -⟩ :=
      propagate_spec (wf.assign_root root (fresh l (by simp)) .root)
    refine ⟨(conflict.isNone, { p' with consistent := conflict.isNone }), ?_, .fact propagated⟩
    simp only [addResidue, addFact, propagated]
    rfl
  | l :: m :: ls, remains, _ =>
    refine Yields.ok (.clause (p.stores_attach rfl fun same => ?_))
    obtain ⟨least, -⟩ := List.pairwise_cons.1 remains.ordered
    have lt := least m.toLiteral (by simp)
    rw [show l = m from same] at lt
    exact Nat.lt_irrefl _ lt

section

variable {lits : List (Literal Nat)} (root : p.trail.level = 0) (consistent : p.consistent = true)

include root consistent

theorem addClause_of_opposite
    (opposite : Literal.hasOppositeNeighbours (Literal.normalize lits) = true) :
    p.addClause lits = .ok (true, p) := by
  unfold addClause requireRoot
  rw [if_pos root, consistent, opposite]
  rfl

theorem addClause_of_residue
    (apart : Literal.hasOppositeNeighbours (Literal.normalize lits) = false)
    {result : Option (List (Lit n))}
    (residue : p.trail.residue (Literal.normalize lits) = .ok result) :
    p.addClause lits = result.elim (.ok (true, p)) p.addResidue := by
  unfold addClause requireRoot
  rw [if_pos root, consistent, apart, residue]
  cases result <;> rfl

end

theorem hasOppositeNeighbours_map_iff (ls : List (Lit n)) :
    Literal.hasOppositeNeighbours (Literal.normalize (ls.map Lit.toLiteral)) = true ↔
      ∃ l ∈ ls, l.neg ∈ ls := by
  rw [Literal.hasOppositeNeighbours_normalize_iff]
  constructor
  · rintro ⟨l, hl, opposite⟩
    obtain ⟨m, hm, rfl⟩ := List.mem_map.1 hl
    exact ⟨m, hm, Lit.toLiteral_mem_map_iff.1 opposite⟩
  · rintro ⟨l, hl, opposite⟩
    exact ⟨l.toLiteral, Lit.toLiteral_mem_map_iff.2 hl, Lit.toLiteral_mem_map_iff.2 opposite⟩

theorem mem_fixed_iff_of_root (wf : p.WellFormed) (root : p.trail.level = 0) (l : Lit n) :
    l ∈ p.fixed ↔ p.trail.eval l = some true :=
  (mem_fixed_iff wf.trail root l).trans (fixes_iff_of_root wf.trail root l)

/-- The residue of the normal form is what remains of the clause. -/
theorem remains_of_residue (wf : p.WellFormed) (root : p.trail.level = 0)
    (sub : (rest.map Lit.toLiteral).Sublist (Literal.normalize (ls.map Lit.toLiteral)))
    (fresh : ∀ l ∈ rest, p.trail.eval l = none)
    (split : ∀ l ∈ ls, l ∈ rest ∨ p.trail.eval l = some false) : p.Remains ls rest := by
  refine ⟨(Literal.sorted_normalize _).sublist sub, fun l => ?_⟩
  rw [mem_fixed_iff_of_root wf root, Trail.eval_neg_eq_true_iff]
  constructor
  · intro hl
    have given := Literal.mem_normalize_iff.1 (sub.mem (List.mem_map_of_mem hl))
    refine ⟨Lit.toLiteral_mem_map_iff.1 given, ?_⟩
    rw [fresh l hl]
    exact nofun
  · rintro ⟨hl, possible⟩
    exact (split l hl).resolve_right possible

/-- Nothing happens, or what is not false for good is added. -/
theorem addClause_cases (wf : p.WellFormed) (root : p.trail.level = 0)
    (consistent : p.consistent = true) (ls : List (Lit n)) :
    (p.Idles ls ∧ p.addClause (ls.map Lit.toLiteral) = .ok (true, p)) ∨
      (¬ p.Idles ls ∧ ∃ rest ok p', p.Remains ls rest ∧ p.Adds rest ok p' ∧
        p.addClause (ls.map Lit.toLiteral) = .ok (ok, p')) := by
  have fixed := mem_fixed_iff_of_root wf root
  have opposite := hasOppositeNeighbours_map_iff ls
  cases apart : Literal.hasOppositeNeighbours (Literal.normalize (ls.map Lit.toLiteral)) with
  | true => exact .inl ⟨.inl (opposite.1 apart), addClause_of_opposite root consistent apart⟩
  | false =>
    obtain ⟨result, residue, spec⟩ := p.trail.residue_spec
      (Literal.normalize (ls.map Lit.toLiteral))
      fun l hl => Lit.var_lt_of_mem_map (Literal.mem_normalize_iff.1 hl)
    have start := addClause_of_residue root consistent apart residue
    cases result with
    | none =>
      obtain ⟨l, hl, holds⟩ := spec
      have given : l ∈ ls := Lit.toLiteral_mem_map_iff.1 (Literal.mem_normalize_iff.1 hl)
      exact .inl ⟨.inr ⟨l, given, (fixed l).2 holds⟩, start⟩
    | some rest =>
      obtain ⟨sub, fresh, others⟩ := spec
      have split : ∀ l ∈ ls, l ∈ rest ∨ p.trail.eval l = some false := by
        intro l hl
        have given := Literal.mem_normalize_iff.2 (Lit.toLiteral_mem_map_iff.2 hl)
        rcases others l.toLiteral given with kept | ⟨m, same, no⟩
        · exact .inl (Lit.toLiteral_mem_map_iff.1 kept)
        · exact .inr (Lit.toLiteral_injective same ▸ no)
      have remains := remains_of_residue wf root sub fresh split
      obtain ⟨⟨ok, p'⟩, added, adds⟩ := addResidue_spec wf root remains fresh
      refine .inr ⟨?_, rest, ok, p', remains, adds, start.trans added⟩
      rintro (pair | ⟨l, hl, holds⟩)
      · cases apart.symm.trans (opposite.2 pair)
      · rw [fixed] at holds
        rcases split l hl with kept | no
        · cases (fresh l kept).symm.trans holds
        · cases no.symm.trans holds

/-- Only the set of the literals matters. -/
theorem addClause_congr (p : Propagator n) {ls ms : List (Literal Nat)}
    (same : ∀ l, l ∈ ls ↔ l ∈ ms) : p.addClause ls = p.addClause ms := by
  unfold addClause
  rw [Literal.normalize_congr same]

end Propagator

end IncrementalSat

import IncrementalSat.Proofs.Store.Basic
import Mathlib.Data.List.Forall2

/-!
# Stores with corresponding clauses

Two stores match if they have holes at the same indices and related clauses at the others. The
relations in use are reordering the literals of a clause, and changing its activity.
-/
namespace IncrementalSat

namespace Clause

variable {n : Nat}

/-- The second clause has the literals of the first in some order, and is of the same kind. -/
def Reordered (c d : Clause n) : Prop := d.lits.Perm c.lits ∧ d.learnt = c.learnt

/-- The second clause differs from the first in its activity only. -/
def Rated (c d : Clause n) : Prop :=
  d.first = c.first ∧ d.second = c.second ∧ d.rest = c.rest ∧ d.learnt = c.learnt

theorem Reordered.refl (c : Clause n) : Reordered c c := ⟨.refl _, rfl⟩

theorem Reordered.trans (c d e : Clause n) (h : Reordered c d) (h' : Reordered d e) :
    Reordered c e := ⟨h'.1.trans h.1, h'.2.trans h.2⟩

theorem Rated.refl (c : Clause n) : Rated c c := ⟨rfl, rfl, rfl, rfl⟩

theorem Rated.trans (c d e : Clause n) (h : Rated c d) (h' : Rated d e) : Rated c e :=
  ⟨h'.1.trans h.1, h'.2.1.trans h.2.1, h'.2.2.1.trans h.2.2.1, h'.2.2.2.trans h.2.2.2⟩

theorem Rated.lits {c d : Clause n} (h : Rated c d) : d.lits = c.lits := by
  obtain ⟨first, second, rest, -⟩ := h
  simp [Clause.lits, first, second, rest]

theorem Rated.reordered {c d : Clause n} (h : Rated c d) : Reordered c d :=
  ⟨by rw [h.lits], h.2.2.2⟩

theorem turn_lits_perm (c : Clause n) (l : Lit n) : (c.turn l).lits.Perm c.lits := by
  unfold turn
  split
  · exact .refl _
  · exact .swap _ _ _

@[simp] theorem turn_learnt (c : Clause n) (l : Lit n) : (c.turn l).learnt = c.learnt := by
  unfold turn
  split <;> rfl

end Clause

namespace ClauseStore

variable {n : Nat}

/-- Holes correspond to holes, clauses to related clauses, and the counters agree. -/
structure Matches (R : Clause n → Clause n → Prop) (s s' : ClauseStore n) : Prop where
  slots : List.Forall₂ (Option.Rel R) s.slots.toList s'.slots.toList
  problems : s'.problems = s.problems
  learnts : s'.learnts = s.learnts
  holes : s'.holes = s.holes

namespace Matches

variable {R : Clause n → Clause n → Prop} {s s' s'' : ClauseStore n}

private theorem option_rel_refl (refl : ∀ c, R c c) (o : Option (Clause n)) : Option.Rel R o o := by
  cases o with
  | none => exact .none
  | some c => exact .some (refl c)

theorem refl (h : ∀ c, R c c) (s : ClauseStore n) : Matches R s s :=
  ⟨List.forall₂_same.2 fun o _ => option_rel_refl h o, rfl, rfl, rfl⟩

theorem trans (tr : ∀ c d e, R c d → R d e → R c e) (h : Matches R s s')
    (h' : Matches R s' s'') : Matches R s s'' := by
  refine ⟨?_, h'.problems.trans h.problems, h'.learnts.trans h.learnts, h'.holes.trans h.holes⟩
  have first := h.slots
  have second := h'.slots
  generalize s.slots.toList = as at first ⊢
  generalize s'.slots.toList = bs at first second
  generalize s''.slots.toList = cs at second ⊢
  induction first generalizing cs with
  | nil => exact second
  | cons hab _ ih =>
    cases second with
    | cons hbc rest =>
      refine .cons ?_ (ih _ rest)
      cases hab with
      | none => exact hbc
      | some r =>
        cases hbc with
        | some r' => exact .some (tr _ _ _ r r')

theorem mono {S : Clause n → Clause n → Prop} (weaker : ∀ c d, R c d → S c d)
    (h : Matches R s s') : Matches S s s' := by
  refine ⟨h.slots.imp ?_, h.problems, h.learnts, h.holes⟩
  intro a b hab
  cases hab with
  | none => exact .none
  | some r => exact .some (weaker _ _ r)

theorem size_eq (h : Matches R s s') : s'.size = s.size := by
  have := h.slots.length_eq
  simpa [size] using this.symm

private theorem rel_at (h : Matches R s s') {i : Nat} (hs : i < s.slots.size)
    (hs' : i < s'.slots.size) : Option.Rel R s.slots[i] s'.slots[i] := by
  have := h.slots.get (i := i) (by simpa using hs) (by simpa using hs')
  simpa using this

/-- A clause has a counterpart at its index. -/
theorem has (h : Matches R s s') {i : Nat} {c : Clause n} (hc : s.Has i c) :
    ∃ d, s'.Has i d ∧ R c d := by
  have lt : i < s.slots.size := hc.lt_size
  have lt' : i < s'.slots.size := by
    have := h.size_eq
    unfold size at this
    omega
  have rel := h.rel_at lt lt'
  rw [(Array.getElem?_eq_some_iff.1 hc).2] at rel
  cases hd : s'.slots[i] with
  | none => rw [hd] at rel; cases rel
  | some d =>
    rw [hd] at rel
    cases rel with
    | some r => exact ⟨d, Array.getElem?_eq_some_iff.2 ⟨lt', hd⟩, r⟩

/-- A clause is the counterpart of one at its index. -/
theorem has_of (h : Matches R s s') {i : Nat} {d : Clause n} (hd : s'.Has i d) :
    ∃ c, s.Has i c ∧ R c d := by
  have lt' : i < s'.slots.size := hd.lt_size
  have lt : i < s.slots.size := by
    have := h.size_eq
    unfold size at this
    omega
  have rel := h.rel_at lt lt'
  rw [(Array.getElem?_eq_some_iff.1 hd).2] at rel
  cases hc : s.slots[i] with
  | none => rw [hc] at rel; cases rel
  | some c =>
    rw [hc] at rel
    cases rel with
    | some r => exact ⟨c, Array.getElem?_eq_some_iff.2 ⟨lt, hc⟩, r⟩

private theorem forall₂_set {α : Type} {S : α → α → Prop} (refl : ∀ a, S a a) {a b : α}
    (r : S a b) : ∀ {l : List α} {i : Nat}, l[i]? = some a → List.Forall₂ S l (l.set i b)
  | [], _, h => by simp at h
  | x :: l, 0, h => by
    simp only [List.getElem?_cons_zero, Option.some.injEq] at h
    exact .cons (h ▸ r) (List.forall₂_same.2 fun y _ => refl y)
  | x :: l, i + 1, h => .cons (refl x) (forall₂_set refl r (by simpa using h))

/-- Replacing a clause by a related one leads to a matching store. -/
theorem put (refl : ∀ c, R c c) {i : Nat} {c d : Clause n} (hc : s.Has i c) (r : R c d) :
    Matches R s (s.put i d) := by
  refine ⟨?_, rfl, rfl, rfl⟩
  rw [ClauseStore.put, Array.toList_setIfInBounds]
  exact forall₂_set (option_rel_refl refl) (.some r) (by rwa [Array.getElem?_toList])

private theorem countP_eq (h : Matches R s s') {p : Option (Clause n) → Bool}
    (same : ∀ a b, Option.Rel R a b → p b = p a) : s'.slots.countP p = s.slots.countP p := by
  have slots := h.slots
  rw [← Array.countP_toList, ← Array.countP_toList]
  generalize s.slots.toList = as at slots ⊢
  generalize s'.slots.toList = bs at slots ⊢
  induction slots with
  | nil => rfl
  | cons hab _ ih => rw [List.countP_cons, List.countP_cons, ih, same _ _ hab]

/-- Corresponding clauses of the same kind keep a store well-formed. -/
theorem wellFormed_of (h : Matches R s s') (hs : s.WellFormed)
    (kind : ∀ c d, R c d → d.learnt = c.learnt)
    (distinct : ∀ c d, R c d → (c.lits.map (·.var)).Nodup → (d.lits.map (·.var)).Nodup) :
    s'.WellFormed where
  distinct := by
    intro i d hd
    obtain ⟨c, hc, r⟩ := h.has_of hd
    exact distinct c d r (hs.distinct i c hc)
  problems := by
    rw [h.problems, hs.problems, h.countP_eq]
    intro a b hab
    cases hab with
    | none => rfl
    | some r => simp [kind _ _ r]
  learnts := by
    rw [h.learnts, hs.learnts, h.countP_eq]
    intro a b hab
    cases hab with
    | none => rfl
    | some r => simp [kind _ _ r]
  holes := by
    rw [h.holes, hs.holes, h.countP_eq]
    rintro _ _ (_ | _) <;> rfl

/-- Reordering literals keeps a store well-formed. -/
theorem wellFormed (h : Matches Clause.Reordered s s') (hs : s.WellFormed) : s'.WellFormed :=
  h.wellFormed_of hs (fun _ _ r => r.2) fun _ _ r nodup => ((r.1.map _).nodup_iff).2 nodup

end Matches

/-- Touching a clause changes activities only. -/
theorem Has.touch {s : ClauseStore n} {i : Nat} {c : Clause n} (hc : s.Has i c) :
    Yields (s.touch i) (Matches Clause.Rated s) := by
  unfold ClauseStore.touch
  rw [hc.fetch]
  simp only [bind, Except.bind]
  split
  · have put : Matches Clause.Rated s (s.put i { c with activity := c.activity + s.bump }) :=
      .put Clause.Rated.refl hc ⟨rfl, rfl, rfl, rfl⟩
    split
    · refine Yields.pure (put.trans Clause.Rated.trans ⟨?_, rfl, rfl, rfl⟩)
      simp only [Array.toList_map, List.forall₂_map_right_iff]
      refine List.forall₂_same.2 ?_
      intro o _
      cases o with
      | none => exact .none
      | some d => exact .some ⟨rfl, rfl, rfl, rfl⟩
    · exact Yields.pure put
  · exact Yields.pure (Matches.refl Clause.Rated.refl s)

end ClauseStore

end IncrementalSat

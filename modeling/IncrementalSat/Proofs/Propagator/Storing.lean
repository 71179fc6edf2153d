import IncrementalSat.Proofs.Propagator.Basic
import IncrementalSat.Propagator.Cleaning

/-!
# Storing and removing clauses

A stored clause is listed under its two watched literals. A removed one stays listed, as a hole, and
may go as long as it is no reason of a literal above the root level.
-/
namespace IncrementalSat

namespace LitMap

variable {n : Nat} {α : Type}

theorem get_push (m : LitMap n (Array α)) (l k : Lit n) (a : α) :
    (m.push l a).get k = if l = k then (m.get k).push a else m.get k := by
  rw [push, get_set]
  split
  · next same => rw [same]
  · rfl

theorem set_get_self (m : LitMap n α) (l : Lit n) {a : α} (same : a = m.get l) :
    m.set l a = m := by
  subst same
  obtain ⟨positive, negative⟩ := m
  unfold get set
  split <;> simp

end LitMap

namespace Propagator

variable {n : Nat} {p : Propagator n}

/-! ## Storing -/

/-- Listing a clause adds one entry under each of its watched literals. -/
theorem count_push_push (w : LitMap n (Array Nat)) {c : Clause n} (different : c.first ≠ c.second)
    (j : Nat) (l : Lit n) (i : Nat) : (((w.push c.first j).push c.second j).get l).count i =
      (w.get l).count i + if j = i ∧ c.Watches l then 1 else 0 := by
  have watches : c.Watches l ↔ c.first = l ∨ c.second = l := by simp [Clause.Watches, eq_comm]
  simp only [LitMap.get_push]
  by_cases first : c.first = l
  · have second : c.second ≠ l := fun eq => different (first.trans eq.symm)
    rw [if_neg second, if_pos first, Array.count_push]
    by_cases same : j = i <;> simp [watches, first, same]
  · by_cases second : c.second = l
    · rw [if_pos second, if_neg first, Array.count_push]
      by_cases same : j = i <;> simp [watches, second, same]
    · rw [if_neg second, if_neg first]
      simp [watches, first, second]

theorem count_watches_attach (p : Propagator n) {c : Clause n} (different : c.first ≠ c.second)
    (l : Lit n) (i : Nat) : ((p.attach c).watches.get l).count i =
      (p.watches.get l).count i + if p.store.size = i ∧ c.Watches l then 1 else 0 :=
  count_push_push p.watches different p.store.size l i

theorem Linked.attach (h : p.Linked) {c : Clause n} (distinct : (c.lits.map (·.var)).Nodup) :
    (p.attach c).Linked := by
  have different : c.first ≠ c.second := by
    intro same
    simp [Clause.lits, same] at distinct
  refine ⟨h.trail, h.store.push distinct, ?_, ?_, ?_, h.head_le, h.current⟩
  · intro i l hi
    refine (h.justified i l hi).transfer rfl rfl id (fun _ _ _ hm => hm) ?_
    intro j d _ _ hd first
    exact ⟨d, (p.store.has_push_iff c j d).2 (.inl hd), first, fun _ hm => hm⟩
  · intro i d hd l
    rw [count_watches_attach p different]
    rcases (p.store.has_push_iff c i d).1 hd with old | ⟨rfl, rfl⟩
    · have lt := old.lt_size
      have new : ¬ (p.store.size = i ∧ c.Watches l) := fun both => Nat.ne_of_gt lt both.1
      rw [if_neg new, Nat.add_zero, h.listed i d old]
    · have absent : (p.watches.get l).count p.store.size = 0 := by
        rw [Array.count_eq_zero]
        intro mem
        exact Nat.lt_irrefl _ (h.inRange l _ mem)
      rw [absent, Nat.zero_add]
      simp
  · intro l i hi
    change i < (p.store.push c).size
    rw [ClauseStore.size_push]
    rw [← Array.count_pos_iff, count_watches_attach p different] at hi
    by_cases old : i ∈ p.watches.get l
    · exact Nat.lt_succ_of_lt (h.inRange l i old)
    · rw [Array.count_eq_zero.2 old] at hi
      split at hi
      · next new => omega
      · omega

/-- A clause whose watched literals are unassigned can be stored at any time. -/
theorem WellFormed.attach (h : p.WellFormed) {c : Clause n}
    (distinct : (c.lits.map (·.var)).Nodup) (first : p.trail.eval c.first = none)
    (second : p.trail.eval c.second = none) : (p.attach c).WellFormed where
  toLinked := h.toLinked.attach distinct
  served := by
    intro i d hd w hw k hk at_k
    rcases (p.store.has_push_iff c i d).1 hd with old | ⟨-, rfl⟩
    · exact h.served i d old w hw k hk at_k
    · have value : p.trail.eval w = some false := (h.trail.eval_eq_false_iff w).2 ⟨k, at_k⟩
      rcases hw with rfl | rfl
      · rw [first] at value
        cases value
      · rw [second] at value
        cases value

/-! ## Removing -/

/-- Taking clauses out of the store, none of which is a reason above the root level. -/
theorem WellFormed.of_subset (h : p.WellFormed) {s : ClauseStore n} (store : s.WellFormed)
    (size : s.size = p.store.size) (sub : ∀ i c, s.Has i c → p.store.Has i c)
    (reasons : ∀ i l j c, p.trail.lits[i]? = some l → p.trail.reasonOf l.var = some (.clause j) →
      0 < p.trail.levelAt i → p.store.Has j c → c.first = l → s.Has j c) :
    ({ p with store := s } : Propagator n).WellFormed where
  trail := h.trail
  store := store
  justified := by
    intro i l hi
    refine (h.justified i l hi).transfer rfl rfl id (fun _ _ _ hm => hm) ?_
    intro j c reason above hc first
    exact ⟨c, reasons i l j c hi reason above hc first, first, fun _ hm => hm⟩
  listed := fun i c hc l => h.listed i c (sub i c hc) l
  inRange := by
    intro l i hi
    change i < s.size
    rw [size]
    exact h.inRange l i hi
  head_le := h.head_le
  current := h.current
  served := fun i c hc w hw k hk at_k => h.served i c (sub i c hc) w hw k hk at_k

/-- What is left of a propagator after the clauses at some indices were removed. -/
structure Without (p : Propagator n) (is : List Nat) (p' : Propagator n) : Prop where
  wellFormed : p'.WellFormed
  frame : p' = { p with store := p'.store }
  has : ∀ j d, p'.store.Has j d ↔ j ∉ is ∧ p.store.Has j d
  size : p'.store.size = p.store.size

/-- A clause that is no reason above the root level can be removed. -/
theorem WellFormed.remove (h : p.WellFormed) {i : Nat} {c : Clause n} (hc : p.store.Has i c)
    (free : p.trail.level ≠ 0 → p.explains i c = false) :
    Yields (p.remove i) (p.Without [i]) := by
  refine (h.store.remove hc).bind ?_
  intro s ⟨store, slots⟩
  have has : ∀ j d, s.Has j d ↔ j ∉ [i] ∧ p.store.Has j d := by
    intro j d
    unfold ClauseStore.Has
    rw [slots, Array.getElem?_setIfInBounds]
    by_cases same : i = j
    · subst same
      simp
    · simp [same, Ne.symm same]
  have size : s.size = p.store.size := by
    unfold ClauseStore.size
    rw [slots, Array.size_setIfInBounds]
  refine Yields.pure ⟨?_, rfl, has, size⟩
  refine h.of_subset store size (fun j d hd => ((has j d).1 hd).2) ?_
  intro k l j d hk reason above hd first
  refine (has j d).2 ⟨?_, hd⟩
  intro same
  cases List.mem_singleton.1 same
  cases hc.unique hd
  have level := p.trail.levelAt_le_level k
  have idle := free (by omega)
  rw [← first] at hk reason
  simp [explains, h.trail.eval_of_position hk, reason] at idle

/-- Clauses can be removed one after the other if each is live and none is a reason above the root
level. -/
theorem WellFormed.removeAll {is : List Nat} (h : p.WellFormed) (nodup : is.Nodup)
    (live : ∀ i ∈ is, ∃ c, p.store.Has i c ∧ (p.trail.level ≠ 0 → p.explains i c = false)) :
    Yields (removeAll is p) (p.Without is) := by
  induction is generalizing p with
  | nil => exact Yields.ok ⟨h, rfl, by simp, rfl⟩
  | cons i is ih =>
    obtain ⟨fresh, nodup⟩ := List.nodup_cons.1 nodup
    obtain ⟨c, hc, free⟩ := live i (by simp)
    refine (h.remove hc free).bind ?_
    intro p' ⟨wf', frame, has, size⟩
    have live' : ∀ j ∈ is, ∃ d, p'.store.Has j d ∧
        (p'.trail.level ≠ 0 → p'.explains j d = false) := by
      intro j hj
      obtain ⟨d, hd, free'⟩ := live j (by simp [hj])
      refine ⟨d, (has j d).2 ⟨?_, hd⟩, ?_⟩
      · rw [List.mem_singleton]
        rintro rfl
        exact fresh hj
      · rw [frame]
        exact free'
    refine (ih wf' nodup live').mono ?_
    intro p'' ⟨wf'', frame', has', size'⟩
    refine ⟨wf'', ?_, ?_, size'.trans size⟩
    · rw [frame', frame]
    · intro j d
      rw [has', has, List.mem_singleton, List.mem_cons, not_or]
      constructor
      · rintro ⟨later, other, hd⟩
        exact ⟨⟨other, later⟩, hd⟩
      · rintro ⟨⟨other, later⟩, hd⟩
        exact ⟨later, other, hd⟩

end Propagator

end IncrementalSat

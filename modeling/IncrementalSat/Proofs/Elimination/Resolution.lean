import IncrementalSat.Engine.Elimination
import IncrementalSat.Proofs.Valuation

/-!
# Resolvents and repaired valuations

The resolvents on a variable follow from the clauses it occurs in. Conversely, a valuation of the
other variables that satisfies the resolvents can be repaired at the variable so that it satisfies
the clauses.
-/
namespace IncrementalSat

namespace Elimination

variable {n : Nat} {v : Fin n} {a b r : List (Lit n)} {σ : Valuation}

/-! ## One resolvent -/

theorem mem_joinWithout_iff {joined ls : List (Lit n)} (h : joinWithout v joined ls = some r)
    (m : Lit n) : m ∈ r ↔ m ∈ joined ∨ m ∈ ls ∧ m.var ≠ v := by
  induction ls generalizing joined with
  | nil =>
    rw [joinWithout, Option.some.injEq] at h
    simp [h]
  | cons l ls ih =>
    rw [joinWithout] at h
    split at h
    · next skipped =>
      rw [ih h]
      constructor
      · rintro (old | ⟨mem, other⟩)
        · exact .inl old
        · exact .inr ⟨List.mem_cons_of_mem _ mem, other⟩
      · rintro (old | ⟨mem, other⟩)
        · exact .inl old
        · rcases List.mem_cons.1 mem with rfl | mem
          · exact .inl (skipped.resolve_left other)
          · exact .inr ⟨mem, other⟩
    · next added =>
      split at h
      · cases h
      · rw [ih h]
        have other := (not_or.1 added).1
        constructor
        · rintro (old | ⟨mem, different⟩)
          · rcases List.mem_append.1 old with old | last
            · exact .inl old
            · rw [List.mem_singleton] at last
              subst last
              exact .inr ⟨List.mem_cons_self, other⟩
          · exact .inr ⟨List.mem_cons_of_mem _ mem, different⟩
        · rintro (old | ⟨mem, different⟩)
          · exact .inl (List.mem_append_left _ old)
          · rcases List.mem_cons.1 mem with rfl | mem
            · exact .inl (by simp)
            · exact .inr ⟨mem, different⟩

/-- If two lists cannot be joined, they hold opposite literals. -/
theorem opposite_of_joinWithout {joined ls : List (Lit n)} (h : joinWithout v joined ls = none) :
    ∃ m, (m ∈ joined ∨ m ∈ ls ∧ m.var ≠ v) ∧ (m.neg ∈ joined ∨ m.neg ∈ ls ∧ m.var ≠ v) := by
  induction ls generalizing joined with
  | nil => cases h
  | cons l ls ih =>
    have later : ∀ m : Lit n, m ∈ ls ∧ m.var ≠ v → m ∈ l :: ls ∧ m.var ≠ v :=
      fun m hm => ⟨List.mem_cons_of_mem _ hm.1, hm.2⟩
    rw [joinWithout] at h
    split at h
    · obtain ⟨m, hm, opposite⟩ := ih h
      exact ⟨m, hm.imp_right (later m), opposite.imp_right (later m.neg)⟩
    · next added =>
      have other := (not_or.1 added).1
      split at h
      · next opposite => exact ⟨l, .inr ⟨List.mem_cons_self, other⟩, .inl opposite⟩
      · have last : ∀ m : Lit n, m ∈ joined ++ [l] → m ∈ joined ∨ m ∈ l :: ls ∧ m.var ≠ v := by
          intro m hm
          rcases List.mem_append.1 hm with old | here
          · exact .inl old
          · rw [List.mem_singleton] at here
            subst here
            exact .inr ⟨List.mem_cons_self, other⟩
        obtain ⟨m, hm, opposite⟩ := ih h
        exact ⟨m, hm.elim (last m) fun hm => .inr (later m hm),
          opposite.elim (last m.neg) fun hm => .inr (later m.neg hm)⟩

theorem mem_resolvent_iff (h : resolvent? a b v = some r) (m : Lit n) :
    m ∈ r ↔ (m ∈ a ∨ m ∈ b) ∧ m.var ≠ v := by
  rw [mem_joinWithout_iff h, List.mem_filter, bne_iff_ne]
  exact or_and_right.symm

/-- Clauses that cannot be resolved have opposite literals of another variable. -/
theorem opposite_of_resolvent (h : resolvent? a b v = none) :
    ∃ m : Lit n, m.var ≠ v ∧ (m ∈ a ∨ m ∈ b) ∧ (m.neg ∈ a ∨ m.neg ∈ b) := by
  obtain ⟨m, hm, opposite⟩ := opposite_of_joinWithout h
  simp only [List.mem_filter, bne_iff_ne, Literal.neg_var] at hm opposite
  rcases hm with ⟨mem, other⟩ | ⟨mem, other⟩
  · exact ⟨m, other, .inl mem, opposite.imp And.left And.left⟩
  · exact ⟨m, other, .inr mem, opposite.imp And.left And.left⟩

/-! ## All resolvents -/

theorem mem_resolvents_iff {maxCount maxLength : Nat} {found rs : List (List (Lit n))}
    {pairs : List (List (Lit n) × List (Lit n))}
    (h : resolvents? v maxCount maxLength found pairs = some rs) (r : List (Lit n)) :
    r ∈ rs ↔ r ∈ found ∨ ∃ pair ∈ pairs, resolvent? pair.1 pair.2 v = some r := by
  induction pairs generalizing found with
  | nil =>
    rw [resolvents?, Option.some.injEq] at h
    simp [h]
  | cons pair pairs ih =>
    obtain ⟨a, b⟩ := pair
    rw [resolvents?] at h
    cases first : resolvent? a b v with
    | none =>
      rw [first] at h
      rw [ih h]
      simp [first]
    | some s =>
      rw [first] at h
      dsimp only at h
      split at h
      · cases h
      · rw [ih h]
        simp [first, or_assoc, eq_comm]

/-- The clauses `as` hold a literal, the clauses `bs` hold its negation, and none holds both. -/
structure Opposed (v : Fin n) (as bs : List (List (Lit n))) : Prop where
  positive : ∀ a ∈ as, ⟨v, true⟩ ∈ a ∧ ⟨v, false⟩ ∉ a
  negative : ∀ b ∈ bs, ⟨v, false⟩ ∈ b ∧ ⟨v, true⟩ ∉ b

variable {as bs rs : List (List (Lit n))} {maxCount maxLength : Nat}

theorem Opposed.eq_positive (h : Opposed v as bs) (ha : a ∈ as) {l : Lit n} (hl : l ∈ a)
    (var : l.var = v) : l = ⟨v, true⟩ := by
  obtain ⟨w, sign⟩ := l
  cases sign with
  | true => exact congrArg (Literal.mk · true) var
  | false => exact absurd (var ▸ hl) (h.positive a ha).2

theorem Opposed.eq_negative (h : Opposed v as bs) (hb : b ∈ bs) {l : Lit n} (hl : l ∈ b)
    (var : l.var = v) : l = ⟨v, false⟩ := by
  obtain ⟨w, sign⟩ := l
  cases sign with
  | false => exact congrArg (Literal.mk · false) var
  | true => exact absurd (var ▸ hl) (h.negative b hb).2

section

variable (opposed : Opposed v as bs)
  (resolved : resolvents? v maxCount maxLength [] (as.flatMap fun a => bs.map fun b => (a, b)) = some rs)

include resolved

theorem mem_resolved_iff (r : List (Lit n)) :
    r ∈ rs ↔ ∃ a ∈ as, ∃ b ∈ bs, resolvent? a b v = some r := by
  rw [mem_resolvents_iff resolved]
  simp only [List.mem_flatMap, List.mem_map, List.not_mem_nil, false_or, Prod.exists,
    Prod.mk.injEq]
  constructor
  · rintro ⟨_, _, ⟨a, ha, b, hb, rfl, rfl⟩, joined⟩
    exact ⟨a, ha, b, hb, joined⟩
  · rintro ⟨a, ha, b, hb, joined⟩
    exact ⟨a, b, ⟨a, ha, b, hb, rfl, rfl⟩, joined⟩

/-- No resolvent mentions the variable, or one that its clauses do not mention. -/
theorem mentioned_of_resolved (hr : r ∈ rs) {l : Lit n} (hl : l ∈ r) :
    l.var ≠ v ∧ ∃ c ∈ as ++ bs, l ∈ c := by
  obtain ⟨a, ha, b, hb, joined⟩ := (mem_resolved_iff resolved r).1 hr
  obtain ⟨mem, other⟩ := (mem_resolvent_iff joined l).1 hl
  refine ⟨other, ?_⟩
  rcases mem with mem | mem
  · exact ⟨a, List.mem_append_left _ ha, mem⟩
  · exact ⟨b, List.mem_append_right _ hb, mem⟩

include opposed

/-- Resolvents follow from the clauses. -/
theorem resolved_holds (holds : ∀ c ∈ as ++ bs, Lit.AnyHolds σ c) (hr : r ∈ rs) :
    Lit.AnyHolds σ r := by
  obtain ⟨a, ha, b, hb, joined⟩ := (mem_resolved_iff resolved r).1 hr
  obtain ⟨l, hl, true⟩ := holds a (List.mem_append_left _ ha)
  obtain ⟨m, hm, true'⟩ := holds b (List.mem_append_right _ hb)
  by_cases l_other : l.var = v
  · by_cases m_other : m.var = v
    · rw [opposed.eq_positive ha hl l_other] at true
      rw [opposed.eq_negative hb hm m_other] at true'
      exact absurd true ((Lit.holds_neg_iff σ ⟨v, .true⟩).1 true')
    · exact ⟨m, (mem_resolvent_iff joined m).2 ⟨.inr hm, m_other⟩, true'⟩
  · exact ⟨l, (mem_resolvent_iff joined l).2 ⟨.inl hl, l_other⟩, true⟩

end

/-! ## Repair -/

/-- Whether a removed clause holds only if the eliminated variable does. -/
def NeedsTrue (x : Elimination n) (σ : Valuation) : Prop :=
  ∃ c ∈ x.clauses, ⟨x.var, true⟩ ∈ c ∧ ∀ l ∈ c, l.var ≠ x.var → ¬ l.Holds σ

instance (x : Elimination n) (σ : Valuation) : Decidable (x.NeedsTrue σ) :=
  inferInstanceAs (Decidable (∃ c ∈ x.clauses, _))

/-- Gives the eliminated variable the value that its removed clauses need. -/
def repair (x : Elimination n) (σ : Valuation) : Valuation := fun k =>
  if k = x.var then decide (x.NeedsTrue σ) else σ k

theorem repair_var (x : Elimination n) (σ : Valuation) :
    x.repair σ x.var = decide (x.NeedsTrue σ) := if_pos rfl

theorem repair_of_ne (x : Elimination n) (σ : Valuation) {k : Nat} (h : k ≠ x.var) :
    x.repair σ k = σ k := if_neg h

theorem holds_repair_iff (x : Elimination n) (σ : Valuation) {l : Lit n} (other : l.var ≠ x.var) :
    l.Holds (x.repair σ) ↔ l.Holds σ := by
  rw [Lit.Holds, repair_of_ne x σ fun same => other (Fin.ext same), Lit.Holds]

/-- A valuation that satisfies the resolvents satisfies the clauses once it is repaired. -/
theorem holds_of_resolved (opposed : Opposed v as bs) (resolved : resolvents? v maxCount maxLength []
    (as.flatMap fun a => bs.map fun b => (a, b)) = some rs)
    (holds : ∀ r ∈ rs, Lit.AnyHolds σ r) {c : List (Lit n)} (hc : c ∈ as ++ bs) :
    Lit.AnyHolds (repair ⟨v, as ++ bs⟩ σ) c := by
  by_cases others : ∃ l ∈ c, l.var ≠ v ∧ l.Holds σ
  · obtain ⟨l, hl, other, true⟩ := others
    exact ⟨l, hl, (holds_repair_iff ⟨v, as ++ bs⟩ σ other).2 true⟩
  · have false : ∀ l ∈ c, l.var ≠ v → ¬ l.Holds σ := fun l hl other true =>
      others ⟨l, hl, other, true⟩
    rcases List.mem_append.1 hc with ha | hb
    · refine ⟨⟨v, .true⟩, (opposed.positive c ha).1, ?_⟩
      have required : NeedsTrue ⟨v, as ++ bs⟩ σ := ⟨c, hc, (opposed.positive c ha).1, false⟩
      exact (repair_var ⟨v, as ++ bs⟩ σ).trans (decide_eq_true required)
    · refine ⟨⟨v, .false⟩, (opposed.negative c hb).1, ?_⟩
      refine (repair_var ⟨v, as ++ bs⟩ σ).trans (decide_eq_false ?_)
      rintro ⟨a, ha, mem, false'⟩
      have ha : a ∈ as := by
        rcases List.mem_append.1 ha with ha | ha
        · exact ha
        · exact absurd mem (opposed.negative a ha).2
      -- The resolvent of the two clauses would be false.
      have nowhere : ∀ l : Lit n, (l ∈ a ∨ l ∈ c) → l.var ≠ v → ¬ l.Holds σ :=
        fun l hl other => hl.elim (false' l · other) (false l · other)
      cases joined : resolvent? a c v with
      | none =>
        obtain ⟨m, other, hm, opposite⟩ := opposite_of_resolvent joined
        exact nowhere m.neg opposite other ((Lit.holds_neg_iff σ m).2 (nowhere m hm other))
      | some r =>
        obtain ⟨l, hl, true⟩ := holds r ((mem_resolved_iff resolved r).2 ⟨a, ha, c, hb, joined⟩)
        obtain ⟨hl, other⟩ := (mem_resolvent_iff joined l).1 hl
        exact nowhere l hl other true

end Elimination

end IncrementalSat

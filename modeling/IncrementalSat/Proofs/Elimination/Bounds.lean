import IncrementalSat.Proofs.Elimination.Counting
import IncrementalSat.Proofs.Elimination.Course
import IncrementalSat.Proofs.Propagator.Remainder

/-!
# Elimination is bounded

A variable that is eliminated is on a limited number of problem clauses, and gives way to no more
clauses than it was on, each of limited length. Not every resolvent is stored: some are redundant by
then, and some come down to a fact. So neither the problem clauses nor the learnt clauses get more,
also if the elimination ends in a contradiction.
-/
namespace IncrementalSat

variable {n : Nat}

/-! ## Resolvents -/

/-- There are no more resolvents than allowed, and none is longer than allowed. -/
theorem Elimination.bounded_of_resolvents? {v : Fin n} {maxCount maxLength : Nat}
    {found rs : List (List (Lit n))} {pairs : List (List (Lit n) × List (Lit n))}
    (few : found.length ≤ maxCount) (short : ∀ r ∈ found, r.length ≤ maxLength)
    (resolved : resolvents? v maxCount maxLength found pairs = some rs) :
    rs.length ≤ maxCount ∧ ∀ r ∈ rs, r.length ≤ maxLength := by
  induction pairs generalizing found with
  | nil =>
    cases resolved
    exact ⟨few, short⟩
  | cons pair pairs ih =>
    obtain ⟨a, b⟩ := pair
    rw [resolvents?] at resolved
    split at resolved
    · exact ih few short resolved
    · next r _ =>
      split at resolved
      · cases resolved
      · next within =>
        obtain ⟨room, fits⟩ := not_or.1 within
        refine ih ?_ ?_ resolved
        · rw [List.length_append, List.length_singleton]
          omega
        · intro r' hr'
          rcases List.mem_append.1 hr' with old | last
          · exact short r' old
          · rw [List.mem_singleton.1 last]
            exact Nat.not_lt.1 fits

namespace ClauseStore

variable {s s' s'' : ClauseStore n} {limit k m : Nat}

/-- A store comes to hold `k` more clauses, each a problem clause with at least two and at most
`limit` literals over distinct variables. Those it held keep their places, and their literals up to
the order. -/
inductive Gains (limit : Nat) : Nat → ClauseStore n → ClauseStore n → Prop
  | done {s : ClauseStore n} : Gains limit 0 s s
  | reordered {k : Nat} {s s' s'' : ClauseStore n} (same : s.Matches Clause.Reordered s')
      (rest : Gains limit k s' s'') : Gains limit k s s''
  | stored {k : Nat} {s s' : ClauseStore n} {c : Clause n} (problem : c.learnt = false)
      (distinct : (c.lits.map (·.var)).Nodup) (long : 2 ≤ c.lits.length)
      (short : c.lits.length ≤ limit) (rest : Gains limit k (s.push c) s') :
      Gains limit (k + 1) s s'

namespace Gains

theorem wellFormed (h : Gains limit k s s') (wf : s.WellFormed) : s'.WellFormed := by
  induction h with
  | done => exact wf
  | reordered same _ ih => exact ih (same.wellFormed wf)
  | stored _ distinct _ _ _ ih => exact ih (wf.push distinct)

theorem problems_eq (h : Gains limit k s s') : s'.problems = s.problems + k := by
  induction h with
  | done => rfl
  | reordered same _ ih => rw [ih, same.problems]
  | stored problem _ _ _ _ ih =>
    rw [ih, ClauseStore.push]
    simp [problem, Nat.add_assoc, Nat.add_comm 1]

theorem learnts_eq (h : Gains limit k s s') : s'.learnts = s.learnts := by
  induction h with
  | done => rfl
  | reordered same _ ih => rw [ih, same.learnts]
  | stored problem _ _ _ _ ih =>
    rw [ih, ClauseStore.push]
    simp [problem]

end Gains

end ClauseStore

namespace Propagator

variable {p p' : Propagator n} {ok : Bool} {r : List (Lit n)} {rs : List (List (Lit n))}
  {table table' : Occurrences n} {limit : Nat}

/-- A clause with literals of a resolvent only is no longer than the resolvent. -/
theorem length_le_of_toLiteral_mem {c : Clause n} (distinct : (c.lits.map (·.var)).Nodup)
    (mem : ∀ l ∈ c.lits, l.toLiteral ∈ r.map Lit.toLiteral) : c.lits.length ≤ r.length := by
  have sub : c.lits ⊆ r := fun l hl => Lit.toLiteral_mem_map_iff.1 (mem l hl)
  exact (distinct.of_map.subperm sub).length_le

/-- No more clauses are stored than are to be added. -/
theorem gains_of_addResolvents (h : p.WellFormed) (root : p.trail.level = 0)
    (short : ∀ r ∈ rs, r.length ≤ limit)
    (added : p.addResolvents rs table = .ok (ok, table', p')) :
    ∃ k ≤ rs.length, p.store.Gains limit k p'.store := by
  induction rs generalizing p table with
  | nil =>
    cases added
    exact ⟨0, Nat.le_refl 0, .done⟩
  | cons r rs ih =>
    obtain ⟨shortest, short⟩ := List.forall_mem_cons.1 short
    obtain ⟨⟨ok', q⟩, first, later⟩ := bind_eq_ok_iff.1 added
    have step := (addClause_spec h root fun _ => Lit.var_lt_of_mem_map).of_eq first
    obtain ⟨h', root'⟩ := step.wellFormed h root
    -- What comes after `q` was reached stores at most one clause for each of the others.
    obtain ⟨k, few, rest⟩ : ∃ k ≤ rs.length, q.store.Gains limit k p'.store := by
      dsimp only at later
      split at later
      · cases later
        exact ⟨0, Nat.zero_le _, .done⟩
      · split at later
        · exact ih h' root' short later
        · obtain ⟨c, -, later⟩ := bind_eq_ok_iff.1 later
          exact ih h' root' short later
    rcases step.store h root with same | ⟨c, problem, distinct, mem, pushed⟩
    · exact ⟨k, Nat.le_succ_of_le few, .reordered same rest⟩
    · have within := Nat.le_trans (length_le_of_toLiteral_mem distinct mem) shortest
      rw [pushed] at rest
      exact ⟨k + 1, Nat.succ_le_succ few,
        .stored problem distinct (by simp [Clause.lits]) within rest⟩

end Propagator

namespace Engine

variable {config : Config} {e e' e₁ e₂ : Engine n} {f : Formula} {v : Fin n} {vs ws : List (Fin n)}
  {table table' learntTable : Occurrences n}

/-- A variable gives way to its resolvents within the bounds of a configuration: every clause on it
is removed, and for each problem clause on it no more than one is stored. -/
structure Replaces (config : Config) (e : Engine n) (v : Fin n) (e' : Engine n) : Prop where
  kept : e.isEliminated v = false
  occurring : 1 ≤ (e.store.problemsOn v).length
  few : (e.store.problemsOn v).length ≤ config.occurrenceLimit
  replaced : ∃ p, e.toPropagator.Purged v p ∧ ∃ k ≤ (e.store.problemsOn v).length,
    p.store.Gains config.resolventLimit k e'.store
  gone : ¬ e'.Occurs v
  eliminated : ∀ w : Fin n, e'.isEliminated w = true ↔ w = v ∨ e.isEliminated w = true

/-- While the candidates are tried one after the other, those in the second list give way to their
resolvents within the bounds. The others stay, and a contradiction ends it. -/
inductive Dissolves (config : Config) (learntTable : Occurrences n) :
    List (Fin n) → Occurrences n → Engine n → List (Fin n) → Engine n → Prop
  | done {table : Occurrences n} {e : Engine n} : Dissolves config learntTable [] table e [] e
  | spared {v : Fin n} {vs ws : List (Fin n)} {table : Occurrences n} {e e' : Engine n}
      (tried : e.tryEliminate v table learntTable = .ok (true, table, e))
      (rest : Dissolves config learntTable vs table e ws e') :
      Dissolves config learntTable (v :: vs) table e ws e'
  | replaced {v : Fin n} {vs ws : List (Fin n)} {table table₁ : Occurrences n} {e e₁ e' : Engine n}
      (tried : e.tryEliminate v table learntTable = .ok (true, table₁, e₁))
      (within : e.Replaces config v e₁) (rest : Dissolves config learntTable vs table₁ e₁ ws e') :
      Dissolves config learntTable (v :: vs) table e (v :: ws) e'
  | contradicted {v : Fin n} {vs : List (Fin n)} {table table₁ : Occurrences n} {e e₁ : Engine n}
      (tried : e.tryEliminate v table learntTable = .ok (false, table₁, e₁))
      (within : e.Replaces config v e₁) : Dissolves config learntTable (v :: vs) table e [v] e₁

/-- A call simplifies the clauses, and eliminates the variables in the list unless elimination is
off. -/
inductive Reduces (config : Config) (turnOff : Bool) (e : Engine n) :
    List (Fin n) → Engine n → Prop
  | off {e₁ : Engine n} (simplified : e.simplify = .ok (true, e₁))
      (clears : e.toPropagator.Clears e₁.toPropagator) (off : e₁.eliminates = false) :
      Reduces config turnOff e [] e₁
  | on {e₁ e₂ : Engine n} {vs : List (Fin n)} (simplified : e.simplify = .ok (true, e₁))
      (clears : e.toPropagator.Clears e₁.toPropagator) (on : e₁.eliminates = true)
      (dissolves : Dissolves config (.ofStore e₁.store true)
        (e₁.candidates (.ofStore e₁.store false)) (.ofStore e₁.store false) e₁ vs e₂) :
      Reduces config turnOff e vs (if turnOff then e₂.stopEliminating else e₂)

/-! ## One variable -/

theorem GivesWay.length_eq {as bs rs : List (List (Lit n))} {p : Propagator n}
    (gives : e.GivesWay v table learntTable as bs rs p) (h : Trying f learntTable table v e) :
    as.length + bs.length = (e.store.problemsOn v).length := by
  obtain ⟨is, js, positive, negative, fetched, fetched', -⟩ := gives.removed
  rw [h.problems.lookUp] at positive negative
  cases positive
  cases negative
  rw [Propagator.length_of_fetchAll fetched, Propagator.length_of_fetchAll fetched']
  exact h.problems.length_liveAt h.represents.wellFormed.propagator.store v

/-- A candidate that is tried stays, or gives way to its resolvents within the bounds. -/
theorem Trying.replaces (h : Trying f learntTable table v e) {ok : Bool}
    (tried : e.tryEliminate v table learntTable = .ok (ok, table', e')) :
    (ok = true ∧ table' = table ∧ e' = e) ∨ e.Replaces e.config v e' := by
  obtain ⟨h', -⟩ :=
    (tryEliminate_spec h.represents h.consistent h.thawed h.problems h.learnts).of_eq tried
  rcases givesWay_of_tryEliminate tried with stays | ⟨as, bs, rs, p, p', gives, added, rfl⟩
  · exact .inl stays
  · right
    have count := gives.length_eq h
    have occurring := gives.occurring
    have few := gives.few
    obtain ⟨fewer, short⟩ :=
      Elimination.bounded_of_resolvents? (Nat.zero_le _) (by simp) gives.resolved
    rw [count] at occurring few fewer
    have purged := gives.purged h
    have root : p.trail.level = 0 := by
      rw [purged.frame]
      exact h.represents.root
    obtain ⟨k, within, gains⟩ :=
      Propagator.gains_of_addResolvents purged.wellFormed root short added
    have marked := fun w =>
      isEliminated_recordElimination { e with toPropagator := p' } v w (as ++ bs)
    refine ⟨?_, Nat.one_le_iff_ne_zero.2 occurring, few,
      ⟨p, purged, k, Nat.le_trans within fewer, gains⟩, ?_, marked⟩
    · obtain ⟨c, hc⟩ := List.exists_mem_of_length_pos (Nat.pos_of_ne_zero occurring)
      obtain ⟨i, has, -, found⟩ := ClauseStore.mem_problemsOn_iff.1 hc
      by_contra eliminated
      rw [Bool.not_eq_false] at eliminated
      exact h.represents.hygienic.absent v eliminated (.inl ⟨i, c, has, found⟩)
    · exact h'.hygienic.absent v ((marked v).2 (.inl rfl))

namespace Replaces

variable (h : e.Replaces config v e') (wf : e.store.WellFormed)

include h

theorem wellFormed : e'.store.WellFormed := by
  obtain ⟨p, purged, k, -, gains⟩ := h.replaced
  exact gains.wellFormed purged.wellFormed.store

include wf

theorem noMore : e.store.NoMore e'.store := by
  obtain ⟨p, purged, k, within, gains⟩ := h.replaced
  constructor
  · calc e'.store.problems = p.store.problems + k := gains.problems_eq
      _ ≤ p.store.problems + (e.store.problemsOn v).length := Nat.add_le_add_left within _
      _ = e.store.problems := purged.problems_add wf
  · rw [gains.learnts_eq]
    exact purged.learnts_le wf

end Replaces

/-! ## All candidates -/

namespace Dissolves

theorem noMore (h : Dissolves config learntTable vs table e ws e') (wf : e.store.WellFormed) :
    e.store.NoMore e'.store := by
  induction h with
  | done => exact .refl _
  | spared _ _ ih => exact ih wf
  | replaced _ within _ ih => exact (within.noMore wf).trans (ih within.wellFormed)
  | contradicted _ within => exact within.noMore wf

theorem eliminated_iff (h : Dissolves config learntTable vs table e ws e') (w : Fin n) :
    e'.isEliminated w = true ↔ w ∈ ws ∨ e.isEliminated w = true := by
  induction h with
  | done => simp
  | spared _ _ ih => exact ih
  | replaced _ within _ ih => rw [ih, within.eliminated, List.mem_cons, or_assoc, or_left_comm]
  | contradicted _ within => rw [within.eliminated, List.mem_singleton]

end Dissolves

theorem dissolves_of_eliminateEach (h : Represents f e) (consistent : e.consistent = true)
    (thawed : ∀ w ∈ vs, e.isFrozen w = false) (problems : table.Covers e.store false)
    (learnts : learntTable.Covers e.store true) {ok : Bool}
    (eliminated : eliminateEach learntTable vs table e = .ok (ok, e')) :
    ∃ ws, Dissolves e.config learntTable vs table e ws e' := by
  induction vs generalizing table e with
  | nil =>
    cases eliminated
    exact ⟨[], .done⟩
  | cons v vs ih =>
    obtain ⟨⟨fine, table₁, e₁⟩, tried, later⟩ := bind_eq_ok_iff.1 eliminated
    have trying : Trying f learntTable table v e :=
      ⟨h, consistent, thawed v List.mem_cons_self, problems, learnts⟩
    obtain ⟨h₁, answer, sheds, problems₁, learnts₁⟩ :=
      (tryEliminate_spec h consistent trying.thawed problems learnts).of_eq tried
    cases fine with
    | false =>
      cases later
      rcases trying.replaces tried with ⟨impossible, -⟩ | within
      · cases impossible
      · exact ⟨[v], .contradicted tried within⟩
    | true =>
      have thawed₁ : ∀ w ∈ vs, e₁.isFrozen w = false := by
        intro w hw
        unfold isFrozen
        rw [sheds.frozen]
        exact thawed w (List.mem_cons_of_mem _ hw)
      obtain ⟨ws, rest⟩ := ih h₁ answer thawed₁ (problems₁ rfl) learnts₁ later
      rw [sheds.config] at rest
      rcases trying.replaces tried with ⟨-, rfl, rfl⟩ | within
      · exact ⟨ws, .spared tried rest⟩
      · exact ⟨v :: ws, .replaced tried within rest⟩

/-! ## The whole call -/

theorem Represents.reduces (h : Represents f e) (consistent : e.consistent = true)
    {turnOff ok : Bool} (eliminated : e.eliminate turnOff = .ok (ok, e')) :
    ∃ vs, e.Reduces e.config turnOff vs e' := by
  obtain ⟨p, simplified, clears, -⟩ := Propagator.simplify_of_done h.wellFormed.propagator h.root
    consistent (h.done consistent)
  have first : e.simplify = .ok (true, { e with toPropagator := p }) := by
    rw [Engine.simplify, propagating, simplified]
    rfl
  obtain ⟨h₁, answer, -⟩ := h.simplify.of_eq first
  unfold Engine.eliminate at eliminated
  rw [first] at eliminated
  change (if (!e.eliminates) = true then _ else _) = _ at eliminated
  split at eliminated
  · next off =>
    cases eliminated
    exact ⟨[], .off first clears (by simpa using off)⟩
  · next on =>
    obtain ⟨⟨ok, e₂⟩, each, result⟩ := bind_eq_ok_iff.1 eliminated
    have wf := h₁.wellFormed.propagator.store
    obtain ⟨vs, dissolves⟩ := dissolves_of_eliminateEach h₁ answer (fun _ => thawed_of_candidate)
      (Occurrences.covers_ofStore wf false) (Occurrences.covers_ofStore wf true) each
    cases result
    exact ⟨vs, .on first clears (by simpa using on) dissolves⟩

theorem Represents.noMore_of_reduces (h : Represents f e) {turnOff : Bool}
    (reduces : e.Reduces config turnOff vs e') : e.store.NoMore e'.store := by
  have wf := h.wellFormed.propagator.store
  cases reduces with
  | off simplified clears =>
    obtain ⟨h₁, -⟩ := h.simplify.of_eq simplified
    exact clears.noMore wf h₁.wellFormed.propagator.store
  | on simplified clears _ dissolves =>
    obtain ⟨h₁, -⟩ := h.simplify.of_eq simplified
    have wf₁ := h₁.wellFormed.propagator.store
    have both := (clears.noMore wf wf₁).trans (dissolves.noMore wf₁)
    cases turnOff <;> exact both

theorem Reduces.eliminated_iff {turnOff : Bool} (h : e.Reduces config turnOff vs e') (v : Fin n) :
    e'.isEliminated v = true ↔ v ∈ vs ∨ e.isEliminated v = true := by
  have simplified {e₁ : Engine n} (simplified : e.simplify = .ok (true, e₁)) :
      e₁.isEliminated v = e.isEliminated v := by
    obtain ⟨⟨_, p⟩, -, result⟩ := bind_eq_ok_iff.1 simplified
    cases result
    rfl
  cases h with
  | off first => simp [simplified first]
  | on first _ _ dissolves =>
    have after := dissolves.eliminated_iff v
    rw [simplified first] at after
    cases turnOff <;> exact after

/-- What a call does that eliminates the variables in the list. -/
structure StaysWithin (config : Config) (turnOff : Bool) (e : Engine n) (vs : List (Fin n))
    (e' : Engine n) : Prop where
  reduces : e.Reduces config turnOff vs e'
  noMore : e.store.NoMore e'.store
  eliminated : ∀ v : Fin n, e'.isEliminated v = true ↔ v ∈ vs ∨ e.isEliminated v = true
  gone : ∀ v ∈ vs, ¬ e'.Occurs v

theorem Represents.staysWithin (h : Represents f e) (consistent : e.consistent = true)
    (turnOff : Bool) : Yields (e.eliminate turnOff) fun (_, e') =>
      ∃ vs, e.StaysWithin e.config turnOff vs e' := by
  obtain ⟨⟨ok, e'⟩, ran, h', -⟩ := h.eliminate turnOff
  obtain ⟨vs, reduces⟩ := h.reduces consistent ran
  have eliminated := reduces.eliminated_iff
  exact ⟨_, ran, vs, reduces, h.noMore_of_reduces reduces, eliminated, fun v hv =>
    h'.hygienic.absent v ((eliminated v).2 (.inl hv))⟩

end Engine

end IncrementalSat

import IncrementalSat.Proofs.Elimination.Enrichment
import IncrementalSat.Proofs.Engine.Representation

/-!
# Eliminating variables

Once the clauses of a variable gave way to their resolvents, the engine stands for the same formula:
the resolvents follow from the clauses, and a valuation that satisfies the resolvents satisfies the
clauses after a repair at the variable. This holds for one variable and so, by induction, for all.
-/
namespace IncrementalSat

open Elimination (Opposed)

variable {n : Nat}

/-! ## Removing the clauses of a variable -/

namespace Propagator

variable {p p' : Propagator n} {v : Fin n} {table learntTable : Occurrences n}

/-- What is left once every clause on a variable was removed. -/
structure Purged (p : Propagator n) (v : Fin n) (p' : Propagator n) : Prop where
  wellFormed : p'.WellFormed
  frame : p' = { p with store := p'.store }
  has : ∀ i c, p'.store.Has i c ↔ p.store.Has i c ∧ ∀ l ∈ c.lits, l.var ≠ v
  size : p'.store.size = p.store.size

theorem mem_liveAt_var_iff {s : ClauseStore n} {learnt : Bool} (h : table.Covers s learnt)
    (v : Fin n) (i : Nat) : i ∈ table.liveAt s ⟨v, true⟩ ++ table.liveAt s ⟨v, false⟩ ↔
      ∃ c, s.Has i c ∧ c.learnt = learnt ∧ ∃ l ∈ c.lits, l.var = v := by
  rw [List.mem_append, h.mem_liveAt_iff, h.mem_liveAt_iff]
  constructor
  · rintro (⟨c, hc, kind, hl⟩ | ⟨c, hc, kind, hl⟩)
    · exact ⟨c, hc, kind, _, hl, rfl⟩
    · exact ⟨c, hc, kind, _, hl, rfl⟩
  · rintro ⟨c, hc, kind, ⟨w, sign⟩, hl, rfl⟩
    cases sign with
    | true => exact .inl ⟨c, hc, kind, hl⟩
    | false => exact .inr ⟨c, hc, kind, hl⟩

/-- At the root level the clauses found under the two literals of a variable can be removed. -/
theorem removeAll_liveAt (h : p.WellFormed) (root : p.trail.level = 0) {learnt : Bool}
    (covers : table.Covers p.store learnt) (v : Fin n) :
    Yields (removeAll (table.liveAt p.store ⟨v, true⟩ ++ table.liveAt p.store ⟨v, false⟩) p)
      (p.Without (table.liveAt p.store ⟨v, true⟩ ++ table.liveAt p.store ⟨v, false⟩)) := by
  refine h.removeAll (covers.nodup_liveAt h.store v) ?_
  intro i hi
  obtain ⟨c, hc, -⟩ := (mem_liveAt_var_iff covers v i).1 hi
  exact ⟨c, hc, fun above => absurd root above⟩

/-- Problem clauses and learnt clauses on a variable are removed one after the other. -/
theorem purged_of_without {q : Propagator n} (problems : table.Covers p.store false)
    (learnts : learntTable.Covers q.store true)
    (first : p.Without (table.liveAt p.store ⟨v, true⟩ ++ table.liveAt p.store ⟨v, false⟩) q)
    (second : q.Without
      (learntTable.liveAt q.store ⟨v, true⟩ ++ learntTable.liveAt q.store ⟨v, false⟩) p') :
    p.Purged v p' where
  wellFormed := second.wellFormed
  frame := by rw [second.frame, first.frame]
  has := by
    intro i c
    rw [second.has, first.has, mem_liveAt_var_iff problems, mem_liveAt_var_iff learnts]
    constructor
    · rintro ⟨not_learnt, not_problem, hc⟩
      refine ⟨hc, fun l hl same => ?_⟩
      cases kind : c.learnt with
      | false => exact not_problem ⟨c, hc, kind, l, hl, same⟩
      | true =>
        refine not_learnt ⟨c, (first.has i c).2 ⟨?_, hc⟩, kind, l, hl, same⟩
        rw [mem_liveAt_var_iff problems]
        exact not_problem
    · rintro ⟨hc, absent⟩
      have nowhere : ¬ ∃ l ∈ c.lits, l.var = v := fun ⟨l, hl, same⟩ => absent l hl same
      refine ⟨?_, ?_, hc⟩
      · rintro ⟨d, hd, -, found⟩
        rw [((first.has i d).1 hd).2.unique hc] at found
        exact nowhere found
      · rintro ⟨d, hd, -, found⟩
        rw [hd.unique hc] at found
        exact nowhere found
  size := second.size.trans first.size

namespace Purged

variable (h : p.Purged v p')

include h

theorem fixes_iff (l : Lit n) : p'.Fixes l ↔ p.Fixes l := by
  have trail : p'.trail = p.trail := by rw [h.frame]
  exact fixes_congr (by rw [trail]) l

theorem valid {σ : Valuation} (valid : p.Valid σ) : p'.Valid σ where
  clauses := fun i c hc => valid.clauses i c ((h.has i c).1 hc).1
  facts := fun l hl => valid.facts l ((h.fixes_iff l).1 hl)

theorem occurs_of {w : Fin n} (hw : p'.Occurs w) : p.Occurs w := by
  rcases hw with ⟨i, c, hc, found⟩ | ⟨l, hl, same⟩
  · exact .inl ⟨i, c, ((h.has i c).1 hc).1, found⟩
  · exact .inr ⟨l, (h.fixes_iff l).1 hl, same⟩

/-- The variable is gone unless it is fixed. -/
theorem not_occurs (fresh : p.trail.valueOf v = none) : ¬ p'.Occurs v := by
  rintro (⟨i, c, hc, l, hl, same⟩ | ⟨l, hl, rfl⟩)
  · exact ((h.has i c).1 hc).2 l hl same
  · have holds := ((h.fixes_iff l).1 hl).1
    rw [(Trail.eval_eq_none_iff ..).2 fresh] at holds
    cases holds

end Purged

end Propagator

namespace Engine

variable {e : Engine n} {f : Formula} {v : Fin n}

/-! ## One variable -/

/-- The clauses `as` and `bs` are the problem clauses with the literals of a variable. -/
structure Gathered (e : Engine n) (v : Fin n) (as bs : List (List (Lit n))) : Prop where
  positive : ∀ lits, lits ∈ as ↔
    ∃ i c, e.store.Has i c ∧ c.learnt = false ∧ ⟨v, true⟩ ∈ c.lits ∧ c.lits = lits
  negative : ∀ lits, lits ∈ bs ↔
    ∃ i c, e.store.Has i c ∧ c.learnt = false ∧ ⟨v, false⟩ ∈ c.lits ∧ c.lits = lits

variable {as bs rs : List (List (Lit n))} {maxCount maxLength : Nat}

namespace Gathered

variable (h : e.Gathered v as bs)

include h

theorem opposed (wf : e.store.WellFormed) : Opposed v as bs where
  positive := by
    intro a ha
    obtain ⟨i, c, hc, -, mem, rfl⟩ := (h.positive a).1 ha
    refine ⟨mem, fun opposite => ?_⟩
    have same := List.inj_on_of_nodup_map (wf.distinct i c hc) mem opposite rfl
    simp at same
  negative := by
    intro b hb
    obtain ⟨i, c, hc, -, mem, rfl⟩ := (h.negative b).1 hb
    refine ⟨mem, fun opposite => ?_⟩
    have same := List.inj_on_of_nodup_map (wf.distinct i c hc) mem opposite rfl
    simp at same

theorem mem_iff (lits : List (Lit n)) : lits ∈ as ++ bs ↔
    ∃ i c, e.store.Has i c ∧ c.learnt = false ∧ (∃ l ∈ c.lits, l.var = v) ∧ c.lits = lits := by
  rw [List.mem_append, h.positive, h.negative]
  constructor
  · rintro (⟨i, c, hc, kind, mem, eq⟩ | ⟨i, c, hc, kind, mem, eq⟩)
    · exact ⟨i, c, hc, kind, ⟨_, mem, rfl⟩, eq⟩
    · exact ⟨i, c, hc, kind, ⟨_, mem, rfl⟩, eq⟩
  · rintro ⟨i, c, hc, kind, ⟨⟨w, sign⟩, mem, rfl⟩, eq⟩
    cases sign with
    | true => exact .inl ⟨i, c, hc, kind, mem, eq⟩
    | false => exact .inr ⟨i, c, hc, kind, mem, eq⟩

theorem occurs {lits : List (Lit n)} (mem : lits ∈ as ++ bs) {l : Lit n} (hl : l ∈ lits) :
    e.Occurs l.var := by
  obtain ⟨i, c, hc, -, -, rfl⟩ := (h.mem_iff lits).1 mem
  exact .inl ⟨i, c, hc, l, hl, rfl⟩

end Gathered

theorem isEliminated_recordElimination (e : Engine n) (v w : Fin n)
    (clauses : List (List (Lit n))) :
    (e.recordElimination v clauses).isEliminated w = true ↔ w = v ∨ e.isEliminated w = true := by
  change (e.marks.eliminated.set v true).get w = true ↔ w = v ∨ e.marks.eliminated.get w = true
  by_cases same : w = v
  · subst same
    simp
  · simp [same, Ne.symm same]

/-- What was accounted for still is, unless it was removed with the variable. -/
theorem Gathered.accounts {p q : Propagator n} {ok : Bool} {table : Occurrences n}
    (gathered : e.Gathered v as bs) (purged : e.toPropagator.Purged v p)
    (enriched : p.Enriched rs ok table q) {clause : List (Literal Nat)}
    (accounts : e.Accounts clause) : q.Accounts clause ∨
      ∃ c ∈ as ++ bs, (∃ l ∈ c, l.var = v) ∧ ∀ l ∈ c, l.toLiteral ∈ clause := by
  rcases accounts with opposite | ⟨ls, part, ⟨l, hl, fixed⟩ | ⟨i, c, hc, problem, sub⟩⟩
  · exact .inl (.inl opposite)
  · have still := enriched.preserves.facts l ((purged.fixes_iff l).2 fixed)
    exact .inl (.inr ⟨ls, part, .inl ⟨l, hl, still⟩⟩)
  · by_cases mentioned : ∃ l ∈ c.lits, l.var = v
    · right
      have mem := (gathered.mem_iff c.lits).2 ⟨i, c, hc, problem, mentioned, rfl⟩
      exact ⟨c.lits, mem, mentioned, fun l hl => part l (sub l hl)⟩
    · left
      have absent : ∀ l ∈ c.lits, l.var ≠ v := fun l hl same => mentioned ⟨l, hl, same⟩
      have kept := enriched.preserves.clauses i c ((purged.has i c).2 ⟨hc, absent⟩) problem
      exact .inr ⟨ls, part, kept.mono sub⟩

section

variable (h : Represents f e) (fresh : e.trail.valueOf v = none) (gathered : e.Gathered v as bs)
  (resolved : Elimination.resolvents? v maxCount maxLength []
    (as.flatMap fun a => bs.map fun b => (a, b)) = some rs)
  {p q : Propagator n} (purged : e.toPropagator.Purged v p) {ok : Bool} {table : Occurrences n}
  (enriched : p.Enriched rs ok table q)

include h gathered resolved purged enriched

/-- The formula implies what is said after the elimination, and that there is no contradiction. -/
theorem sound_of_enriched {σ : Valuation} (holds : f.Holds σ) : q.Valid σ ∧ ok = true := by
  have valid := h.sound σ holds
  refine enriched.sound σ (purged.valid valid) fun r hr => ?_
  refine Elimination.resolved_holds (gathered.opposed h.wellFormed.propagator.store) resolved ?_ hr
  intro lits mem
  obtain ⟨i, c, hc, -, -, rfl⟩ := (gathered.mem_iff lits).1 mem
  exact valid.clauses i c hc

include fresh

/-- What was required before the elimination holds after a repair. -/
theorem requires_of_enriched (fine : ok = true) {σ : Valuation} (required : q.Requires σ) :
    e.Requires (Elimination.repair ⟨v, as ++ bs⟩ σ) := by
  have required' := enriched.preserves.requires required
  have holds := enriched.added fine σ required
  constructor
  · intro i c hc kind
    by_cases mentioned : ∃ l ∈ c.lits, l.var = v
    · exact Elimination.holds_of_resolved (gathered.opposed h.wellFormed.propagator.store) resolved
        holds ((gathered.mem_iff c.lits).2 ⟨i, c, hc, kind, mentioned, rfl⟩)
    · have absent : ∀ l ∈ c.lits, l.var ≠ v := fun l hl same => mentioned ⟨l, hl, same⟩
      obtain ⟨l, hl, true⟩ := required'.clauses i c ((purged.has i c).2 ⟨hc, absent⟩) kind
      exact ⟨l, hl, (Elimination.holds_repair_iff ⟨v, as ++ bs⟩ σ (absent l hl)).2 true⟩
  · intro l hl
    have other : l.var ≠ v := by
      rintro rfl
      have holds := hl.1
      rw [(Trail.eval_eq_none_iff ..).2 fresh] at holds
      cases holds
    exact (Elimination.holds_repair_iff ⟨v, as ++ bs⟩ σ other).2
      (required'.facts l ((purged.fixes_iff l).2 hl))

/-- Neither the variable nor one eliminated before occurs after the elimination. -/
theorem not_occurs_of_enriched {w : Fin n} (gone : w = v ∨ e.isEliminated w = true) :
    ¬ q.Occurs w := by
  intro occurs
  rcases enriched.occurs w occurs with old | ⟨r, hr, l, hl, rfl⟩
  · rcases gone with rfl | eliminated
    · exact purged.not_occurs fresh old
    · exact h.hygienic.absent w eliminated (purged.occurs_of old)
  · obtain ⟨other, c, hc, mem⟩ := Elimination.mentioned_of_resolved resolved hr hl
    exact h.hygienic.absent _ (gone.resolve_left other) (gathered.occurs hc mem)

/-- After the elimination the engine still stands for the formula. -/
theorem Represents.recordElimination (consistent : e.consistent = true)
    (kept : e.isEliminated v = false) :
    Represents f ({ e with toPropagator := q }.recordElimination v (as ++ bs)) := by
  refine ⟨⟨enriched.wellFormed, h.wellFormed.heap, h.wellFormed.clear⟩, enriched.root, ?_, ?_, ?_, ?_,
    ?_, ⟨?_, ?_, ?_⟩, h.allocated⟩
  · exact fun consistent => enriched.done (enriched.consistent.symm.trans consistent)
  · exact fun σ holds => (sound_of_enriched h gathered resolved purged enriched holds).1
  · intro consistent' σ required
    have fine := enriched.consistent.symm.trans consistent'
    exact h.covers consistent _ (requires_of_enriched h fresh gathered resolved purged enriched fine required)
  · intro _ c hc
    rcases h.traced consistent c hc with accounts | ⟨x, hx, removed⟩
    · rcases gathered.accounts purged enriched accounts with still | removed
      · exact .inl still
      · exact .inr ⟨⟨v, as ++ bs⟩, List.mem_cons_self, removed⟩
    · exact .inr ⟨x, List.mem_cons_of_mem _ hx, removed⟩
  · intro inconsistent σ holds
    have fine := (sound_of_enriched h gathered resolved purged enriched holds).2
    rw [← enriched.consistent] at fine
    exact absurd (fine.symm.trans inconsistent) (by simp)
  · intro w
    rw [isEliminated_recordElimination]
    constructor
    · rintro (rfl | old)
      · exact ⟨_, List.mem_cons_self, rfl⟩
      · obtain ⟨x, hx, same⟩ := (h.hygienic.marked w).1 old
        exact ⟨x, List.mem_cons_of_mem _ hx, same⟩
    · rintro ⟨x, hx, rfl⟩
      rcases List.mem_cons.1 hx with rfl | hx
      · exact .inl rfl
      · exact .inr ((h.hygienic.marked x.var).2 ⟨x, hx, rfl⟩)
  · intro w eliminated
    exact not_occurs_of_enriched h fresh gathered resolved purged enriched
      ((isEliminated_recordElimination { e with toPropagator := q } v w (as ++ bs)).1 eliminated)
  · refine List.pairwise_cons.2 ⟨?_, h.hygienic.ordered⟩
    intro x hx mentions
    have eliminated := (h.hygienic.marked x.var).2 ⟨x, hx, rfl⟩
    rcases mentions with same | ⟨c, hc, l, hl, same⟩
    · change x.var = v at same
      rw [same, kept] at eliminated
      cases eliminated
    · exact h.hygienic.absent x.var eliminated (same ▸ gathered.occurs hc hl)

end

/-! ## All variables -/

/-- What eliminating variables leaves alone, and whose marks it may change. -/
structure Sheds (e e' : Engine n) : Prop where
  config : e'.config = e.config
  frozen : e'.marks.frozen = e.marks.frozen
  model : e'.model = e.model
  more : ∀ v : Fin n, e.isEliminated v = true → e'.isEliminated v = true
  thawed : ∀ v : Fin n, e'.isEliminated v = true → e.isEliminated v = true ∨ e.isFrozen v = false
  decision : ∀ v : Fin n, e.marks.decision.get v = true →
    e'.marks.decision.get v = true ∨ e'.isEliminated v = true
  fixes : ∀ l, e.Fixes l → e'.Fixes l

namespace Sheds

variable {e' e'' : Engine n}

theorem of_marks_eq (config : e'.config = e.config) (marks : e'.marks = e.marks)
    (model : e'.model = e.model) (fixes : ∀ l, e.Fixes l → e'.Fixes l) : e.Sheds e' where
  config := config
  frozen := by rw [marks]
  model := model
  more := by unfold isEliminated; rw [marks]; exact fun _ h => h
  thawed := by unfold isEliminated; rw [marks]; exact fun _ h => .inl h
  decision := by rw [marks]; exact fun _ h => .inl h
  fixes := fixes

theorem refl (e : Engine n) : e.Sheds e := .of_marks_eq rfl rfl rfl fun _ fixed => fixed

theorem trans (h : e.Sheds e') (h' : e'.Sheds e'') : e.Sheds e'' where
  config := h'.config.trans h.config
  frozen := h'.frozen.trans h.frozen
  model := h'.model.trans h.model
  more := fun v hv => h'.more v (h.more v hv)
  thawed := by
    intro v hv
    rcases h'.thawed v hv with old | thawed
    · exact h.thawed v old
    · right
      unfold isFrozen at thawed ⊢
      rwa [h.frozen] at thawed
  decision := by
    intro v hv
    rcases h.decision v hv with still | gone
    · exact h'.decision v still
    · exact .inr (h'.more v gone)
  fixes := fun l fixed => h'.fixes l (h.fixes l fixed)

theorem recordElimination (thawed : e.isFrozen v = false) {q : Propagator n}
    (fixes : ∀ l, e.Fixes l → q.Fixes l) (clauses : List (List (Lit n))) :
    e.Sheds ({ e with toPropagator := q }.recordElimination v clauses) := by
  have marked := fun w => isEliminated_recordElimination { e with toPropagator := q } v w clauses
  refine ⟨rfl, rfl, rfl, fun w hw => (marked w).2 (.inr hw), ?_, ?_, fixes⟩
  · intro w hw
    rcases (marked w).1 hw with rfl | old
    · exact .inr thawed
    · exact .inl old
  · intro w hw
    by_cases same : w = v
    · exact .inr ((marked w).2 (.inl same))
    · left
      change (e.marks.decision.set v false).get w = true
      simpa [Ne.symm same] using hw

end Sheds

section

variable {learntTable : Occurrences n}

theorem gathered_of_fetchAll {table : Occurrences n} (covers : table.Covers e.store false)
    {as bs : List (List (Lit n))}
    (positive : ∀ lits, lits ∈ as ↔
      ∃ i ∈ table.liveAt e.store ⟨v, true⟩, ∃ c, e.store.Has i c ∧ c.lits = lits)
    (negative : ∀ lits, lits ∈ bs ↔
      ∃ i ∈ table.liveAt e.store ⟨v, false⟩, ∃ c, e.store.Has i c ∧ c.lits = lits) :
    e.Gathered v as bs := by
  have found : ∀ (l : Lit n) (lits : List (Lit n)),
      (∃ i ∈ table.liveAt e.store l, ∃ c, e.store.Has i c ∧ c.lits = lits) ↔
        ∃ i c, e.store.Has i c ∧ c.learnt = false ∧ l ∈ c.lits ∧ c.lits = lits := by
    intro l lits
    simp only [covers.mem_liveAt_iff]
    constructor
    · rintro ⟨i, ⟨c, hc, kind, mem⟩, d, hd, eq⟩
      rw [hd.unique hc] at eq
      exact ⟨i, c, hc, kind, mem, eq⟩
    · rintro ⟨i, c, hc, kind, mem, eq⟩
      exact ⟨i, ⟨c, hc, kind, mem⟩, c, hc, eq⟩
  exact ⟨fun lits => (positive lits).trans (found _ lits),
    fun lits => (negative lits).trans (found _ lits)⟩

/-- A variable gives way to its resolvents. -/
theorem eliminateVar_spec (h : Represents f e) (fresh : e.trail.valueOf v = none)
    (gathered : e.Gathered v as bs) (resolved : Elimination.resolvents? v maxCount maxLength []
      (as.flatMap fun a => bs.map fun b => (a, b)) = some rs) (consistent : e.consistent = true)
    (kept : e.isEliminated v = false) (thawed : e.isFrozen v = false) {table : Occurrences n}
    (problems : table.Covers e.store false) (learnts : learntTable.Covers e.store true) :
    Yields (e.eliminateVar v table learntTable
      (table.liveAt e.store ⟨v, true⟩ ++ table.liveAt e.store ⟨v, false⟩) (as ++ bs) rs)
      fun (ok, table', e') => Represents f e' ∧ e'.consistent = ok ∧ e.Sheds e' ∧
        (ok = true → table'.Covers e'.store false) ∧ learntTable.Covers e'.store true := by
  have wf := h.wellFormed.propagator
  unfold eliminateVar
  refine (Propagator.removeAll_liveAt wf h.root problems v).bind fun q first => ?_
  have learnts' := learnts.without first.size fun i d hd => ((first.has i d).1 hd).2
  have root : q.trail.level = 0 := by rw [first.frame]; exact h.root
  rw [learnts'.lookUp, learnts'.lookUp]
  refine (Propagator.removeAll_liveAt first.wellFormed root learnts' v).bind fun p second => ?_
  have purged := Propagator.purged_of_without problems learnts' first second
  have sub : ∀ i d, p.store.Has i d → e.store.Has i d := fun i d hd => ((purged.has i d).1 hd).1
  have root' : p.trail.level = 0 := by rw [purged.frame]; exact h.root
  have consistent' : p.consistent = true := by rw [purged.frame]; exact consistent
  have done : p.head = p.trail.size := by rw [purged.frame]; exact h.done consistent
  refine (Propagator.addResolvents_spec rs table p purged.wellFormed root' consistent' done
    (problems.without purged.size sub)).bind ?_
  rintro ⟨ok, table', r⟩ enriched
  have fixes : ∀ l, e.Fixes l → r.Fixes l := fun l fixed =>
    enriched.preserves.facts l ((purged.fixes_iff l).2 fixed)
  refine Yields.pure ⟨?_, enriched.consistent, .recordElimination thawed fixes (as ++ bs),
    enriched.problems, enriched.learnts _ (learnts.without purged.size sub)⟩
  exact h.recordElimination fresh gathered resolved purged enriched consistent kept

/-- Trying to eliminate a variable that is not frozen succeeds, whether or not it is eliminated. -/
theorem tryEliminate_spec (h : Represents f e) (consistent : e.consistent = true)
    (thawed : e.isFrozen v = false) {table : Occurrences n} (problems : table.Covers e.store false)
    (learnts : learntTable.Covers e.store true) :
    Yields (e.tryEliminate v table learntTable) fun (ok, table', e') =>
      Represents f e' ∧ e'.consistent = ok ∧ e.Sheds e' ∧
        (ok = true → table'.Covers e'.store false) ∧ learntTable.Covers e'.store true := by
  have unchanged : Represents f e ∧ e.consistent = true ∧ e.Sheds e ∧
      (true = true → table.Covers e.store false) ∧ learntTable.Covers e.store true :=
    ⟨h, consistent, .refl e, fun _ => problems, learnts⟩
  have wf := h.wellFormed.propagator
  have live : ∀ l, ∀ i ∈ table.liveAt e.store l, ∃ c, e.store.Has i c := by
    intro l i hi
    obtain ⟨c, hc, -⟩ := (problems.mem_liveAt_iff l i).1 hi
    exact ⟨c, hc⟩
  unfold tryEliminate
  rw [problems.lookUp, problems.lookUp]
  split
  · exact Yields.ok unchanged
  · next unset =>
    change Yields (if _ then _ else _) _
    split
    · exact Yields.ok unchanged
    · next within =>
      have occurring := (not_or.1 within).1
      refine (Propagator.fetchAll_spec (live ⟨v, true⟩)).bind fun as positive => ?_
      refine (Propagator.fetchAll_spec (live ⟨v, false⟩)).bind fun bs negative => ?_
      have gathered := gathered_of_fetchAll problems positive negative
      dsimp only
      split
      · exact Yields.ok unchanged
      · next rs resolved =>
        have fresh : e.trail.valueOf v = none := by simpa using unset
        have kept : e.isEliminated v = false := by
          by_contra eliminated
          rw [Bool.not_eq_false] at eliminated
          apply occurring
          rw [← List.length_append, List.length_eq_zero_iff, List.eq_nil_iff_forall_not_mem]
          intro i hi
          obtain ⟨c, hc, -, found⟩ := (Propagator.mem_liveAt_var_iff problems v i).1 hi
          exact h.hygienic.absent v eliminated (.inl ⟨i, c, hc, found⟩)
        exact eliminateVar_spec h fresh gathered resolved consistent kept thawed problems learnts

/-- Variables that are not frozen can be tried one after the other. -/
theorem eliminateEach_spec (vs : List (Fin n)) (table : Occurrences n) (e : Engine n)
    (h : Represents f e) (consistent : e.consistent = true)
    (thawed : ∀ v ∈ vs, e.isFrozen v = false) (problems : table.Covers e.store false)
    (learnts : learntTable.Covers e.store true) :
    Yields (eliminateEach learntTable vs table e) fun (ok, e') =>
      Represents f e' ∧ e'.consistent = ok ∧ e.Sheds e' := by
  induction vs generalizing table e with
  | nil => exact Yields.ok ⟨h, consistent, .refl e⟩
  | cons v vs ih =>
    unfold eliminateEach
    refine (tryEliminate_spec h consistent (thawed v (by simp)) problems learnts).bind ?_
    rintro ⟨ok, table', e'⟩ ⟨h', answer, sheds, problems', learnts'⟩
    cases ok with
    | false => exact Yields.pure ⟨h', answer, sheds⟩
    | true =>
      have thawed' : ∀ w ∈ vs, e'.isFrozen w = false := by
        intro w hw
        unfold isFrozen
        rw [sheds.frozen]
        exact thawed w (List.mem_cons_of_mem _ hw)
      refine (ih table' e' h' answer thawed' (problems' rfl) learnts').mono ?_
      rintro ⟨ok, e''⟩ ⟨h'', answer', sheds'⟩
      exact ⟨h'', answer', sheds.trans sheds'⟩

theorem thawed_of_candidate {table : Occurrences n} (candidate : v ∈ e.candidates table) :
    e.isFrozen v = false := by
  have mem := (StableSort.sort_perm _ _).mem_iff.1 candidate
  simp only [List.mem_filter, isCandidate, Bool.and_eq_true, Bool.not_eq_true'] at mem
  exact mem.2.1.1

/-- Trying all candidates keeps what the engine stands for; none of them is frozen. -/
theorem eliminateVars_spec (h : Represents f e) (consistent : e.consistent = true) :
    Yields e.eliminateVars fun (ok, e') =>
      Represents f e' ∧ e'.consistent = ok ∧ e.Sheds e' := by
  have wf := h.wellFormed.propagator.store
  exact eliminateEach_spec _ _ e h consistent (fun _ => thawed_of_candidate)
    (Occurrences.covers_ofStore wf false) (Occurrences.covers_ofStore wf true)

/-- Elimination keeps what the engine stands for and spares frozen variables. -/
theorem Represents.eliminate (h : Represents f e) (turnOff : Bool) :
    Yields (e.eliminate turnOff) fun (ok, e') =>
      Represents f e' ∧ e'.consistent = ok ∧ e.Sheds e' := by
  obtain ⟨⟨ok, e'⟩, simplified, h', answer, frame⟩ := h.simplify
  have sheds : e.Sheds e' := .of_marks_eq (by rw [frame]) (by rw [frame]) (by rw [frame])
    fun _ => h.fixes_of_simplify simplified
  unfold Engine.eliminate
  rw [simplified]
  cases ok with
  | false => exact Yields.ok ⟨h', answer, sheds⟩
  | true =>
    change Yields (if (!e'.eliminates) = true then _ else _) _
    split
    · exact Yields.ok ⟨h', answer, sheds⟩
    · refine (eliminateVars_spec h' answer).bind ?_
      rintro ⟨ok, e''⟩ ⟨h'', answer', sheds'⟩
      cases turnOff with
      | false => exact Yields.pure ⟨h'', answer', sheds.trans sheds'⟩
      | true =>
        refine Yields.pure ⟨h''.of_eq rfl h''.wellFormed.heap h''.wellFormed.clear rfl rfl, answer', ?_⟩
        exact (sheds.trans sheds').trans (.of_marks_eq rfl rfl rfl fun _ fixed => fixed)

end

end Engine

end IncrementalSat

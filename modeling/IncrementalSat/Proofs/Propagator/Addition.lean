import IncrementalSat.Proofs.Normalization
import IncrementalSat.Proofs.Propagator.Refinement

/-!
# What adding a clause does

At the root level, adding a clause has one of six outcomes. What the propagator says afterwards is
what it said before together with the clause, unless this is a contradiction.
-/
namespace IncrementalSat

/-! ## What remains of a clause -/

/-- The variable is allocated and the literal is false. -/
def Trail.Falsifies {n : Nat} (t : Trail n) (l : Literal Nat) : Prop :=
  ∃ m : Lit n, m.toLiteral = l ∧ t.eval m = some false

theorem Lit.lookup_of_lt {n : Nat} {l : Literal Nat} (h : l.var < n) :
    ∃ m : Lit n, lookup n l = .ok m ∧ m.toLiteral = l := by
  refine ⟨⟨⟨l.var, h⟩, l.positive⟩, ?_, rfl⟩
  simp [lookup, ofLiteral?, h]

/-- A clause of allocated variables has a true literal, or its unassigned literals remain. -/
theorem Trail.residue_spec {n : Nat} (t : Trail n) (ls : List (Literal Nat))
    (allocated : ∀ l ∈ ls, l.var < n) : Yields (t.residue ls) fun
      | none => ∃ m : Lit n, m.toLiteral ∈ ls ∧ t.eval m = some true
      | some rest => (rest.map Lit.toLiteral).Sublist ls ∧ (∀ m ∈ rest, t.eval m = none) ∧
        ∀ l ∈ ls, l ∈ rest.map Lit.toLiteral ∨ t.Falsifies l := by
  induction ls with
  | nil => exact Yields.ok ⟨.slnil, by simp, by simp⟩
  | cons l ls ih =>
    have ih := ih fun m hm => allocated m (List.mem_cons_of_mem _ hm)
    obtain ⟨m, found, same⟩ := Lit.lookup_of_lt (allocated l (by simp))
    rw [residue, found]
    dsimp only [bind, Except.bind]
    cases value : t.eval m with
    | none =>
      refine ih.bind ?_
      rintro (_ | rest) spec
      · obtain ⟨k, hk, holds⟩ := spec
        exact Yields.pure ⟨k, List.mem_cons_of_mem _ hk, holds⟩
      · obtain ⟨sub, fresh, others⟩ := spec
        refine Yields.pure ⟨?_, ?_, ?_⟩
        · rw [List.map_cons, same]
          exact sub.cons_cons l
        · intro k hk
          rcases List.mem_cons.1 hk with rfl | hk
          · exact value
          · exact fresh k hk
        · intro k hk
          rcases List.mem_cons.1 hk with rfl | hk
          · exact .inl (by simp [same])
          · rcases others k hk with mem | false
            · exact .inl (List.mem_cons_of_mem _ mem)
            · exact .inr false
    | some b =>
      cases b with
      | true => exact Yields.pure ⟨m, by simp [same], value⟩
      | false =>
        refine ih.mono ?_
        rintro (_ | rest) spec
        · obtain ⟨k, hk, holds⟩ := spec
          exact ⟨k, List.mem_cons_of_mem _ hk, holds⟩
        · obtain ⟨sub, fresh, others⟩ := spec
          refine ⟨sub.cons l, fresh, ?_⟩
          intro k hk
          rcases List.mem_cons.1 hk with rfl | hk
          · exact .inr ⟨m, same, value⟩
          · exact others k hk

namespace Propagator

variable {n : Nat} {p p' : Propagator n} {lits : List (Literal Nat)} {ok : Bool}

/-- What adding a clause can lead to. -/
inductive Addition (p : Propagator n) (lits : List (Literal Nat)) : Bool → Propagator n → Prop
  | refused (inconsistent : p.consistent = false) : Addition p lits false p
  | tautology (consistent : p.consistent = true) (opposite : ∃ l ∈ lits, l.neg ∈ lits) :
    Addition p lits true p
  | redundant (consistent : p.consistent = true) (l : Lit n) (mem : l.toLiteral ∈ lits)
      (holds : p.trail.eval l = some true) : Addition p lits true p
  | contradiction (consistent : p.consistent = true) (others : ∀ m ∈ lits, p.trail.Falsifies m) :
    Addition p lits false { p with consistent := false }
  | fact (consistent : p.consistent = true) (l : Lit n) (mem : l.toLiteral ∈ lits)
      (fresh : p.trail.eval l = none)
      (others : ∀ m ∈ lits, m = l.toLiteral ∨ p.trail.Falsifies m) (conflict : Option Nat)
      (p' : Propagator n) (propagated : (p.assign l .root).propagate = .ok (conflict, p')) :
    Addition p lits conflict.isNone { p' with consistent := conflict.isNone }
  | stored (consistent : p.consistent = true) (c : Clause n) (problem : c.learnt = false)
      (mem : ∀ m ∈ c.lits, m.toLiteral ∈ lits) (fresh : ∀ m ∈ c.lits, p.trail.eval m = none)
      (distinct : (c.lits.map (·.var)).Nodup)
      (others : ∀ m ∈ lits, m ∈ c.lits.map Lit.toLiteral ∨ p.trail.Falsifies m) :
    Addition p lits true (p.attach c)

/-! ## The outcomes are well-formed -/

/-- At level zero a clause over allocated variables can be added, in one of the ways above. -/
theorem addClause_spec (h : p.WellFormed) (root : p.trail.level = 0)
    (allocated : ∀ l ∈ lits, l.var < n) :
    Yields (p.addClause lits) fun (ok, p') => Addition p lits ok p' := by
  have mem : ∀ l, l ∈ Literal.normalize lits ↔ l ∈ lits := fun l => Literal.mem_normalize_iff
  unfold addClause requireRoot
  rw [if_pos root]
  change Yields (if (!p.consistent) = true then _ else _) _
  cases consistent : p.consistent with
  | false => exact Yields.ok (.refused consistent)
  | true =>
    cases apart : Literal.hasOppositeNeighbours (Literal.normalize lits) with
    | true =>
      obtain ⟨l, hl, opposite⟩ := Literal.opposite_of_neighbours apart
      exact Yields.ok (.tautology consistent ⟨l, (mem l).1 hl, (mem _).1 opposite⟩)
    | false =>
      have residue := p.trail.residue_spec (Literal.normalize lits)
        fun l hl => allocated l ((mem l).1 hl)
      refine residue.bind ?_
      rintro (_ | rest) spec
      · obtain ⟨m, hm, holds⟩ := spec
        exact Yields.pure (.redundant consistent m ((mem _).1 hm) holds)
      · obtain ⟨sub, fresh, others⟩ := spec
        have inside : ∀ m ∈ rest, m.toLiteral ∈ lits := fun m hm =>
          (mem _).1 (sub.mem (List.mem_map_of_mem hm))
        have outside : ∀ l ∈ lits, l ∈ rest.map Lit.toLiteral ∨ p.trail.Falsifies l :=
          fun l hl => others l ((mem l).2 hl)
        cases rest with
        | nil =>
          refine Yields.ok (.contradiction consistent fun l hl => ?_)
          exact (outside l hl).resolve_left (by simp)
        | cons l rest =>
          cases rest with
          | nil =>
            have wf := h.assign_root root (fresh l (by simp)) .root
            obtain ⟨⟨conflict, p'⟩, propagated, -⟩ := propagate_spec wf
            refine ⟨(conflict.isNone, { p' with consistent := conflict.isNone }), ?_, .fact consistent
              l (inside l (by simp)) (fresh l (by simp)) ?_ conflict p' propagated⟩
            · simp only [addResidue, addFact, propagated]
              rfl
            · intro m hm
              simpa using outside m hm
          | cons m rest =>
            have distinct : ((l :: m :: rest).map (·.var)).Nodup := by
              have nodup := Literal.nodup_var_of_sorted (Literal.sorted_normalize lits) apart
              have sublist := nodup.sublist (sub.map (·.var))
              rw [List.map_map] at sublist
              refine List.Nodup.of_map Fin.val ?_
              rw [List.map_map]
              exact sublist
            exact Yields.ok (.stored consistent
              { first := l, second := m, rest, learnt := false } rfl inside fresh distinct outside)

namespace Addition

/-- The answer says whether the propagator is consistent. -/
theorem consistent_eq (h : Addition p lits ok p') : p'.consistent = ok := by
  cases h with
  | refused inconsistent => exact inconsistent
  | tautology consistent => exact consistent
  | redundant consistent => exact consistent
  | contradiction => rfl
  | fact => rfl
  | stored consistent => exact consistent

/-- An inconsistent propagator refuses every clause. -/
theorem before (h : Addition p lits ok p') (answer : ok = true) : p.consistent = true := by
  cases h with
  | refused => cases answer
  | tautology consistent => exact consistent
  | redundant consistent => exact consistent
  | contradiction consistent => exact consistent
  | fact consistent => exact consistent
  | stored consistent => exact consistent

theorem wellFormed (h : Addition p lits ok p') (wf : p.WellFormed) (root : p.trail.level = 0) :
    p'.WellFormed ∧ p'.trail.level = 0 := by
  cases h with
  | refused | tautology | redundant => exact ⟨wf, root⟩
  | contradiction => exact ⟨wf.of_eq rfl rfl rfl rfl, root⟩
  | fact _ l _ fresh _ conflict p' propagated =>
    obtain ⟨step, wf', -⟩ := (propagate_spec (wf.assign_root root fresh .root)).of_eq propagated
    exact ⟨wf'.of_eq rfl rfl rfl rfl, step.level.trans root⟩
  | stored _ c _ _ fresh distinct =>
    refine ⟨wf.attach distinct ?_ ?_, root⟩
    · exact fresh c.first (by simp [Clause.lits])
    · exact fresh c.second (by simp [Clause.lits])

/-- Everything stays propagated. -/
theorem done (h : Addition p lits ok p') (wf : p.WellFormed) (root : p.trail.level = 0)
    (before : p.consistent = true → p.head = p.trail.size) (consistent : p'.consistent = true) :
    p'.head = p'.trail.size := by
  cases h with
  | refused | tautology | redundant => exact before consistent
  | contradiction => cases consistent
  | fact _ l _ fresh _ conflict p' propagated =>
    obtain ⟨-, -, rest⟩ := (propagate_spec (wf.assign_root root fresh .root)).of_eq propagated
    cases conflict with
    | none => exact rest
    | some i => cases consistent
  | stored consistent => exact before consistent

end Addition

/-! ## The outcomes say what they should -/

/-- What the trail falsifies at the root level is false in every model. -/
theorem not_holds_of_falsifies {σ : Valuation} (wf : p.WellFormed) (root : p.trail.level = 0)
    (facts : ∀ l, p.Fixes l → l.Holds σ) {l : Literal Nat} (false : p.trail.Falsifies l) :
    ¬ l.Holds σ := by
  obtain ⟨m, rfl, false⟩ := false
  have fixed := facts m.neg ((fixes_iff_of_root wf.trail root _).2
    ((Trail.eval_neg_eq_true_iff ..).2 false))
  rw [Lit.holds_toLiteral_iff]
  exact (Lit.holds_neg_iff σ m).1 fixed

/-- The propagator accounts for a clause that has opposite literals, or of which it secures some
literals. -/
def Accounts (p : Propagator n) (lits : List (Literal Nat)) : Prop :=
  (∃ l ∈ lits, l.neg ∈ lits) ∨ ∃ ls : List (Lit n), (∀ l ∈ ls, l.toLiteral ∈ lits) ∧ p.Secures ls

theorem Accounts.holds {σ : Valuation} (h : p.Accounts lits) (required : p.Requires σ) :
    Formula.ClauseHolds σ lits := by
  rcases h with opposite | ⟨ls, part, secured⟩
  · exact Literal.clauseHolds_of_opposite opposite σ
  · obtain ⟨l, hl, holds⟩ := secured.holds required
    exact ⟨l.toLiteral, part l hl, (Lit.holds_toLiteral_iff σ l).2 holds⟩

theorem Preserves.accounts (h : p.Preserves p') (account : p.Accounts lits) : p'.Accounts lits :=
  account.imp_right fun ⟨ls, part, secured⟩ => ⟨ls, part, h.secures secured⟩

namespace Addition

/-- What was said and the clause imply what is said then, and that there is no contradiction. -/
theorem sound {σ : Valuation} (h : Addition p lits ok p') (wf : p.WellFormed)
    (root : p.trail.level = 0) (valid : p.Valid σ) (holds : Formula.ClauseHolds σ lits) :
    p'.Valid σ ∧ (p.consistent = true → ok = true) := by
  obtain ⟨l, hl, true⟩ := holds
  have not_false : ¬ p.trail.Falsifies l := fun false =>
    not_holds_of_falsifies wf root valid.facts false true
  cases h with
  | refused inconsistent => exact ⟨valid, fun consistent => by simp_all⟩
  | tautology | redundant => exact ⟨valid, fun _ => rfl⟩
  | contradiction _ others => exact absurd (others l hl) not_false
  | fact _ m mem fresh others conflict p' propagated =>
    have wf' := wf.assign_root root fresh .root
    obtain ⟨step, wf'', rest⟩ := (propagate_spec wf').of_eq propagated
    have same : l = m.toLiteral := (others l hl).resolve_right not_false
    have assigned : (p.assign m .root).Valid σ := by
      refine ⟨valid.clauses, fun k hk => ?_⟩
      rcases (fixes_assign_root_iff wf root fresh .root k).1 hk with rfl | old
      · rwa [same, Lit.holds_toLiteral_iff] at true
      · exact valid.facts k old
    have valid' := (Refines.of_extends step wf'.trail wf''.trail).sound σ assigned
    refine ⟨⟨valid'.clauses, valid'.facts⟩, fun _ => ?_⟩
    cases conflict with
    | none => rfl
    | some i =>
      obtain ⟨c, hc, conflicting⟩ := rest
      exact absurd valid' (conflicting.not_valid wf''.trail (step.level.trans root) hc)
  | stored _ c _ _ _ _ others =>
    refine ⟨⟨?_, valid.facts⟩, fun _ => rfl⟩
    intro i d hd
    rcases (p.store.has_push_iff c i d).1 hd with old | ⟨-, rfl⟩
    · exact valid.clauses i d old
    · obtain ⟨m, hm, same⟩ := List.mem_map.1 ((others l hl).resolve_right not_false)
      exact ⟨m, hm, by rwa [← same, Lit.holds_toLiteral_iff] at true⟩

/-- Nothing is lost, whatever the outcome. -/
theorem preserves (h : Addition p lits ok p') (wf : p.WellFormed) (root : p.trail.level = 0) :
    p.Preserves p' := by
  cases h with
  | refused | tautology | redundant => exact .refl p
  | contradiction => exact ⟨(Preserves.refl p).clauses, fun _ fixed => fixed⟩
  | fact _ l _ fresh _ conflict p' propagated =>
    have wf' := wf.assign_root root fresh .root
    obtain ⟨step, wf'', -⟩ := (propagate_spec wf').of_eq propagated
    have kept := (Refines.of_extends step wf'.trail wf''.trail).preserves
    have fixes := fixes_assign_root_iff wf root fresh .root
    exact ⟨kept.clauses, fun m hm => kept.facts m ((fixes m).2 (.inr hm))⟩
  | stored _ c =>
    refine ⟨fun i d hd kind => ?_, fun _ hm => hm⟩
    exact .of_has ((p.store.has_push_iff c i d).2 (.inl hd)) kind fun _ hl => hl

/-- A clause that was added is accounted for, unless all of its literals were false for good. -/
theorem accounts (h : Addition p lits ok p') (wf : p.WellFormed) (root : p.trail.level = 0)
    (consistent : p.consistent = true) (met : ok = true ∨ ∃ l ∈ lits, ¬ p.trail.Falsifies l) :
    p'.Accounts lits := by
  cases h with
  | refused inconsistent =>
    rw [consistent] at inconsistent
    cases inconsistent
  | tautology _ opposite => exact .inl opposite
  | redundant _ l mem holds =>
    have fixed := (fixes_iff_of_root wf.trail root l).2 holds
    exact .inr ⟨[l], by simpa using mem, .inl ⟨l, by simp, fixed⟩⟩
  | contradiction _ others =>
    obtain ⟨l, hl, kept⟩ := met.resolve_left Bool.false_ne_true
    exact absurd (others l hl) kept
  | fact _ l mem fresh _ conflict p' propagated =>
    have wf' := wf.assign_root root fresh .root
    obtain ⟨step, wf'', -⟩ := (propagate_spec wf').of_eq propagated
    have fixed : p'.Fixes l := (Refines.of_extends step wf'.trail wf''.trail).preserves.facts l
      ((fixes_assign_root_iff wf root fresh .root l).2 (.inl rfl))
    exact .inr ⟨[l], by simpa using mem, .inl ⟨l, by simp, fixed⟩⟩
  | stored _ c problem mem =>
    have has : (p.attach c).store.Has p.store.size c :=
      (p.store.has_push_iff c _ c).2 (.inr ⟨rfl, rfl⟩)
    exact .inr ⟨c.lits, mem, .of_has has problem fun _ hl => hl⟩

/-- Models have to satisfy what they had to, and the clause. -/
theorem complete {σ : Valuation} (h : Addition p lits true p') (wf : p.WellFormed)
    (root : p.trail.level = 0) (required : p'.Requires σ) :
    p.Requires σ ∧ Formula.ClauseHolds σ lits :=
  ⟨(h.preserves wf root).requires required,
    (h.accounts wf root (h.before rfl) (.inl rfl)).holds required⟩

/-- Only the variables of the clause can be new. -/
theorem occurs (h : Addition p lits ok p') (wf : p.WellFormed) (root : p.trail.level = 0)
    {v : Fin n} (occurs : p'.Occurs v) : p.Occurs v ∨ ∃ l ∈ lits, l.var = v := by
  cases h with
  | refused | tautology | redundant => exact .inl occurs
  | contradiction => exact .inl occurs
  | fact _ l mem fresh _ conflict p' propagated =>
    have wf' := wf.assign_root root fresh .root
    obtain ⟨step, wf'', -⟩ := (propagate_spec wf').of_eq propagated
    have assigned := (Refines.of_extends step wf'.trail wf''.trail).occurs v occurs
    rcases assigned with old | ⟨m, hm, same⟩
    · exact .inl (.inl old)
    · rcases (fixes_assign_root_iff wf root fresh .root m).1 hm with rfl | old
      · exact .inr ⟨m.toLiteral, mem, congrArg Fin.val same⟩
      · exact .inl (.inr ⟨m, old, same⟩)
  | stored _ c _ mem =>
    rcases occurs with ⟨i, d, hd, l, hl, same⟩ | fixed
    · rcases (p.store.has_push_iff c i d).1 hd with old | ⟨-, rfl⟩
      · exact .inl (.inl ⟨i, d, old, l, hl, same⟩)
      · exact .inr ⟨l.toLiteral, mem l hl, congrArg Fin.val same⟩
    · exact .inl (.inr fixed)

end Addition

end Propagator

end IncrementalSat

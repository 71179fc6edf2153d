import IncrementalSat.Proofs.Elimination.Variables

/-!
# The course of an elimination

Candidates are tried one after the other, each in the engine that the earlier ones left. Where one is
eliminated, its clauses are removed first, and the resolvents are added one by one to what is left.
Each engine on the way stands for the formula, and each propagator is well-formed.
-/
namespace IncrementalSat

variable {n : Nat}

namespace Propagator

variable {p p' q : Propagator n} {r : List (Lit n)} {rs : List (List (Lit n))}

/-- While the clauses are added one after the other, the clause `r` comes to be added to `q`. -/
inductive Supplies : Propagator n → List (List (Lit n)) → List (Lit n) → Propagator n → Prop
  | first {r : List (Lit n)} {rs : List (List (Lit n))} {p : Propagator n} : Supplies p (r :: rs) r p
  | later {r r' : List (Lit n)} {rs : List (List (Lit n))} {p p' q : Propagator n}
      (added : p.addClause (r.map Lit.toLiteral) = .ok (true, p')) (rest : Supplies p' rs r' q) :
      Supplies p (r :: rs) r' q

theorem length_of_fetchAll {is : List Nat} {cs : List (List (Lit n))}
    (fetched : p.fetchAll is = .ok cs) : cs.length = is.length := by
  induction is generalizing cs with
  | nil =>
    cases fetched
    rfl
  | cons i is ih =>
    obtain ⟨c, -, others⟩ := bind_eq_ok_iff.1 fetched
    obtain ⟨ds, rest, result⟩ := bind_eq_ok_iff.1 others
    cases result
    exact congrArg (· + 1) (ih rest)

theorem Supplies.wellFormed (supplies : p.Supplies rs r q) (h : p.WellFormed)
    (root : p.trail.level = 0) : q.WellFormed ∧ q.trail.level = 0 := by
  induction supplies with
  | first => exact ⟨h, root⟩
  | later added _ ih =>
    have step := (addClause_spec h root fun _ => Lit.var_lt_of_mem_map).of_eq added
    obtain ⟨h', root'⟩ := step.wellFormed h root
    exact ih h' root'

end Propagator

namespace Engine

variable {e e' : Engine n} {f : Formula} {v w : Fin n} {vs : List (Fin n)}
  {table table' learntTable : Occurrences n}

/-! ## From candidate to candidate -/

/-- While the candidates `vs` are tried one after the other, `v` comes to be tried in `e'`. -/
inductive Tries (learntTable : Occurrences n) : List (Fin n) → Occurrences n → Engine n →
    Fin n → Occurrences n → Engine n → Prop
  | first {v : Fin n} {vs : List (Fin n)} {table : Occurrences n} {e : Engine n} :
      Tries learntTable (v :: vs) table e v table e
  | later {v w : Fin n} {vs : List (Fin n)} {table table₁ table₂ : Occurrences n}
      {e e₁ e₂ : Engine n} (tried : e.tryEliminate v table learntTable = .ok (true, table₁, e₁))
      (rest : Tries learntTable vs table₁ e₁ w table₂ e₂) :
      Tries learntTable (v :: vs) table e w table₂ e₂

/-- What holds whenever a candidate is tried. -/
structure Trying (f : Formula) (learntTable table : Occurrences n) (v : Fin n) (e : Engine n) :
    Prop where
  represents : Represents f e
  consistent : e.consistent = true
  thawed : e.isFrozen v = false
  problems : table.Covers e.store false
  learnts : learntTable.Covers e.store true

theorem Tries.trying (tries : Tries learntTable vs table e v table' e') (h : Represents f e)
    (consistent : e.consistent = true) (thawed : ∀ w ∈ vs, e.isFrozen w = false)
    (problems : table.Covers e.store false) (learnts : learntTable.Covers e.store true) :
    Trying f learntTable table' v e' := by
  induction tries with
  | first => exact ⟨h, consistent, thawed _ List.mem_cons_self, problems, learnts⟩
  | later tried _ ih =>
    obtain ⟨h', answer, sheds, problems', learnts'⟩ :=
      (tryEliminate_spec h consistent (thawed _ List.mem_cons_self) problems learnts).of_eq tried
    refine ih h' answer (fun w hw => ?_) (problems' rfl) learnts'
    unfold isFrozen
    rw [sheds.frozen]
    exact thawed w (List.mem_cons_of_mem _ hw)

/-! ## One elimination -/

/-- The variable is being eliminated: of its problem clauses, the positive ones are `as` and the
negative ones `bs`. They and the learnt clauses on the variable were removed, which left `p`, and the
resolvents `rs` are still to be added. -/
structure GivesWay (e : Engine n) (v : Fin n) (table learntTable : Occurrences n)
    (as bs rs : List (List (Lit n))) (p : Propagator n) : Prop where
  unset : e.trail.valueOf v = none
  removed : ∃ is js, table.lookUp e.store ⟨v, true⟩ = .ok is ∧
    table.lookUp e.store ⟨v, false⟩ = .ok js ∧ e.fetchAll is = .ok as ∧ e.fetchAll js = .ok bs ∧
    ∃ q ks ls, e.toPropagator.removeAll (is ++ js) = .ok q ∧
      learntTable.lookUp q.store ⟨v, true⟩ = .ok ks ∧
      learntTable.lookUp q.store ⟨v, false⟩ = .ok ls ∧ q.removeAll (ks ++ ls) = .ok p
  occurring : as.length + bs.length ≠ 0
  few : as.length + bs.length ≤ e.config.occurrenceLimit
  resolved : Elimination.resolvents? v (as.length + bs.length) e.config.resolventLimit []
    (as.flatMap fun a => bs.map fun b => (a, b)) = some rs

/-- A candidate that is tried stays, or gives way to its resolvents. -/
theorem givesWay_of_tryEliminate {ok : Bool}
    (tried : e.tryEliminate v table learntTable = .ok (ok, table', e')) :
    (ok = true ∧ table' = table ∧ e' = e) ∨ ∃ as bs rs p p',
      e.GivesWay v table learntTable as bs rs p ∧
        p.addResolvents rs table = .ok (ok, table', p') ∧
        e' = { e with toPropagator := p' }.recordElimination v (as ++ bs) := by
  unfold tryEliminate at tried
  split at tried
  · cases tried
    exact .inl ⟨rfl, rfl, rfl⟩
  · next unset =>
    obtain ⟨is, positive, tried⟩ := bind_eq_ok_iff.1 tried
    obtain ⟨js, negative, tried⟩ := bind_eq_ok_iff.1 tried
    dsimp only at tried
    split at tried
    · cases tried
      exact .inl ⟨rfl, rfl, rfl⟩
    · next within =>
      obtain ⟨occurring, few⟩ := not_or.1 within
      obtain ⟨as, fetched, tried⟩ := bind_eq_ok_iff.1 tried
      obtain ⟨bs, fetched', tried⟩ := bind_eq_ok_iff.1 tried
      have count : as.length + bs.length = is.length + js.length := by
        rw [Propagator.length_of_fetchAll fetched, Propagator.length_of_fetchAll fetched']
      split at tried
      · cases tried
        exact .inl ⟨rfl, rfl, rfl⟩
      · next rs resolved =>
        obtain ⟨q, removed, tried⟩ := bind_eq_ok_iff.1 tried
        obtain ⟨ks, positive', tried⟩ := bind_eq_ok_iff.1 tried
        obtain ⟨ls, negative', tried⟩ := bind_eq_ok_iff.1 tried
        obtain ⟨p, removed', tried⟩ := bind_eq_ok_iff.1 tried
        obtain ⟨⟨ok, table', p'⟩, added, result⟩ := bind_eq_ok_iff.1 tried
        cases result
        rw [← count] at occurring few resolved
        exact .inr ⟨as, bs, rs, p, p', ⟨by simpa using unset, ⟨is, js, positive, negative, fetched,
          fetched', q, ks, ls, removed, positive', negative', removed'⟩, occurring,
          Nat.not_lt.1 few, resolved⟩, added, rfl⟩

/-- What is left then is all that does not mention the variable. -/
theorem GivesWay.purged {as bs rs : List (List (Lit n))} {p : Propagator n}
    (gives : e.GivesWay v table learntTable as bs rs p) (h : Trying f learntTable table v e) :
    e.toPropagator.Purged v p := by
  have wf := h.represents.wellFormed.propagator
  obtain ⟨is, js, positive, negative, -, -, q, ks, ls, removed, positive', negative', removed'⟩ :=
    gives.removed
  rw [h.problems.lookUp] at positive negative
  cases positive
  cases negative
  have first :=
    (Propagator.removeAll_liveAt wf h.represents.root h.problems v).of_eq removed
  have learnts := h.learnts.without first.size fun i d hd => ((first.has i d).1 hd).2
  have root : q.trail.level = 0 := by rw [first.frame]; exact h.represents.root
  rw [learnts.lookUp] at positive' negative'
  cases positive'
  cases negative'
  have second := (Propagator.removeAll_liveAt first.wellFormed root learnts v).of_eq removed'
  exact Propagator.purged_of_without h.problems learnts first second

/-! ## The whole elimination -/

/-- While variables are eliminated, the resolvent `r` comes to be added to `q`. -/
inductive Resolves (e : Engine n) (r : List (Lit n)) (q : Propagator n) : Prop
  | of {e₁ e₂ : Engine n} {v : Fin n} {table : Occurrences n} {as bs rs : List (List (Lit n))}
      {p : Propagator n} (simplified : e.simplify = .ok (true, e₁)) (on : e₁.eliminates = true)
      (tries : Tries (.ofStore e₁.store true) (e₁.candidates (.ofStore e₁.store false))
        (.ofStore e₁.store false) e₁ v table e₂)
      (gives : e₂.GivesWay v table (.ofStore e₁.store true) as bs rs p)
      (supplies : p.Supplies rs r q)

/-- The occurrence tables that an elimination starts with list the clauses of the simplified engine. -/
theorem Represents.trying (h : Represents f e) {e₁ e₂ : Engine n}
    (simplified : e.simplify = .ok (true, e₁))
    (tries : Tries (.ofStore e₁.store true) (e₁.candidates (.ofStore e₁.store false))
      (.ofStore e₁.store false) e₁ v table e₂) :
    Trying f (.ofStore e₁.store true) table v e₂ := by
  obtain ⟨h₁, answer, -⟩ := h.simplify.of_eq simplified
  have wf := h₁.wellFormed.propagator.store
  exact tries.trying h₁ answer (fun _ => thawed_of_candidate) (Occurrences.covers_ofStore wf false)
    (Occurrences.covers_ofStore wf true)

theorem Represents.resolves (h : Represents f e) {r : List (Lit n)} {q : Propagator n}
    (resolves : e.Resolves r q) : q.WellFormed ∧ q.trail.level = 0 := by
  obtain ⟨simplified, -, tries, gives, supplies⟩ := resolves
  have trying := h.trying simplified tries
  have purged := gives.purged trying
  refine supplies.wellFormed purged.wellFormed ?_
  rw [purged.frame]
  exact trying.represents.root

end Engine

end IncrementalSat

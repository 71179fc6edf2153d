import IncrementalSat.Proofs.Engine.Growth
import IncrementalSat.Proofs.Engine.PartialModels
import IncrementalSat.Proofs.Engine.Projection
import IncrementalSat.Proofs.Engine.Retention

/-!
# Elimination is quantification

What an engine states after an elimination is what it stated before, with the eliminated variables
quantified away: a valuation satisfies it if some valuation that differs on those variables at most
satisfied what was stated before. Undoing the eliminations on a model inverts this. The model then
satisfies all clauses that were ever removed, since they follow from the formula: when a clause was
removed it was stored, and what is stored follows from the formula.
-/
namespace IncrementalSat

variable {n : Nat}

namespace Engine

variable {e e' : Engine n} {f : Formula} {as : List (Literal Nat)} {ok sat : Bool} {σ τ : Valuation}

/-- Some literal of the clause is true in the model. -/
def Satisfies (model : Vector Truth n) (c : List (Lit n)) : Prop :=
  ∃ l ∈ c, Elimination.holdsIn model l = true

/-- The valuations differ at most on variables that the second engine eliminated and the first did
not. -/
def AgreeButOnNew (e e' : Engine n) (σ τ : Valuation) : Prop :=
  ∀ k, τ k ≠ σ k → ∃ v : Fin n, v.val = k ∧ e.isEliminated v = false ∧ e'.isEliminated v = true

/-- The second engine is the first with variables quantified away, if the answer is yes. Otherwise
nothing satisfies what the first one states. -/
structure Quantifies (e : Engine n) (ok : Bool) (e' : Engine n) : Prop where
  projects : ok = true → ∀ σ, (∀ c ∈ e'.stated, Lit.AnyHolds σ c) ↔
    ∃ τ, e.AgreeButOnNew e' σ τ ∧ ∀ c ∈ e.stated, Lit.AnyHolds τ c
  refutes : ok = false → ∀ σ, ¬ ∀ c ∈ e.stated, Lit.AnyHolds σ c
  completes : ok = true → ∀ model : Vector Truth n, (∀ v, model.get v ≠ .unset) →
    (∀ c ∈ e'.stated, Satisfies model c) →
      (∀ v, e'.isEliminated v = false → (e'.extend model).get v = model.get v) ∧
      (∀ c ∈ e'.stated, Satisfies (e'.extend model) c) ∧
      ∀ x ∈ e'.eliminations, ∀ c ∈ x.clauses, Satisfies (e'.extend model) c

/-! ## The removed clauses -/

/-- The clauses that were removed with variables follow from the formula. -/
def Derives (f : Formula) (e : Engine n) : Prop :=
  ∀ σ, f.Holds σ → ∀ x ∈ e.eliminations, ∀ c ∈ x.clauses, Lit.AnyHolds σ c

theorem Derives.of_eliminations_eq (h : Derives f e) (same : e'.eliminations = e.eliminations) :
    Derives f e' := by
  unfold Derives
  rwa [same]

theorem Derives.mono {g : Formula} (h : Derives f e) (sub : ∀ c ∈ f, c ∈ g) : Derives g e :=
  fun σ holds => h σ fun c hc => holds c (sub c hc)

theorem Derives.grow {e' : Engine (n + 1)} {decision : Bool} (h : Derives f e)
    (grown : Grown e decision e') : Derives f e' := by
  intro σ holds
  rw [grown.eliminations]
  refine List.forall_mem_map.2 fun x hx => List.forall_mem_map.2 fun c hc => ?_
  exact (Lit.anyHolds_grow_iff σ c).2 (h σ holds x hx c hc)

section

variable {v : Fin n} {table table' learntTable : Occurrences n}

theorem Represents.derives_of_tryEliminate (h : Represents f e) (derived : Derives f e)
    (tried : e.tryEliminate v table learntTable = .ok (ok, table', e')) : Derives f e' := by
  obtain ⟨-, ⟨same, -⟩ | ⟨x, added, stored⟩⟩ := eliminations_of_tryEliminate tried
  · exact derived.of_eliminations_eq same
  · intro σ holds
    rw [added]
    refine List.forall_mem_cons.2 ⟨fun c hc => ?_, derived σ holds⟩
    obtain ⟨i, d, hd, rfl⟩ := stored c hc
    exact (h.sound σ holds).clauses i d hd

/-- The table has to be kept right along the way, as in `eliminateEach_spec`. -/
theorem Represents.derives_of_eliminateEach {vs : List (Fin n)} (h : Represents f e)
    (consistent : e.consistent = true) (thawed : ∀ v ∈ vs, e.isFrozen v = false)
    (problems : table.Covers e.store false) (learnts : learntTable.Covers e.store true)
    (derived : Derives f e) (tried : eliminateEach learntTable vs table e = .ok (ok, e')) :
    Derives f e' := by
  induction vs generalizing table e with
  | nil =>
    cases tried
    exact derived
  | cons v vs ih =>
    unfold eliminateEach at tried
    obtain ⟨⟨ok₁, table₁, e₁⟩, first, rest⟩ := bind_eq_ok_iff.1 tried
    obtain ⟨h₁, answer, sheds, problems₁, learnts₁⟩ :=
      (tryEliminate_spec h consistent (thawed v (by simp)) problems learnts).of_eq first
    have derived₁ := h.derives_of_tryEliminate derived first
    cases ok₁ with
    | false =>
      cases rest
      exact derived₁
    | true =>
      have thawed₁ : ∀ w ∈ vs, e₁.isFrozen w = false := by
        intro w hw
        unfold isFrozen
        rw [sheds.frozen]
        exact thawed w (List.mem_cons_of_mem _ hw)
      exact ih h₁ answer thawed₁ (problems₁ rfl) learnts₁ derived₁ rest

end

namespace Represents

variable (h : Represents f e) (derived : Derives f e)

include h derived

theorem derives_of_eliminate {turnOff : Bool} (eliminated : e.eliminate turnOff = .ok (ok, e')) :
    Derives f e' := by
  unfold Engine.eliminate at eliminated
  obtain ⟨⟨ok₁, e₁⟩, simplified, rest⟩ := bind_eq_ok_iff.1 eliminated
  obtain ⟨h₁, answer, frame⟩ := h.simplify.of_eq simplified
  have derived₁ : Derives f e₁ := derived.of_eliminations_eq (by rw [frame])
  cases ok₁ with
  | false =>
    cases rest
    exact derived₁
  | true =>
    change (if (!e₁.eliminates) = true then _ else _) = _ at rest
    split at rest
    · cases rest
      exact derived₁
    · obtain ⟨⟨ok₂, e₂⟩, each, result⟩ := bind_eq_ok_iff.1 rest
      have wf := h₁.wellFormed.propagator.store
      have derived₂ : Derives f e₂ := h₁.derives_of_eliminateEach answer
        (fun _ => thawed_of_candidate) (Occurrences.covers_ofStore wf false)
        (Occurrences.covers_ofStore wf true) derived₁ each
      cases turnOff <;> (cases result; exact derived₂.of_eliminations_eq rfl)

theorem derives_of_eliminateUnder (allocated : ∀ a ∈ as, a.var < n) {turnOff : Bool}
    (eliminated : e.eliminateUnder as turnOff = .ok (ok, e')) : Derives f e' := by
  unfold eliminateUnder at eliminated
  obtain ⟨⟨vs, e₁⟩, froze, rest⟩ := bind_eq_ok_iff.1 eliminated
  obtain ⟨⟨ok₂, e₂⟩, inner, result⟩ := bind_eq_ok_iff.1 rest
  obtain ⟨before, -⟩ := (freezeAll_spec as e allocated).of_eq froze
  have derived₁ : Derives f e₁ := derived.of_eliminations_eq before.retains.1.eliminations
  have derived₂ := (before.represents h).derives_of_eliminate derived₁ inner
  cases result
  exact derived₂.of_eliminations_eq (refrozen_unfreezeAll vs e₂).retains.1.eliminations

theorem derives_of_solve (allocated : ∀ a ∈ as, a.var < n) {simplify turnOff : Bool}
    (solved : e.solve as simplify turnOff = .ok (sat, e')) : Derives f e' := by
  cases consistent : e.consistent with
  | false =>
    rw [solve_of_contradicted consistent] at solved
    cases solved
    exact derived.of_eliminations_eq rfl
  | true =>
    obtain ⟨ready, e₁, prepared, h₁, answer, searched⟩ :=
      h.exists_of_solve consistent allocated solved
    obtain ⟨e₂, inner, rfl⟩ := exists_of_prepare prepared
    have derived₂ : Derives f e₂ := by
      rcases inner with rfl | inner
      · exact derived.of_eliminations_eq rfl
      · exact h.clearModel.derives_of_eliminateUnder (derived.of_eliminations_eq rfl) allocated inner
    have derived₁ : Derives f (if turnOff then e₂.stopEliminating else e₂) := by
      cases turnOff <;> exact derived₂.of_eliminations_eq rfl
    exact derived₁.of_eliminations_eq
      (retains_of_searchPrepared h₁ answer allocated searched).1.eliminations

end Represents

/-! ## Two engines that stand for the same formula -/

/-- The valuation that a model without unset variables is. -/
def valuationOf (model : Vector Truth n) : Valuation := fun k =>
  if h : k < n then (model.get ⟨k, h⟩).isHolds else false

theorem agrees_valuationOf {model : Vector Truth n} (total : ∀ v, model.get v ≠ .unset)
    (v : Fin n) : Elimination.Agrees model (valuationOf model) v := by
  have eq : valuationOf model v = (model.get v).isHolds := dif_pos v.isLt
  unfold Elimination.Agrees
  rw [eq]
  have set := total v
  cases value : model.get v with
  | unset => exact absurd value set
  | holds => rfl
  | fails => rfl

theorem satisfies_iff {model : Vector Truth n} (agrees : ∀ v, Elimination.Agrees model σ v)
    (c : List (Lit n)) : Satisfies model c ↔ Lit.AnyHolds σ c :=
  exists_congr fun l => and_congr_right fun _ => (agrees l.var).holdsIn_iff

/-- Undoing the eliminations on a total model undoes them on its valuation. -/
theorem Hygienic.agrees_extend_valuationOf (h : e.Hygienic) {model : Vector Truth n}
    (total : ∀ v, model.get v ≠ .unset) (v : Fin n) :
    Elimination.Agrees (e.extend model) (e.restore (valuationOf model)) v :=
  Elimination.agrees_foldl_undo e.eliminations model _ h.ordered
    (fun w _ => agrees_valuationOf total w) v

namespace Represents

theorem stated_iff (h : Represents f e) : e.Requires σ ↔ ∀ c ∈ e.stated, Lit.AnyHolds σ c :=
  Propagator.requires_iff h.wellFormed.propagator.trail h.root

theorem requires_of_holds (h : Represents f e) (holds : f.Holds σ) : e.Requires σ := by
  have valid := h.sound σ holds
  exact ⟨fun i c hc _ => valid.clauses i c hc, valid.facts⟩

section

variable (h : Represents f e) (h' : Represents f e')
  (more : ∀ v : Fin n, e.isEliminated v = true → e'.isEliminated v = true)

include h h'

/-- The values of the newly eliminated variables are those that undoing the eliminations gives. -/
theorem exists_requires_of_requires (consistent : e'.consistent = true) (required : e'.Requires σ) :
    ∃ τ, e.AgreeButOnNew e' σ τ ∧ e.Requires τ := by
  classical
  let isNew : Nat → Prop := fun k =>
    ∃ v : Fin n, v.val = k ∧ e.isEliminated v = false ∧ e'.isEliminated v = true
  refine ⟨fun k => if isNew k then e'.restore σ k else σ k, ?_, ?_⟩
  · intro k different
    by_contra old
    exact different (if_neg old)
  · refine h.hygienic.requires_of_agree (τ := e'.restore σ) ?_
      (h.requires_of_holds (h'.covers consistent σ required))
    intro k kept
    by_cases new : isNew k
    · exact (if_pos new).symm
    · refine Eq.trans (h'.hygienic.agree_restore σ k fun v gone same => ?_) (if_neg new).symm
      cases before : e.isEliminated v with
      | true => exact kept v before same
      | false => exact new ⟨v, same, before, gone⟩

include more

/-- What was required before holds once the earlier eliminations are undone, and what is required
now says nothing about eliminated variables. -/
theorem requires_of_agreeButOnNew (consistent : e.consistent = true) (required : e.Requires τ)
    (agree : e.AgreeButOnNew e' σ τ) : e'.Requires σ := by
  refine h'.hygienic.requires_of_agree (τ := e.restore τ) ?_
    (h'.requires_of_holds (h.covers consistent τ required))
  intro k kept
  have same : e.restore τ k = τ k :=
    h.hygienic.agree_restore τ k fun v gone => kept v (more v gone)
  rw [same]
  by_contra different
  obtain ⟨v, rfl, -, gone⟩ := agree k different
  exact kept v gone rfl

/-- If two engines stand for the same formula, and the second one has eliminated more variables,
then it is the first one with those quantified away. -/
theorem quantifies (consistent : e.consistent = true) (answer : e'.consistent = ok)
    (derived : Derives f e') : e.Quantifies ok e' where
  projects := by
    intro fine σ
    rw [← h'.stated_iff]
    constructor
    · intro required
      obtain ⟨τ, agree, before⟩ := h.exists_requires_of_requires h' (answer.trans fine) required
      exact ⟨τ, agree, h.stated_iff.1 before⟩
    · rintro ⟨τ, agree, before⟩
      exact h.requires_of_agreeButOnNew h' more consistent (h.stated_iff.2 before) agree
  refutes := by
    intro failed σ stated
    exact h'.refuted (answer.trans failed) _ (h.covers consistent σ (h.stated_iff.2 stated))
  completes := by
    intro fine model total satisfied
    have agrees := h'.hygienic.agrees_extend_valuationOf total
    have required : e'.Requires (valuationOf model) := h'.stated_iff.2 fun c hc =>
      (satisfies_iff (agrees_valuationOf total) c).1 (satisfied c hc)
    have holds := h'.covers (answer.trans fine) _ required
    have stated := h'.stated_iff.1 (h'.requires_of_holds holds)
    refine ⟨fun v kept => ?_, fun c hc => (satisfies_iff agrees c).2 (stated c hc),
      fun x hx c hc => (satisfies_iff agrees c).2 (derived _ holds x hx c hc)⟩
    refine Elimination.get_foldl_undo_of_ne e'.eliminations model fun x hx same => ?_
    have gone := (h'.hygienic.marked v).2 ⟨x, hx, same⟩
    rw [kept] at gone
    cases gone

end

/-- An elimination always answers, and its answer is right. -/
theorem quantifies_of_eliminate (h : Represents f e) (consistent : e.consistent = true)
    (derived : Derives f e) (turnOff : Bool) :
    ∃ ok e', e.eliminate turnOff = .ok (ok, e') ∧ e.Quantifies ok e' := by
  obtain ⟨⟨ok, e'⟩, eliminated, h', answer, sheds⟩ := h.eliminate turnOff
  exact ⟨ok, e', eliminated, h.quantifies h' sheds.more consistent answer
    (h.derives_of_eliminate derived eliminated)⟩

/-- So is that of an elimination that a solve starts with, while assumptions are frozen. -/
theorem quantifies_of_eliminateUnder (h : Represents f e) (consistent : e.consistent = true)
    (derived : Derives f e) (allocated : ∀ a ∈ as, a.var < n) (turnOff : Bool) :
    ∃ ok e', eliminateUnder { e with model := #[] } as turnOff = .ok (ok, e') ∧
      e.Quantifies ok e' := by
  have cleared := h.clearModel
  obtain ⟨⟨ok, e'⟩, eliminated, h', answer, prepared⟩ :=
    eliminateUnder_spec cleared allocated turnOff
  exact ⟨ok, e', eliminated, h.quantifies h' prepared.more consistent answer
    (cleared.derives_of_eliminateUnder (derived.of_eliminations_eq rfl) allocated eliminated)⟩

end Represents

end Engine

end IncrementalSat

import IncrementalSat.Proofs.Service.Calls
import IncrementalSat.Proofs.Session.Preservation
import IncrementalSat.Proofs.Session.Effect

/-!
# Sessions that do not meet

A service is asked to create sessions and to answer calls, in any order, on any words taken for
handles. From the creation of a session to its destruction, the calls on its handle are answered as
the session would answer them alone, whatever is asked of other handles in between. A call on a
handle that was not created or was destroyed since is rejected without an effect on any session.

This holds also if generations run out and a handle is created again: what was asked of it before
then belongs to the session it led to before.
-/
namespace IncrementalSat

namespace Service

/-- What can be asked of a service. -/
inductive Request where
  | create (config : Config)
  | call (h : Handle) (c : Call)

inductive Response where
  /-- The handle of a new session, zero if there is none. -/
  | created (h : Handle)
  | replied (reply : Reply)
  deriving DecidableEq, Repr

def serve (m : Service) : Request → Checked (Response × Service)
  | .create config => .ok (.created (m.create config).1, (m.create config).2)
  | .call h c => (m.call h c).map fun (reply, m) => (.replied reply, m)

/-- Requests with their responses, in the order in which they are made. -/
abbrev Dialogue := List (Request × Response)

/-- Serves requests one after the other. -/
def serveAll (m : Service) : List Request → Checked (Dialogue × Service)
  | [] => .ok ([], m)
  | request :: requests => do
    let (response, m) ← m.serve request
    let (dialogue, m) ← m.serveAll requests
    pure ((request, response) :: dialogue, m)

/-- The calls on a handle and the replies to them, until it is destroyed. -/
def exchanges (h : Handle) : Dialogue → List (Call × Reply)
  | [] => []
  | (.call k c, .replied reply) :: dialogue =>
    if k = h then if c = .destroy then [] else (c, reply) :: exchanges h dialogue
    else exchanges h dialogue
  | _ :: dialogue => exchanges h dialogue

/-- The handle was not destroyed. -/
def Kept (dialogue : Dialogue) (h : Handle) : Prop :=
  ∀ response, (.call h .destroy, response) ∉ dialogue

/-- The handle was created and not destroyed since. -/
def Live (dialogue : Dialogue) (h : Handle) : Prop :=
  h ≠ 0 ∧ ∃ before config after,
    dialogue = before ++ (.create config, .created h) :: after ∧ Kept after h

variable {m m' : Service} {h k : Handle} {s s' : Session} {c : Call} {reply : Reply}
  {request : Request} {response : Response} {requests : List Request} {dialogue : Dialogue}

theorem exchanges_of_other (other : ∀ c, request ≠ .call h c) (response : Response)
    (dialogue : Dialogue) : exchanges h ((request, response) :: dialogue) = exchanges h dialogue := by
  cases request with
  | create => rfl
  | call k c =>
    cases response with
    | created => rfl
    | replied =>
      have ne : k ≠ h := fun same => other c (same ▸ rfl)
      simp only [exchanges, if_neg ne]

theorem Kept.of_cons (kept : Kept ((request, response) :: dialogue) h) : Kept dialogue h :=
  fun later mem => kept later (List.mem_cons_of_mem _ mem)

theorem Kept.cons (kept : Kept dialogue h) (stays : request ≠ .call h .destroy)
    (response : Response) : Kept ((request, response) :: dialogue) h := by
  intro later mem
  rcases List.mem_cons.1 mem with same | mem
  · exact stays (congrArg Prod.fst same).symm
  · exact kept later mem

theorem Live.cons (live : Live dialogue h) (entry : Request × Response) :
    Live (entry :: dialogue) h := by
  obtain ⟨nonzero, before, config, after, rfl, kept⟩ := live
  exact ⟨nonzero, entry :: before, config, after, rfl, kept⟩

/-! ## What a request does -/

inductive Effect (m : Service) : Request → Response → Service → Prop
  | created {config : Config} {h : Handle} {m' : Service}
      (inserts : m.Inserts (Session.fresh config) h m') :
      Effect m (.create config) (.created h) m'
  | full {config : Config} : Effect m (.create config) (.created 0) m
  | rejected {h : Handle} {c : Call} (absent : m.get? h = none) :
      Effect m (.call h c) (.replied c.rejection) m
  | destroyed {h : Handle} {s : Session} {m' : Service} (found : m.get? h = some s)
      (removes : m.Removes h m') : Effect m (.call h .destroy) (.replied ⟨1, none, none⟩) m'
  | answered {h : Handle} {s s' : Session} {c : Call} {reply : Reply} {m' : Service}
      (found : m.get? h = some s) (stays : c ≠ .destroy) (answered : s.answer c = .ok (reply, s'))
      (replaces : m.Replaces h s' m') : Effect m (.call h c) (.replied reply) m'

theorem effect_of_serve (wf : m.WellFormed) (served : m.serve request = .ok (response, m')) :
    Effect m request response m' := by
  cases request with
  | create config =>
    cases inserted : m.insert (Session.fresh config) with
    | error =>
      simp only [serve, create, inserted] at served
      cases served
      exact .full
    | ok =>
      simp only [serve, create, inserted] at served
      cases served
      exact .created (wf.inserts inserted)
  | call h c =>
    cases found : m.get? h with
    | none =>
      rw [serve, call_of_absent found] at served
      cases served
      exact .rejected found
    | some s =>
      by_cases destroys : c = .destroy
      · subst destroys
        obtain ⟨m₁, removed, removes⟩ := wf.removes found
        simp only [serve, call, removed] at served
        cases served
        exact .destroyed found removes
      · rw [serve, call_of_live found destroys] at served
        cases answered : s.answer c with
        | error =>
          rw [answered] at served
          cases served
        | ok =>
          rw [answered] at served
          cases served
          exact .answered found destroys answered (wf.replaces found _)

namespace Effect

theorem wellFormed (effect : Effect m request response m') (wf : m.WellFormed) : m'.WellFormed := by
  cases effect with
  | created inserts => exact inserts.wellFormed
  | destroyed _ removes => exact removes.wellFormed
  | answered _ _ _ replaces => exact replaces.wellFormed
  | _ => exact wf

/-- What is asked of other handles leaves a session alone. -/
theorem get?_of_other (effect : Effect m request response m') (other : ∀ c, request ≠ .call h c)
    (found : m.get? h = some s) : m'.get? h = some s := by
  cases effect with
  | created inserts =>
    rw [inserts.get?, if_neg, found]
    rintro rfl
    cases inserts.unused.symm.trans found
  | @destroyed k _ _ _ removes =>
    rw [removes.get?, if_neg, found]
    rintro rfl
    exact other _ rfl
  | @answered k _ _ _ _ _ _ _ _ replaces =>
    rw [replaces.get?, if_neg, found]
    rintro rfl
    exact other _ rfl
  | _ => exact found

end Effect

/-! ## Runs -/

theorem exists_of_serveAll_cons (ran : m.serveAll (request :: requests) = .ok (dialogue, m')) :
    ∃ response m₁ rest, m.serve request = .ok (response, m₁) ∧
      m₁.serveAll requests = .ok (rest, m') ∧ dialogue = (request, response) :: rest := by
  obtain ⟨⟨response, m₁⟩, served, ran⟩ := bind_eq_ok_iff.1 ran
  obtain ⟨⟨rest, m₂⟩, later, result⟩ := bind_eq_ok_iff.1 ran
  cases result
  exact ⟨response, m₁, rest, served, later, rfl⟩

/-- A dialogue can be cut where one likes. -/
theorem exists_of_serveAll_append {before after : Dialogue}
    (ran : m.serveAll requests = .ok (before ++ after, m')) : ∃ first later m₁,
      requests = first ++ later ∧ m.serveAll first = .ok (before, m₁) ∧
        m₁.serveAll later = .ok (after, m') := by
  induction before generalizing m requests with
  | nil => exact ⟨[], requests, m, rfl, rfl, ran⟩
  | cons entry before ih =>
    cases requests with
    | nil => cases ran
    | cons request requests =>
      obtain ⟨response, m₁, rest, served, ran, split⟩ := exists_of_serveAll_cons ran
      cases split
      obtain ⟨first, later, m₂, rfl, begun, ended⟩ := ih ran
      refine ⟨request :: first, later, m₂, rfl, ?_, ended⟩
      simp only [serveAll, served, begun, bind, Except.bind, pure, Except.pure]

theorem wellFormed_of_serveAll (wf : m.WellFormed) (ran : m.serveAll requests = .ok (dialogue, m')) :
    m'.WellFormed := by
  induction requests generalizing m dialogue with
  | nil =>
    cases ran
    exact wf
  | cons request requests ih =>
    obtain ⟨response, m₁, rest, served, later, -⟩ := exists_of_serveAll_cons ran
    exact ih ((effect_of_serve wf served).wellFormed wf) later

/-- The calls on a live handle are answered as by its session alone, up to its destruction. -/
theorem answerAll_of_serveAll (wf : m.WellFormed) (found : m.get? h = some s)
    (ran : m.serveAll requests = .ok (dialogue, m')) :
    ∃ s', s.answerAll ((exchanges h dialogue).map Prod.fst) =
        .ok ((exchanges h dialogue).map Prod.snd, s') ∧
      (Kept dialogue h → m'.get? h = some s') := by
  induction requests generalizing m s dialogue with
  | nil =>
    cases ran
    exact ⟨s, rfl, fun _ => found⟩
  | cons request requests ih =>
    obtain ⟨response, m₁, rest, served, later, rfl⟩ := exists_of_serveAll_cons ran
    have effect := effect_of_serve wf served
    have wf₁ := effect.wellFormed wf
    by_cases addressed : ∃ c, request = .call h c
    · obtain ⟨c, rfl⟩ := addressed
      cases effect with
      | rejected absent => cases absent.symm.trans found
      | destroyed =>
        refine ⟨s, ?_, fun kept => absurd List.mem_cons_self (kept _)⟩
        simp only [exchanges, if_pos, List.map_nil, Session.answerAll]
      | @answered _ _ s₁ _ reply _ same stays answered replaces =>
        cases same.symm.trans found
        have found₁ : m₁.get? h = some s₁ := (replaces.get? h).trans (if_pos rfl)
        obtain ⟨s', all, final⟩ := ih wf₁ found₁ later
        refine ⟨s', ?_, fun kept => final kept.of_cons⟩
        simp only [exchanges, if_pos, if_neg stays, List.map_cons, Session.answerAll, answered, all,
          bind, Except.bind, pure, Except.pure]
    · have other : ∀ c, request ≠ .call h c := fun c same => addressed ⟨c, same⟩
      obtain ⟨s', all, final⟩ := ih wf₁ (effect.get?_of_other other found) later
      rw [exchanges_of_other other]
      exact ⟨s', all, fun kept => final kept.of_cons⟩

/-- A handle that leads to a session in the end led to one before or was created since. -/
theorem live_of_serveAll (wf : m.WellFormed) (ran : m.serveAll requests = .ok (dialogue, m'))
    (found : m'.get? h = some s') :
    (Kept dialogue h ∧ ∃ s, m.get? h = some s) ∨ Live dialogue h := by
  induction requests generalizing m dialogue with
  | nil =>
    cases ran
    exact .inl ⟨nofun, s', found⟩
  | cons request requests ih =>
    obtain ⟨response, m₁, rest, served, later, rfl⟩ := exists_of_serveAll_cons ran
    have effect := effect_of_serve wf served
    rcases ih (effect.wellFormed wf) later with ⟨kept, s₁, found₁⟩ | live
    · cases effect with
      | @created config k _ inserts =>
        by_cases same : h = k
        · subst same
          exact .inr ⟨inserts.nonzero wf, [], config, rest, rfl, kept⟩
        · rw [inserts.get?, if_neg same] at found₁
          exact .inl ⟨kept.cons (by nofun) _, s₁, found₁⟩
      | full => exact .inl ⟨kept.cons (by nofun) _, s₁, found₁⟩
      | rejected absent =>
        refine .inl ⟨kept.cons ?_ _, s₁, found₁⟩
        rintro ⟨⟩
        cases absent.symm.trans found₁
      | @destroyed k _ _ found removes =>
        rw [removes.get?] at found₁
        split at found₁
        · cases found₁
        · rename_i other
          refine .inl ⟨kept.cons ?_ _, s₁, found₁⟩
          rintro ⟨⟩
          exact other rfl
      | @answered k s _ c _ _ found stays _ replaces =>
        have unended : Request.call k c ≠ .call h .destroy := by
          rintro ⟨⟩
          exact stays rfl
        by_cases same : h = k
        · subst same
          exact .inl ⟨kept.cons unended _, s, found⟩
        · rw [replaces.get?, if_neg same] at found₁
          exact .inl ⟨kept.cons unended _, s₁, found₁⟩
    · exact .inr (live.cons _)

/-! ## Dialogues with a new service -/

/-- From its creation on, a session answers as it would alone. -/
theorem answerAll_of_created (ran : serveAll .empty requests = .ok (dialogue, m))
    {before after : Dialogue} {config : Config}
    (split : dialogue = before ++ (.create config, .created h) :: after) (nonzero : h ≠ 0) :
    ∃ s, (Session.fresh config).answerAll ((exchanges h after).map Prod.fst) =
        .ok ((exchanges h after).map Prod.snd, s) ∧
      (Kept after h → m.get? h = some s) := by
  subst split
  obtain ⟨first, later, m₁, rfl, begun, ran⟩ := exists_of_serveAll_append ran
  have wf := wellFormed_of_serveAll .empty begun
  cases later with
  | nil => cases ran
  | cons request later =>
    obtain ⟨response, m₂, rest, served, ended, split⟩ := exists_of_serveAll_cons ran
    cases split
    cases effect_of_serve wf served with
    | created inserts =>
      exact answerAll_of_serveAll inserts.wellFormed ((inserts.get? h).trans (if_pos rfl)) ended
    | full => exact absurd rfl nonzero

/-- The live handles are those that lead to a session. -/
theorem live_iff (ran : serveAll .empty requests = .ok (dialogue, m)) (h : Handle) :
    Live dialogue h ↔ ∃ s, m.get? h = some s := by
  constructor
  · rintro ⟨nonzero, before, config, after, split, kept⟩
    obtain ⟨s, -, final⟩ := answerAll_of_created ran split nonzero
    exact ⟨s, final kept⟩
  · rintro ⟨s, found⟩
    rcases live_of_serveAll .empty ran found with ⟨-, s, nothing⟩ | live
    · cases nothing
    · exact live

/-- What a dialogue says about the sessions is what the service does. -/
structure Isolated (dialogue : Dialogue) (m : Service) : Prop where
  /-- From its creation on, a session answers as it would alone. -/
  alone : ∀ before config h after, dialogue = before ++ (.create config, .created h) :: after →
    h ≠ 0 → ∃ s,
      (Session.fresh config).answerAll ((exchanges h after).map Prod.fst) =
        .ok ((exchanges h after).map Prod.snd, s) ∧
      (Kept after h → m.get? h = some s)
  absent : ∀ h c, ¬ Live dialogue h → m.call h c = .ok (c.rejection, m)
  /-- While there is room, a session is created under a handle that is not in use. -/
  room : ∀ config, m.slots.size < UInt32.size →
    (m.create config).1 ≠ 0 ∧ ¬ Live dialogue (m.create config).1

theorem isolated_of_serveAll (ran : serveAll .empty requests = .ok (dialogue, m)) :
    Isolated dialogue m where
  alone := fun _ _ _ _ split nonzero => answerAll_of_created ran split nonzero
  absent := by
    intro h c dead
    refine call_of_absent (Option.eq_none_iff_forall_ne_some.2 fun s found => ?_) c
    exact dead ((live_iff ran h).2 ⟨s, found⟩)
  room := by
    intro config room
    have wf := wellFormed_of_serveAll .empty ran
    unfold create
    cases inserted : m.insert (Session.fresh config) with
    | error => exact absurd room (Nat.not_lt.2 (SlotMap.full_of_insert inserted).2)
    | ok result =>
      have inserts := wf.inserts inserted
      refine ⟨inserts.nonzero wf, fun live => ?_⟩
      obtain ⟨s, found⟩ := (live_iff ran _).1 live
      cases inserts.unused.symm.trans found

end Service

/-! ## Faults -/

theorem Operation.newVar_of_full {op : Operation} {k : Nat} (few : k ≤ Session.maxVars)
    (full : Session.maxVars < op.numVarsAfter k) :
    k = Session.maxVars ∧ ∃ polarity decision, op = .newVar polarity decision := by
  cases op with
  | newVar polarity decision =>
    exact ⟨Nat.le_antisymm few (Nat.le_of_lt_succ full), polarity, decision, rfl⟩
  | reset => exact absurd full (Nat.not_lt_zero _)
  | _ => exact absurd full (Nat.not_lt.2 few)

namespace Session

/-- The session came about by operations, and signed literals can name its variables. -/
def Sound (s : Session) : Prop := (∃ history, Invariant history s) ∧ s.numVars ≤ maxVars

theorem sound_fresh (config : Config) : (fresh config).Sound :=
  ⟨⟨[], .fresh config⟩, Nat.zero_le _⟩

/-- A session answers every call, unless it would have to allocate too many variables. -/
theorem answer_spec {s : Session} (sound : s.Sound) (c : Call) :
    (s.answer c = .error .tooManyVariables ∧ s.numVars = maxVars ∧
        ∃ polarity decision, c = .plain (.newVar polarity decision)) ∨
      Yields (s.answer c) fun (_, s') => s'.Sound := by
  obtain ⟨⟨history, inv⟩, few⟩ := sound
  unfold answer
  cases asked : c.operation? with
  | none => exact .inr (Yields.ok ⟨⟨history, inv⟩, few⟩)
  | some request =>
    cases request with
    | error e => exact .inr (Yields.ok ⟨⟨history, inv⟩, few⟩)
    | ok op =>
      rcases perform_spec inv op with ⟨failed, full⟩ | ⟨⟨answer, s'⟩, performed, result⟩
      · obtain ⟨all, polarity, decision, rfl⟩ := Operation.newVar_of_full few full
        refine .inl ⟨?_, all, polarity, decision, Call.eq_plain_of_newVar asked⟩
        dsimp only
        rw [failed]
        rfl
      · right
        dsimp only
        rw [performed]
        exact Yields.pure ⟨⟨_, result.invariant⟩, numVars_le_of_perform performed few⟩

end Session

namespace Service

variable {m m' : Service} {h : Handle} {request : Request} {response : Response}
  {requests : List Request} {dialogue : Dialogue}

/-- Every session of the service is sound. -/
def Sound (m : Service) : Prop := ∀ h s, m.get? h = some s → s.Sound

theorem Effect.sound (effect : Effect m request response m') (sound : m.Sound) : m'.Sound := by
  intro h s found
  cases effect with
  | created inserts =>
    rw [inserts.get?] at found
    split at found
    · cases found
      exact Session.sound_fresh _
    · exact sound h s found
  | destroyed _ removes =>
    rw [removes.get?] at found
    split at found
    · cases found
    · exact sound h s found
  | @answered _ _ _ c _ _ before _ answered replaces =>
    rw [replaces.get?] at found
    split at found
    · cases found
      rcases Session.answer_spec (sound _ _ before) c with ⟨failed, -⟩ | yields
      · cases failed.symm.trans answered
      · exact yields.of_eq answered
    · exact sound h s found
  | _ => exact sound h s found

/-- The request is for another variable of a session that has all there can be. -/
def Request.Exhausts (request : Request) (m : Service) : Prop :=
  ∃ h polarity decision s, request = .call h (.plain (.newVar polarity decision)) ∧
    m.get? h = some s ∧ s.numVars = Session.maxVars

/-- A request is answered, unless it would allocate a variable where there can be no more. -/
theorem serve_spec (wf : m.WellFormed) (sound : m.Sound) (request : Request) :
    (request.Exhausts m ∧ m.serve request = .error .tooManyVariables) ∨
      Yields (m.serve request) fun _ => True := by
  cases request with
  | create config => exact .inr (Yields.ok trivial)
  | call h c =>
    cases found : m.get? h with
    | none =>
      rw [serve, call_of_absent found]
      exact .inr (Yields.ok trivial)
    | some s =>
      by_cases destroys : c = .destroy
      · subst destroys
        obtain ⟨m₁, removed, -⟩ := wf.removes found
        simp only [serve, call, removed]
        exact .inr (Yields.ok trivial)
      · rcases Session.answer_spec (sound h s found) c with
          ⟨failed, all, polarity, decision, rfl⟩ | ⟨⟨reply, s'⟩, answered, -⟩
        · refine .inl ⟨⟨h, polarity, decision, s, rfl, found, all⟩, ?_⟩
          rw [serve, call_of_live found destroys, failed]
          rfl
        · rw [serve, call_of_live found destroys, answered]
          exact .inr (Yields.ok trivial)

/-- All requests are served, or all up to one that exhausts a session. -/
theorem serveAll_spec (wf : m.WellFormed) (sound : m.Sound) (requests : List Request) :
    Yields (m.serveAll requests) (fun (dialogue, _) => dialogue.map Prod.fst = requests) ∨
      m.serveAll requests = .error .tooManyVariables ∧
        ∃ before request after, requests = before ++ request :: after ∧
          Yields (m.serveAll before) fun (dialogue, m') =>
            dialogue.map Prod.fst = before ∧ request.Exhausts m' := by
  induction requests generalizing m with
  | nil => exact .inl (Yields.ok rfl)
  | cons request requests ih =>
    rcases serve_spec wf sound request with ⟨exhausts, failed⟩ | ⟨⟨response, m₁⟩, served, -⟩
    · refine .inr ⟨?_, [], request, requests, rfl, Yields.ok ⟨rfl, exhausts⟩⟩
      rw [serveAll, failed]
      rfl
    · have effect := effect_of_serve wf served
      rcases ih (effect.wellFormed wf) (effect.sound sound) with yields |
        ⟨failed, before, last, after, rfl, yields⟩
      · left
        rw [serveAll, served]
        refine yields.bind fun (dialogue, m') made => Yields.pure ?_
        exact congrArg (request :: ·) made
      · refine .inr ⟨?_, request :: before, last, after, rfl, ?_⟩
        · simp only [serveAll, served, failed, bind, Except.bind]
        · rw [serveAll, served]
          refine yields.bind fun (dialogue, m') ⟨made, exhausts⟩ => Yields.pure ⟨?_, exhausts⟩
          exact congrArg (request :: ·) made

theorem sound_empty : Sound .empty := by
  intro h s found
  cases found

/-- Whatever a new service is asked for, its sessions do not meet. It answers everything, or else
everything before one session would need more variables than signed literals can name. -/
theorem calls_are_isolated (requests : List Request) :
    Yields (serveAll .empty requests) (fun (dialogue, m) =>
        dialogue.map Prod.fst = requests ∧ Isolated dialogue m) ∨
      serveAll .empty requests = .error .tooManyVariables ∧
        ∃ before request after, requests = before ++ request :: after ∧
          Yields (serveAll .empty before) fun (dialogue, m) =>
            dialogue.map Prod.fst = before ∧ Isolated dialogue m ∧ request.Exhausts m := by
  rcases serveAll_spec .empty sound_empty requests with ⟨⟨dialogue, m⟩, ran, made⟩ |
    ⟨failed, before, request, after, split, ⟨dialogue, m⟩, ran, made, exhausts⟩
  · exact .inl ⟨_, ran, made, isolated_of_serveAll ran⟩
  · exact .inr ⟨failed, before, request, after, split, _, ran, made, isolated_of_serveAll ran,
      exhausts⟩

/-- Two sessions in turn. The first is destroyed, and its slot is used again. -/
def interleavedRequests : List Request :=
  [.create {}, .create {}, .call 0x100000000 (.plain (.newVar .unset true)),
    .call 0x100000001 (.addClause (.null 2)), .call 0x100000001 (.plain (.newVar .unset true)),
    .call 0x100000000 (.addClause (.items [-1])), .call 0x100000001 (.addClause (.items [1])),
    .call 0x100000000 (.plain (.solve false false)), .call 0x100000000 (.plain (.value 1)),
    .call 0x100000001 (.plain (.value 1)), .call 0x100000000 .destroy, .create {},
    .call 0x100000000 (.plain .numVars), .call 0x200000000 (.plain .numVars),
    .call 0 (.addClause (.null 3))]

def interleavedResponses : List Response :=
  [.created 0x100000000, .created 0x100000001, .replied ⟨1, none, none⟩,
    .replied ⟨-3, none, none⟩, .replied ⟨1, none, none⟩, .replied ⟨1, none, none⟩,
    .replied ⟨1, none, none⟩, .replied ⟨1, none, none⟩, .replied ⟨0, none, none⟩,
    .replied ⟨-4, none, none⟩, .replied ⟨1, none, none⟩, .created 0x200000000,
    .replied ⟨-1, none, none⟩, .replied ⟨0, none, none⟩, .replied ⟨-3, none, none⟩]

/-- Only the first session has a model, and its handle is rejected in the end. -/
theorem calls_are_isolated_interleavedRequests : ∃ dialogue m,
    serveAll .empty interleavedRequests = .ok (dialogue, m) ∧
      dialogue.map Prod.snd = interleavedResponses ∧ Isolated dialogue m := by
  have ran : Yields (serveAll .empty interleavedRequests) fun out =>
      out.1.map Prod.snd = interleavedResponses := by
    decide +kernel
  obtain ⟨⟨dialogue, m⟩, ran, responses⟩ := ran
  rcases calls_are_isolated interleavedRequests with ⟨_, also, -, isolated⟩ | ⟨failed, -⟩
  · cases also.symm.trans ran
    exact ⟨dialogue, m, ran, responses, isolated⟩
  · cases failed.symm.trans ran

end Service

end IncrementalSat

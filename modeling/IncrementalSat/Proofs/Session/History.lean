import IncrementalSat.Proofs.Valuation
import IncrementalSat.Session.Operation

/-!
# Histories

A history lists the operations on a session since it was created or last reset, each with its
answer, the latest first. What has been said to the session so far can be read off: the clauses it
accepted, and the assumptions of the last solve.
-/
namespace IncrementalSat

/-- The literals that signed numbers stand for. -/
def Literal.ofAllSigned (ls : List Int32) : List (Literal Nat) :=
  ls.filterMap fun l => (ofSigned l).toOption

theorem Literal.mem_ofAllSigned_iff {ls : List Int32} {k : Literal Nat} :
    k ∈ ofAllSigned ls ↔ ∃ l ∈ ls, ofSigned l = .ok k := by
  unfold ofAllSigned
  rw [List.mem_filterMap]
  refine exists_congr fun l => and_congr_right fun _ => ?_
  cases ofSigned l <;> simp [Except.toOption]

namespace Operation

/-- The assumptions of a solve. -/
def assumptions? : Operation → Option (List (Literal Nat))
  | .solve _ _ => some []
  | .solveAssuming as _ _ => some (Literal.ofAllSigned as)
  | .solveByStrategy as => some (Literal.ofAllSigned as)
  | _ => none

/-- The search may branch on the variable that the operation is about. -/
def decides : Operation → Bool
  | .newVar _ decision => decision
  | .setDecision _ decision => decision
  | _ => true

/-- The number of variables after an operation on a session with `k` variables. -/
def numVarsAfter (k : Nat) : Operation → Nat
  | .newVar _ _ => k + 1
  | .reset => 0
  | _ => k

end Operation

abbrev History := List (Operation × Answer)

namespace History

/-- Adds an operation. A reset starts a new history. -/
def record (h : History) (op : Operation) (answer : Answer) : History :=
  if op = .reset then [] else (op, answer) :: h

/-- The history after some operations and their answers. -/
def after (h : History) (ops : List Operation) (answers : List Answer) : History :=
  (ops.zip answers).foldl (fun h x => h.record x.1 x.2) h

/-- The clause that an operation added, if it was not rejected. -/
def clause? : Operation × Answer → Option (List (Literal Nat))
  | (.addClause lits, .flag _) => some (Literal.ofAllSigned lits)
  | _ => none

/-- The clauses that were accepted. -/
def accepted (h : History) : Formula := h.filterMap clause?

/-- The assumptions of the last solve. -/
def assumptions : History → List (Literal Nat)
  | [] => []
  | (op, _) :: h => op.assumptions?.getD (assumptions h)

/-- The search was never kept from branching on a variable. -/
def Decisive (h : History) : Prop := ∀ x ∈ h, x.1.decides = true

instance (h : History) : Decidable h.Decisive := inferInstanceAs (Decidable (∀ x ∈ h, _))

theorem record_of_ne (h : History) {op : Operation} (other : op ≠ .reset) (answer : Answer) :
    h.record op answer = (op, answer) :: h := if_neg other

theorem record_reset (h : History) (answer : Answer) : h.record .reset answer = [] := if_pos rfl

section

variable (h : History) {op : Operation} {answer : Answer} (other : op ≠ .reset)

include other

theorem accepted_record_of_none (silent : clause? (op, answer) = none) :
    (h.record op answer).accepted = h.accepted := by
  rw [h.record_of_ne other]
  exact List.filterMap_cons_none silent

theorem accepted_record_of_some {lits : List (Literal Nat)}
    (added : clause? (op, answer) = some lits) :
    (h.record op answer).accepted = lits :: h.accepted := by
  rw [h.record_of_ne other]
  exact List.filterMap_cons_some added

/-- What was accepted once counts until a reset. -/
theorem mem_accepted_record {lits : List (Literal Nat)} (mem : lits ∈ h.accepted) :
    lits ∈ (h.record op answer).accepted := by
  obtain ⟨x, hx, added⟩ := List.mem_filterMap.1 mem
  rw [h.record_of_ne other]
  exact List.mem_filterMap.2 ⟨x, List.mem_cons_of_mem _ hx, added⟩

theorem assumptions_record_of_none (idle : op.assumptions? = none) :
    (h.record op answer).assumptions = h.assumptions := by
  rw [h.record_of_ne other, assumptions, idle]
  rfl

theorem assumptions_record_of_some {as : List (Literal Nat)} (asked : op.assumptions? = some as) :
    (h.record op answer).assumptions = as := by
  rw [h.record_of_ne other, assumptions, asked]
  rfl

theorem decisive_record_iff :
    (h.record op answer).Decisive ↔ op.decides = true ∧ h.Decisive := by
  rw [h.record_of_ne other]
  exact List.forall_mem_cons

end

end History

namespace Session

variable {s : Session}

/-! ## Reading literals -/

/-- A literal that can be read is the one that the signed word stands for. -/
theorem literal_spec {l : Int32} {m : Lit s.numVars} (read : s.literal l = .ok m) :
    Literal.ofSigned l = .ok m.toLiteral := by
  unfold literal at read
  cases signed : Literal.ofSigned l with
  | error e =>
    rw [signed] at read
    cases read
  | ok k =>
    rw [signed] at read
    dsimp only [bind, Except.bind] at read
    unfold Lit.ofLiteral? at read
    split at read
    · cases read
    · next found =>
      split at found
      · cases found
        cases read
        rfl
      · cases found

/-- Literals that are accepted stand for literals of variables that are not eliminated. -/
theorem usableLiterals_spec {ls : List Int32} {ms : List (Lit s.numVars)}
    (read : s.usableLiterals ls = .ok ms) : Literal.ofAllSigned ls = ms.map Lit.toLiteral ∧
      ∀ m ∈ ms, s.engine.isEliminated m.var = false := by
  induction ls generalizing ms with
  | nil =>
    cases read
    exact ⟨rfl, by simp⟩
  | cons l ls ih =>
    unfold usableLiterals usableLiteral at read
    cases first : s.literal l with
    | error e =>
      rw [first] at read
      cases read
    | ok m =>
      rw [first] at read
      cases eliminated : s.engine.isEliminated m.var with
      | true =>
        simp only [eliminated, bind, Except.bind, if_true] at read
        cases read
      | false =>
        cases rest : s.usableLiterals ls with
        | error e =>
          simp only [eliminated, rest, bind, Except.bind, Bool.false_eq_true, if_false] at read
          cases read
        | ok ks =>
          simp only [eliminated, rest, bind, Except.bind, Bool.false_eq_true, if_false] at read
          cases read
          obtain ⟨same, usable⟩ := ih rest
          refine ⟨?_, List.forall_mem_cons.2 ⟨eliminated, usable⟩⟩
          rw [List.map_cons, ← same, Literal.ofAllSigned, List.filterMap_cons, literal_spec first]
          rfl

end Session

end IncrementalSat

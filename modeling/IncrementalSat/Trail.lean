import IncrementalSat.Literal

/-!
# The trail

The assigned literals in the order in which they were assigned, cut into levels. Level zero holds
what is true for good; each further level starts with a decision, or is opened empty. A variable
that is assigned knows its value, its level and why it was assigned. Backtracking takes the newest
literals off again and remembers the sign each of them had.
-/
namespace IncrementalSat

/-- Why a variable has its value. -/
inductive Reason where
  /-- It was chosen. -/
  | decision
  /-- It is fixed at level zero, where no clause is kept as an explanation. -/
  | root
  /-- The clause with this index implied it. -/
  | clause (index : Nat)
  deriving DecidableEq, Repr

/-- What is known of an assigned variable. -/
structure Cell where
  value : Bool
  level : Nat
  reason : Reason
  deriving DecidableEq, Repr

structure Trail (n : Nat) where
  cells : Vector (Option Cell) n
  /-- The sign a variable had when it was last taken off the trail. -/
  phase : Vector Bool n
  lits : Array (Lit n)
  /-- The length of the trail when each level above zero was opened. -/
  starts : Array Nat

namespace Trail

variable {n : Nat}

def empty : Trail 0 := ⟨.replicate 0 none, .replicate 0 false, #[], #[]⟩

/-- Makes room for one more variable. -/
def grow (t : Trail n) : Trail (n + 1) :=
  { cells := t.cells.push none
    phase := t.phase.push false
    lits := t.lits.map Lit.grow
    starts := t.starts }

def size (t : Trail n) : Nat := t.lits.size

/-- The current level. -/
def level (t : Trail n) : Nat := t.starts.size

def valueOf (t : Trail n) (v : Fin n) : Option Bool := (t.cells.get v).map (·.value)

def levelOf (t : Trail n) (v : Fin n) : Option Nat := (t.cells.get v).map (·.level)

def reasonOf (t : Trail n) (v : Fin n) : Option Reason := (t.cells.get v).map (·.reason)

/-- The value of a literal: whether its variable has the literal's sign. -/
def eval (t : Trail n) (l : Lit n) : Option Bool := (t.valueOf l.var).map (· == l.positive)

/-- Makes a literal true at the current level. At level zero the reason is forgotten. No level is opened,
so this is not how to decide on a literal: that is `openWith`. -/
def assign (t : Trail n) (l : Lit n) (reason : Reason) : Trail n :=
  let reason := if t.level = 0 then .root else reason
  { t with
    lits := t.lits.push l
    cells := t.cells.set l.var (some ⟨l.positive, t.level, reason⟩) l.var_lt }

/-- Opens a level without a decision. -/
def openLevel (t : Trail n) : Trail n := { t with starts := t.starts.push t.size }

/-- Opens a level with a decision. -/
def openWith (t : Trail n) (l : Lit n) : Trail n := t.openLevel.assign l .decision

/-- Takes the newest literal off. -/
def undoLast (t : Trail n) : Trail n :=
  match t.lits.back? with
  | none => t
  | some l =>
    { t with
      lits := t.lits.pop
      cells := t.cells.set l.var none l.var_lt
      phase := t.phase.set l.var l.positive l.var_lt }

/-- Takes the newest `k` literals off. -/
def undo : Nat → Trail n → Trail n
  | 0, t => t
  | k + 1, t => undo k t.undoLast

/-- Takes off every literal above a level, which stays. -/
def backtrack (t : Trail n) (level : Nat) : Trail n :=
  if h : level < t.starts.size then
    let start := t.starts[level]
    { t with starts := t.starts.take level }.undo (t.size - start)
  else t

/-- What the literals of a clause look like from the trail, read from left to right. -/
inductive Scan (n : Nat) where
  /-- A true literal stands before every unassigned one. -/
  | satisfied
  /-- The first literal that is not false is unassigned, and stands between these two parts. -/
  | unassigned (before : List (Lit n)) (l : Lit n) (after : List (Lit n))
  /-- Every literal is false. -/
  | falsified

/-- Looks for the first literal that is not false. -/
def scan (t : Trail n) : List (Lit n) → Scan n
  | [] => .falsified
  | l :: ls =>
    match t.eval l with
    | some true => .satisfied
    | none => .unassigned [] l ls
    | some false =>
      match t.scan ls with
      | .unassigned before m after => .unassigned (l :: before) m after
      | .satisfied => .satisfied
      | .falsified => .falsified

end Trail

end IncrementalSat

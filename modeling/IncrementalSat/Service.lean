import IncrementalSat.Session.Operation
import IncrementalSat.SlotMap

/-!
# Sessions under handles

A service keeps any number of sessions under handles and answers calls with integers: truth as one
or zero, counts and literals as they are, errors as negative numbers. Arrays come in and models go
out through memory of the caller, whose pointers may be null. A null array of literals is noticed
before the handle is looked at, and so is a null path; a null place for a model only once there is
something to write.
-/
namespace IncrementalSat

/-- An array of literals in memory of the caller. -/
inductive LitArray where
  /-- A null pointer, with a length. -/
  | null (length : Nat)
  | items (lits : List Int32)
  deriving DecidableEq, Repr

namespace LitArray

/-- An array of length zero is never looked at. -/
def read : LitArray → Except Error (List Int32)
  | .null 0 => .ok []
  | .null (_ + 1) => .error .nullPointer
  | .items lits => .ok lits

end LitArray

/-- Memory of the caller for a model, one byte for each entry. -/
inductive Buffer where
  /-- A null pointer, with a capacity. -/
  | null (capacity : Nat)
  | bytes (contents : List UInt8)
  deriving DecidableEq, Repr

namespace Buffer

def capacity : Buffer → Nat
  | .null k => k
  | .bytes contents => contents.length

/-- Writes bits to the front if there is room for all of them. -/
def write (b : Buffer) (bits : List Bool) : Except Error Buffer :=
  if b.capacity < bits.length then .ok b
  else
    match b with
    | .null _ => .error .nullPointer
    | .bytes contents =>
      .ok (.bytes (bits.map (fun b => if b then 1 else 0) ++ contents.drop bits.length))

end Buffer

/-- A place that a text can be written to. -/
inductive Path where
  | null
  | writable
  /-- Opening the file fails for this reason. -/
  | refused (reason : String)
  deriving DecidableEq, Repr

/-- What can be asked of a session under a handle. -/
inductive Call where
  | destroy
  /-- An operation without arrays. -/
  | plain (op : Operation)
  | addClause (lits : LitArray)
  | solveAssuming (assumptions : LitArray) (simplify turnOff : Bool)
  | solveByStrategy (assumptions : LitArray)
  | model (out : Buffer)
  | writeDimacs (path : Path)
  deriving DecidableEq, Repr

/-- The integer a call returns, and what it leaves in memory or in a file. -/
structure Reply where
  result : Int
  buffer : Option Buffer := none
  written : Option String := none
  deriving DecidableEq, Repr

namespace Answer

/-- An answer as an integer. A model counts its entries, a text only says that there is one. -/
def toInt : Answer → Int
  | .done => 1
  | .literal l => l.toInt
  | .flag b => if b then 1 else 0
  | .count k => k
  | .truth t => t.code.toNat
  | .bits bs => bs.length
  | .text _ => 1
  | .rejected e => e.status

end Answer

abbrev Service := SlotMap Session

namespace Service

/-- Creates a session. Answers its handle, or zero if there is no room for it. -/
def create (m : Service) (config : Config) : Handle × Service :=
  match m.insert (.fresh config) with
  | .error _ => (0, m)
  | .ok (h, m) => (h, m)

/-- Reads the strategy of a session to be created. -/
def strategyOfCode (code : UInt8) : Strategy :=
  if code = 0 then .never else if code = 2 then .always else .once

/-- Carries out an operation on the session under a handle. -/
def perform (m : Service) (h : Handle) (op : Operation) : Checked (Answer × Service) :=
  match m.get h with
  | .error e => .ok (.rejected e, m)
  | .ok s => do
    let (answer, s) ← s.perform op
    pure (answer, m.set h s)

/-- Carries out an operation that takes an array of literals. -/
def performOn (m : Service) (h : Handle) (lits : LitArray) (op : List Int32 → Operation) :
    Checked (Reply × Service) :=
  match lits.read with
  | .error e => .ok (⟨e.status, none, none⟩, m)
  | .ok lits => do
    let (answer, m) ← perform m h (op lits)
    pure (⟨answer.toInt, none, none⟩, m)

/-- Copies a model out. The result is the number of entries, whether or not they fit. -/
def copyModel (out : Buffer) : Answer → Reply
  | .bits bs =>
    match out.write bs with
    | .error e => ⟨e.status, some out, none⟩
    | .ok out => ⟨bs.length, some out, none⟩
  | answer => ⟨answer.toInt, some out, none⟩

/-- Writes the session under a handle to a file, which is opened only once the session is found. -/
def exportDimacs (m : Service) (h : Handle) (path : Path) : Reply :=
  match path, m.get h with
  | .null, _ => ⟨Error.nullPointer.status, none, none⟩
  | _, .error e => ⟨e.status, none, none⟩
  | .refused reason, .ok _ => ⟨(Error.io reason).status, none, none⟩
  | .writable, .ok s => ⟨1, none, some s.dimacs.render⟩

/-- Answers a call. -/
def call (m : Service) (h : Handle) : Call → Checked (Reply × Service)
  | .destroy =>
    match m.remove h with
    | .error e => .ok (⟨e.status, none, none⟩, m)
    | .ok (_, m) => .ok (⟨1, none, none⟩, m)
  | .plain op => do
    let (answer, m) ← perform m h op
    pure (⟨answer.toInt, none, none⟩, m)
  | .addClause lits => performOn m h lits .addClause
  | .solveAssuming assumptions simplify turnOff =>
    performOn m h assumptions (.solveAssuming · simplify turnOff)
  | .solveByStrategy assumptions => performOn m h assumptions .solveByStrategy
  | .model out => do
    let (answer, m) ← perform m h .model
    pure (copyModel out answer, m)
  | .writeDimacs path => .ok (exportDimacs m h path, m)

end Service

end IncrementalSat

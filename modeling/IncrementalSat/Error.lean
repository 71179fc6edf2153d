/-!
# Errors

What a caller can do wrong, by cause. `Error.message` holds the wording and `Error.status` the
negative number that stands for the error where only integers can be returned.
-/
namespace IncrementalSat

/-- Why a call does not fit the state of a session. -/
inductive StateConflict where
  | eliminatedVariable | noModel | unassigned
  deriving DecidableEq, Repr

def StateConflict.message : StateConflict → String
  | .eliminatedVariable => "literal refers to an eliminated variable"
  | .noModel => "no model: the last solve was not satisfiable or the instance changed since"
  | .unassigned => "literal is unassigned in the model"

inductive Error where
  | invalidLiteral (literal : Int32)
  | invalidArgument (literal : Int32) (varCount : Nat)
  | invalidState (conflict : StateConflict)
  | invalidHandle (handle : UInt64)
  | nullPointer
  | outOfMemory
  | io (reason : String)
  deriving DecidableEq, Repr

namespace Error

/-- Lower-case hexadecimal digits after `0x`. -/
def hex (n : Nat) : String := "0x" ++ String.ofList (Nat.toDigits 16 n)

def message : Error → String
  | .invalidLiteral l => "invalid literal " ++ l.toInt.repr ++ ": literals must be nonzero"
  | .invalidArgument l count =>
    "literal " ++ l.toInt.repr ++ " refers to an unallocated variable (" ++ count.repr
      ++ " allocated)"
  | .invalidState c => "invalid state: " ++ c.message
  | .invalidHandle h => "invalid handle " ++ hex h.toNat
  | .nullPointer => "null array with nonzero length"
  | .outOfMemory => "out of memory"
  | .io reason => "i/o error: " ++ reason

def status : Error → Int
  | .invalidHandle _ => -1
  | .invalidLiteral _ => -2
  | .invalidArgument _ _ => -3
  | .nullPointer => -3
  | .invalidState _ => -4
  | .outOfMemory => -5
  | .io _ => -6

theorem status_neg (e : Error) : e.status < 0 := by cases e <;> simp [status]

end Error

end IncrementalSat

/-!
# Three-valued truth

The value of a variable in a partial model, and the shape of a polarity hint: it holds, it fails,
or it is left unset. The numeric codes are `0`, `1` and `2`; every other byte also reads as unset.
-/
namespace IncrementalSat

inductive Truth where
  | holds | fails | unset
  deriving DecidableEq, Repr, Inhabited

namespace Truth

/-- The truth value a byte stands for. -/
def ofCode (code : UInt8) : Truth :=
  if code = 0 then .holds else if code = 1 then .fails else .unset

def code : Truth → UInt8
  | .holds => 0
  | .fails => 1
  | .unset => 2

def ofBool (b : Bool) : Truth := if b then .holds else .fails

/-- A missing value is unset. -/
def ofOption : Option Bool → Truth
  | none => .unset
  | some b => ofBool b

def isHolds (t : Truth) : Bool := t == .holds

def isUnset (t : Truth) : Bool := t == .unset

/-- Negation leaves an unset value unset. -/
def neg : Truth → Truth
  | .holds => .fails
  | .fails => .holds
  | .unset => .unset

/-- The name under which a value is displayed. -/
def text : Truth → String
  | .holds => "True"
  | .fails => "False"
  | .unset => "Undef"

theorem ofCode_code (t : Truth) : ofCode t.code = t := by cases t <;> rfl

theorem neg_neg (t : Truth) : t.neg.neg = t := by cases t <;> rfl

theorem ofBool_not (b : Bool) : ofBool (!b) = (ofBool b).neg := by cases b <;> rfl

end Truth

end IncrementalSat

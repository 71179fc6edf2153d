/-!
# Total order of scores

Scores are doubles. They are compared by their bit patterns, with the sign bit flipped for positive
ones and every bit flipped for negative ones. This agrees with the numeric order, puts the negative
zero right below the positive one, and is total: every double has one place in it. What is not a number
has the bits of one positive double here, whatever its sign, which arithmetic leaves open; so its place
is above infinity.
-/
namespace IncrementalSat

namespace Score

/-- The bit that is set in negative doubles. -/
def signBit : UInt64 := 0x8000000000000000

/-- The place of a double in the total order. -/
def rank (x : Float) : UInt64 :=
  let bits := x.toBits
  if bits < signBit then bits ||| signBit else ~~~bits

/-- The total order as a test. -/
def le (x y : Float) : Bool := decide (rank x ≤ rank y)

/-- The strict total order as a test. -/
def lt (x y : Float) : Bool := decide (rank x < rank y)

theorem le_iff {x y : Float} : le x y = true ↔ rank x ≤ rank y := by simp [le]

theorem lt_iff {x y : Float} : lt x y = true ↔ rank x < rank y := by simp [lt]

theorem le_trans {x y z : Float} (h : le x y = true) (h' : le y z = true) : le x z = true := by
  rw [le_iff] at *
  exact UInt64.le_trans h h'

theorem le_total (x y : Float) : (le x y || le y x) = true := by
  simp only [Bool.or_eq_true, le_iff]
  exact UInt64.le_total _ _

end Score

end IncrementalSat

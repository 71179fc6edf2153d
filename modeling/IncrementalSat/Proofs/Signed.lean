import IncrementalSat.Literal.Signed

/-!
# Signed literals can be read back

A literal whose variable is below `2 ^ 31 - 1` has a signed form, which is not zero and which stands
for that literal. The other way round, whatever signed number stands for a literal is its signed form.
-/
namespace IncrementalSat

namespace Literal

/-- A number that stands for a negative literal is negative. -/
theorem neg_of_ofSigned {s : Int32} {k : Nat} (read : ofSigned s = .ok ⟨k, false⟩) : s < 0 := by
  unfold ofSigned at read
  split at read
  · cases read
  · next usable =>
    simp only [Except.ok.injEq, Literal.mk.injEq, decide_eq_false_iff_not, Int32.not_lt] at read
    exact Int32.lt_of_le_of_ne read.2 fun zero => usable (.inl zero)

/-! ## Numbers that stand for a literal -/

section

variable {s t : Int32} {k : Literal Nat} (read : ofSigned s = .ok k)

include read

theorem valid_of_ofSigned : s.toInt ≠ 0 ∧ s.toInt ≠ -2147483648 := by
  unfold ofSigned at read
  split at read
  · cases read
  · next usable =>
    constructor
    · exact fun zero => usable (.inl (Int32.toInt_inj.1 zero))
    · exact fun least => usable (.inr (Int32.toInt_inj.1 least))

theorem eq_of_ofSigned : k = ⟨s.toInt.natAbs - 1, decide (0 < s)⟩ := by
  unfold ofSigned at read
  split at read
  · cases read
  · cases read
    rfl

/-- A signed literal that is read is written again as it was. -/
theorem toSigned_of_ofSigned : k.toSigned = s := by
  obtain ⟨nonzero, -⟩ := valid_of_ofSigned read
  have value : (if decide (0 < s) then ((s.toInt.natAbs - 1 : Nat) + 1 : Int)
      else -((s.toInt.natAbs - 1 : Nat) + 1 : Int)) = s.toInt := by
    have sign : 0 < s ↔ 0 < s.toInt := Int32.lt_iff_toInt_lt
    simp only [sign, decide_eq_true_eq]
    split <;> omega
  rw [eq_of_ofSigned read]
  unfold toSigned
  dsimp only
  rw [value, Int32.ofInt_toInt]

/-- A number of the same magnitude stands for a literal of the same variable. -/
theorem ofSigned_of_natAbs (same : t.toInt.natAbs = s.toInt.natAbs) :
    ofSigned t = .ok ⟨k.var, decide (0 < t)⟩ := by
  obtain ⟨nonzero, least⟩ := valid_of_ofSigned read
  have lower : -2147483648 ≤ s.toInt := Int32.minValue_le_toInt s
  have upper : s.toInt < 2147483648 := Int32.toInt_lt s
  have valid : ¬ (t = 0 ∨ t = Int32.minValue) := by
    rintro (rfl | rfl)
    · change (0 : Int).natAbs = _ at same
      omega
    · change (-2147483648 : Int).natAbs = _ at same
      omega
  unfold ofSigned
  rw [if_neg valid, same, eq_of_ofSigned read]

theorem toInt_neg_of_ofSigned : (-s).toInt = -s.toInt := by
  obtain ⟨-, least⟩ := valid_of_ofSigned read
  have lower : -2147483648 ≤ s.toInt := Int32.minValue_le_toInt s
  have upper : s.toInt < 2147483648 := Int32.toInt_lt s
  rw [Int32.toInt_neg]
  exact Int.bmod_eq_of_le (by omega) (by omega)

/-- The opposite number stands for the opposite literal. -/
theorem ofSigned_neg : ofSigned (-s) = .ok k.neg := by
  have opposite := toInt_neg_of_ofSigned read
  obtain ⟨nonzero, -⟩ := valid_of_ofSigned read
  have sign : decide (0 < -s) = !k.positive := by
    rw [eq_of_ofSigned read, ← decide_not, decide_eq_decide, Int32.lt_iff_toInt_lt,
      Int32.lt_iff_toInt_lt, opposite]
    change 0 < -s.toInt ↔ ¬ 0 < s.toInt
    omega
  rw [ofSigned_of_natAbs read (by rw [opposite, Int.natAbs_neg]), sign]
  rfl

/-- The magnitude stands for the positive literal. -/
theorem ofSigned_abs : ofSigned s.abs = .ok ⟨k.var, true⟩ := by
  obtain ⟨nonzero, least⟩ := valid_of_ofSigned read
  have magnitude : s.abs.toInt = s.toInt.natAbs := by
    change s.abs.toBitVec.toInt = _
    rw [Int32.toBitVec_abs]
    refine BitVec.toInt_abs_eq_natAbs_of_ne_intMin fun extreme => least ?_
    change s.toBitVec.toInt = _
    rw [extreme]
    rfl
  have sign : 0 < s.abs := by
    rw [Int32.lt_iff_toInt_lt, magnitude]
    change (0 : Int) < _
    omega
  rw [ofSigned_of_natAbs read (by rw [magnitude, Int.natAbs_natCast]), decide_eq_true sign]

end

variable {l : Literal Nat} (named : l.var < 2147483647)

include named

theorem toInt_toSigned :
    l.toSigned.toInt = if l.positive then (l.var + 1 : Int) else -(l.var + 1 : Int) := by
  unfold toSigned
  refine Int32.toInt_ofInt_of_le ?_ ?_
  · split <;> omega
  · split <;> omega

theorem toSigned_ne_zero : l.toSigned ≠ 0 := by
  intro zero
  have value := toInt_toSigned named
  rw [zero] at value
  change 0 = _ at value
  split at value <;> omega

theorem ofSigned_toSigned : ofSigned l.toSigned = .ok l := by
  have value := toInt_toSigned named
  have least : l.toSigned ≠ Int32.minValue := by
    intro least
    rw [least] at value
    change -2147483648 = _ at value
    split at value <;> omega
  have sign : 0 < l.toSigned ↔ l.positive = true := by
    rw [Int32.lt_iff_toInt_lt, value]
    change 0 < _ ↔ _
    split
    · next positive => exact iff_of_true (by omega) positive
    · next negative => exact iff_of_false (by omega) negative
  have magnitude : l.toSigned.toInt.natAbs - 1 = l.var := by
    rw [value]
    split <;> omega
  rw [ofSigned, if_neg (not_or.2 ⟨toSigned_ne_zero named, least⟩), magnitude]
  simp [sign]

end Literal

end IncrementalSat

import IncrementalSat.Branching.Order
import IncrementalSat.Proofs.Branching.Division

/-!
# Scaling keeps the order

A double is a sign and a magnitude, which is the exponent followed by the digits. Within one sign
the order of the scores is that of their magnitudes or its reverse, so division by a positive number
keeps the order if it keeps signs and never makes a smaller magnitude the greater one. It does not:
a greater fraction is not rounded to a smaller number, and does not take fewer doublings either.
-/
namespace IncrementalSat

open Float.Model (Format UnpackedFloat)
open Float.Model.UnpackedFloat

namespace Double

/-! ## Magnitudes -/

theorem toNat_unpackMantissa (b : BitVec 64) :
    (@unpackMantissa Format.binary64 b).toNat = b.toNat % 2 ^ 52 := by
  simp [unpackMantissa]

theorem toNat_unpackExponent (b : BitVec 64) :
    (@unpackExponent Format.binary64 b).toNat = b.toNat / 2 ^ 52 % 2 ^ 11 := by
  simp [unpackExponent, Nat.shiftRight_eq_div_pow]

theorem toNat_unpackSign (b : BitVec 64) :
    (@unpackSign Format.binary64 b).toNat = b.toNat / 2 ^ 63 := by
  have := b.isLt
  simp [unpackSign, Nat.shiftRight_eq_div_pow]
  omega

/-- What the bits of a double say. -/
inductive Fields (b : BitVec 64) : Prop
  | notANumber (value : unpack Format.binary64 b = .notANumber)
      (bits : b.toNat = 2047 * 2 ^ 52 + 2 ^ 51)
  | infinity (s : Sign) (value : unpack Format.binary64 b = .infinity s)
      (bits : b.toNat = s.toBitVec.toNat * 2 ^ 63 + 2047 * 2 ^ 52)
  | zero (s : Sign) (value : unpack Format.binary64 b = .zero s)
      (bits : b.toNat = s.toBitVec.toNat * 2 ^ 63)
  | finite (s : Sign) {m i : Nat} {pos : 0 < m}
      (value : unpack Format.binary64 b = .finite s m (i - 1074) pos) (high : m < 2 ^ 53)
      (low : 2 ^ 52 ≤ m ∨ i = 0) (finite : i * 2 ^ 52 + m < 2047 * 2 ^ 52)
      (bits : b.toNat = s.toBitVec.toNat * 2 ^ 63 + (i * 2 ^ 52 + m))

theorem toBitVec_ofBitVec (b : BitVec 1) : (Sign.ofBitVec b).toBitVec = b := by
  revert b
  decide

section

variable {b : BitVec 64}

theorem exists_sign (b : BitVec 64) : ∃ s : Sign,
    Sign.ofBitVec (@unpackSign Format.binary64 b) = s ∧ s.toBitVec.toNat = b.toNat / 2 ^ 63 :=
  ⟨_, rfl, by rw [toBitVec_ofBitVec, toNat_unpackSign]⟩

theorem fields_of_top (valid : Format.binary64.Valid b)
    (top : @unpackExponent Format.binary64 b = -1#11) : Fields b := by
  obtain ⟨s, sign, bit⟩ := exists_sign b
  have full : b.toNat / 2 ^ 52 % 2 ^ 11 = 2047 := by
    rw [← toNat_unpackExponent b, top]
    decide
  by_cases none : @unpackMantissa Format.binary64 b = 0#52
  · have empty : b.toNat % 2 ^ 52 = 0 := by
      rw [← toNat_unpackMantissa b, none]
      rfl
    refine .infinity s ?_ (by omega)
    simp only [unpack, top, none, sign, if_true]
  · refine .notANumber ?_ ?_
    · simp only [unpack, top, none, if_true, if_false]
    · rw [valid.eq_packedNaN top none]
      decide

/-- The least exponent is the next one as well, without the leading digit. -/
theorem fields_of_bottom (bottom : @unpackExponent Format.binary64 b = 0#11) : Fields b := by
  obtain ⟨s, sign, bit⟩ := exists_sign b
  have bias : ((Format.binary64.exponentBias : Nat) + (52 : Nat) : Int) = 1075 := rfl
  have below : ¬ @unpackExponent Format.binary64 b = -1#11 := by
    rw [bottom]
    decide
  have low : b.toNat / 2 ^ 52 % 2 ^ 11 = 0 := by
    rw [← toNat_unpackExponent b, bottom]
    rfl
  by_cases none : @unpackMantissa Format.binary64 b = 0#52
  · have empty : b.toNat % 2 ^ 52 = 0 := by
      rw [← toNat_unpackMantissa b, none]
      rfl
    refine .zero s ?_ (by omega)
    rw [unpack]
    dsimp only
    rw [if_neg below, if_pos bottom, dif_pos none, sign]
  · have some : 0 < b.toNat % 2 ^ 52 := by
      rw [← toNat_unpackMantissa b]
      exact Nat.pos_of_ne_zero fun zero => none (BitVec.eq_of_toNat_eq zero)
    have value : unpack Format.binary64 b =
        .finite s (b.toNat % 2 ^ 52) ((0 : Nat) - 1074) some := by
      rw [unpack]
      dsimp only
      rw [if_neg below, if_pos bottom, dif_neg none]
      congr 1
      rw [bias, bottom]
      rfl
    exact .finite s value (by omega) (.inr rfl) (by omega) (by omega)

theorem fields_of_inner (below : ¬ @unpackExponent Format.binary64 b = -1#11)
    (above : ¬ @unpackExponent Format.binary64 b = 0#11) : Fields b := by
  obtain ⟨s, sign, bit⟩ := exists_sign b
  have bias : ((Format.binary64.exponentBias : Nat) + (52 : Nat) : Int) = 1075 := rfl
  have exponent := toNat_unpackExponent b
  have short : b.toNat / 2 ^ 52 % 2 ^ 11 ≠ 2047 := fun same =>
    below (BitVec.eq_of_toNat_eq (exponent.trans same))
  have positive : 0 < b.toNat / 2 ^ 52 % 2 ^ 11 := by
    rw [← exponent]
    exact Nat.pos_of_ne_zero fun zero => above (BitVec.eq_of_toNat_eq zero)
  have full : (1#1 ++ @unpackMantissa Format.binary64 b).toNat = 2 ^ 52 + b.toNat % 2 ^ 52 := by
    rw [← toNat_unpackMantissa b]
    exact toNat_append _ _
  have value : unpack Format.binary64 b = .finite s (2 ^ 52 + b.toNat % 2 ^ 52)
      ((b.toNat / 2 ^ 52 % 2 ^ 11 - 1 : Nat) - 1074) (by omega) := by
    rw [unpack]
    dsimp only
    rw [if_neg below, if_neg above]
    congr 1
    rw [bias, exponent]
    omega
  exact .finite s value (by omega) (.inl (by omega)) (by omega) (by omega)

theorem fields_of_valid (valid : Format.binary64.Valid b) : Fields b := by
  by_cases top : @unpackExponent Format.binary64 b = -1#11
  · exact fields_of_top valid top
  · by_cases bottom : @unpackExponent Format.binary64 b = 0#11
    · exact fields_of_bottom bottom
    · exact fields_of_inner top bottom

end

/-- The magnitude of a double next to that of the quotient by `c`. -/
inductive Shrinks (c : Nat) : Nat → Nat → Prop
  | finite {m i k : Nat} (high : m < 2 ^ 53) (low : 2 ^ 52 ≤ m ∨ i = 0)
      (finite : i * 2 ^ 52 + m < 2047 * 2 ^ 52) (below : m * 2 ^ i < 2 ^ 53 * (c * 2 ^ k))
      (enough : k = 0 ∨ 2 ^ 52 * (c * 2 ^ k) ≤ m * 2 ^ i) :
      Shrinks c (i * 2 ^ 52 + m)
        (min (k * 2 ^ 52 + nearest (m * 2 ^ i) (c * 2 ^ k)) (2047 * 2 ^ 52))
  | infinite : Shrinks c (2047 * 2 ^ 52) (2047 * 2 ^ 52)
  | notANumber : Shrinks c (2047 * 2 ^ 52 + 2 ^ 51) (2047 * 2 ^ 52 + 2 ^ 51)

/-- A greater magnitude is that of a greater number. -/
theorem scaled_le {m m' i i' : Nat} (high : m < 2 ^ 53) (low : 2 ^ 52 ≤ m ∨ i = 0)
    (low' : 2 ^ 52 ≤ m' ∨ i' = 0) (high' : m' < 2 ^ 53) (le : i * 2 ^ 52 + m ≤ i' * 2 ^ 52 + m') :
    m * 2 ^ i ≤ m' * 2 ^ i' := by
  rcases Nat.lt_trichotomy i i' with less | rfl | more
  · calc m * 2 ^ i ≤ 2 ^ 53 * 2 ^ i := Nat.mul_le_mul_right _ (Nat.le_of_lt high)
      _ = 2 ^ 52 * 2 ^ (i + 1) := by ring
      _ ≤ 2 ^ 52 * 2 ^ i' := Nat.mul_le_mul_left _ (Nat.pow_le_pow_right (by decide) less)
      _ ≤ m' * 2 ^ i' := Nat.mul_le_mul_right _ (low'.resolve_right (by omega))
  · exact Nat.mul_le_mul_right _ (by omega)
  · omega

theorem rounded_le {c n n' k k' : Nat} (pos : 0 < c) (le : n ≤ n')
    (below : n < 2 ^ 53 * (c * 2 ^ k)) (enough : k = 0 ∨ 2 ^ 52 * (c * 2 ^ k) ≤ n)
    (below' : n' < 2 ^ 53 * (c * 2 ^ k')) (enough' : k' = 0 ∨ 2 ^ 52 * (c * 2 ^ k') ≤ n') :
    k * 2 ^ 52 + nearest n (c * 2 ^ k) ≤ k' * 2 ^ 52 + nearest n' (c * 2 ^ k') := by
  have divisor : ∀ k, 0 < c * 2 ^ k := fun k => Nat.mul_pos pos (Nat.two_pow_pos k)
  have most : nearest n (c * 2 ^ k) ≤ 2 ^ 53 := by
    rw [← nearest_one (2 ^ 53)]
    exact nearest_le (divisor k) Nat.one_pos (by omega)
  rcases Nat.lt_trichotomy k k' with less | rfl | more
  · have least : 2 ^ 52 ≤ nearest n' (c * 2 ^ k') := by
      rw [← nearest_one (2 ^ 52)]
      exact nearest_le Nat.one_pos (divisor k') (by omega)
    omega
  · exact Nat.add_le_add_left (nearest_le (divisor k) (divisor k) (Nat.mul_le_mul_right _ le)) _
  · have : 2 ^ 53 * (c * 2 ^ k') ≤ 2 ^ 52 * (c * 2 ^ k) := by
      calc 2 ^ 53 * (c * 2 ^ k') = 2 ^ 52 * (c * 2 ^ (k' + 1)) := by ring
        _ ≤ 2 ^ 52 * (c * 2 ^ k) :=
          Nat.mul_le_mul_left _ (Nat.mul_le_mul_left _ (Nat.pow_le_pow_right (by decide) more))
    omega

theorem Shrinks.mono {c a a' b b' : Nat} (pos : 0 < c) (ha : Shrinks c a a') (hb : Shrinks c b b')
    (le : a ≤ b) : a' ≤ b' := by
  cases ha with
  | finite high low finite below enough =>
    cases hb with
    | finite high' low' finite' below' enough' =>
      have := rounded_le pos (scaled_le high low low' high' le) below enough below' enough'
      exact min_le_min_right _ this
    | infinite => exact min_le_right ..
    | notANumber => exact (min_le_right ..).trans (Nat.le_add_right ..)
  | infinite =>
    cases hb with
    | finite high' low' finite' below' enough' => omega
    | infinite => exact le
    | notANumber => exact le
  | notANumber =>
    cases hb with
    | finite high' low' finite' below' enough' => omega
    | infinite => exact le
    | notANumber => exact le

theorem Shrinks.lt {c a a' : Nat} (h : Shrinks c a a') : a < 2 ^ 63 ∧ a' < 2 ^ 63 := by
  cases h <;> constructor <;> omega

/-- A double and its quotient have the same sign. -/
theorem exists_shrinks {y : Float} {d c : Nat} {pos : 0 < d}
    (divisor : y.toModel.unpack = .finite .positive d c pos) (x : Float) :
    ∃ s : Sign, ∃ a a', x.toBits.toNat = s.toBitVec.toNat * 2 ^ 63 + a ∧
      (x / y).toBits.toNat = s.toBitVec.toNat * 2 ^ 63 + a' ∧ Shrinks (d * 2 ^ c) a a' := by
  have quotient : ∀ {u}, unpack Format.binary64 x.toBits.toBitVec = u →
      (x / y).toBits.toNat =
        (pack Format.binary64 (div Format.binary64 u (.finite .positive d c pos))).toNat := by
    rintro _ rfl
    rw [← divisor]
    rfl
  have sign : ∀ s : Sign, s / .positive = s := fun s => by cases s <;> rfl
  cases fields_of_valid (b := x.toBits.toBitVec) x.toModel.valid with
  | notANumber value bits =>
    refine ⟨.positive, _, _, bits.trans (by decide), ?_, .notANumber⟩
    rw [quotient value, div]
    decide
  | infinity s value bits =>
    refine ⟨s, _, _, bits, ?_, .infinite⟩
    rw [quotient value, div, sign, pack, toNat_packedInfinity]
  | zero s value bits =>
    have none : nearest (0 * 2 ^ 0) (d * 2 ^ c * 2 ^ 0) = 0 := by simp [nearest]
    have shrinks : Shrinks (d * 2 ^ c) (0 * 2 ^ 52 + 0) _ :=
      .finite (k := 0) (by decide) (.inr rfl) (by decide) (by simp [pos]) (.inl rfl)
    refine ⟨s, _, _, bits.trans (by omega), ?_, shrinks⟩
    rw [quotient value, div, sign, pack, toNat_packedZero, none]
    omega
  | @finite s m i pos' value high low finite bits =>
    obtain ⟨k, result, below, enough⟩ := div_spec (s := s) (i := i) (c := c) pos' pos
    exact ⟨s, _, _, bits, (quotient value).trans result, .finite high low finite below enough⟩

end Double

namespace Score

theorem toNat_rank {x : Float} {s : Sign} {a : Nat}
    (bits : x.toBits.toNat = s.toBitVec.toNat * 2 ^ 63 + a) (small : a < 2 ^ 63) :
    (rank x).toNat = match s with
      | .positive => 2 ^ 63 + a
      | .negative => 2 ^ 63 - 1 - a := by
  have cut : x.toBits < signBit ↔ x.toBits.toNat < 2 ^ 63 := UInt64.lt_iff_toNat_lt
  unfold rank
  dsimp only
  cases s with
  | positive =>
    have magnitude : x.toBits.toNat = a := by
      rw [bits]
      exact (congrArg (· + a) (Nat.zero_mul _)).trans (Nat.zero_add a)
    rw [if_pos (cut.2 (by omega)), UInt64.toNat_or, magnitude, Nat.or_comm]
    have := Nat.two_pow_add_eq_or_of_lt small 1
    rw [Nat.mul_one] at this
    exact this.symm
  | negative =>
    have magnitude : x.toBits.toNat = 2 ^ 63 + a := by
      rw [bits]
      exact congrArg (· + a) (Nat.one_mul _)
    rw [if_neg (mt cut.1 (by omega)), UInt64.toNat_not, magnitude]
    change 2 ^ 64 - 1 - (2 ^ 63 + a) = 2 ^ 63 - 1 - a
    omega

/-- Division by a positive number that is not below one keeps the order. -/
theorem le_div {y : Float} {d c : Nat} {pos : 0 < d}
    (divisor : y.toModel.unpack = .finite .positive d c pos) {x x' : Float} (h : le x x' = true) :
    le (x / y) (x' / y) = true := by
  obtain ⟨s, a, b, value, quotient, shrinks⟩ := Double.exists_shrinks divisor x
  obtain ⟨s', a', b', value', quotient', shrinks'⟩ := Double.exists_shrinks divisor x'
  have up := shrinks.mono (by positivity) shrinks'
  have down := shrinks'.mono (by positivity) shrinks
  obtain ⟨small, small_quotient⟩ := shrinks.lt
  obtain ⟨small', small_quotient'⟩ := shrinks'.lt
  rw [le_iff, UInt64.le_iff_toNat_le] at h ⊢
  rw [toNat_rank value small, toNat_rank value' small'] at h
  rw [toNat_rank quotient small_quotient, toNat_rank quotient' small_quotient']
  cases s <;> cases s' <;> simp only at h ⊢ <;> omega

theorem toBits_threshold : BranchingOrder.threshold.toBits = 0x54B249AD2594C37D := by
  decide +kernel

theorem unpack_threshold : ∃ pos, BranchingOrder.threshold.toModel.unpack =
    .finite .positive 5147557589468029 280 pos := by
  refine ⟨by decide, ?_⟩
  change unpack Format.binary64 BranchingOrder.threshold.toBits.toBitVec = _
  rw [toBits_threshold]
  rfl

/-- Scaling down keeps the order of the scores. -/
theorem le_div_threshold (x y : Float) (h : le x y = true) :
    le (x / BranchingOrder.threshold) (y / BranchingOrder.threshold) = true := by
  obtain ⟨pos, divisor⟩ := unpack_threshold
  exact le_div divisor h

end Score

end IncrementalSat

import IncrementalSat.Engine.Solve
import Mathlib

/-!
# The limit of learnt clauses

A limit is at least the least one, or infinite. Raising a finite limit by a tenth makes it larger,
so a limit can be raised fewer than `2 ^ 64` times before it is infinite. A number of clauses never
reaches an infinite limit.

A double is a mantissa of 53 digits and an exponent. A product is rounded to the digits that it
has, and becomes infinite if its exponent does not fit.
-/
namespace IncrementalSat

open Float.Model (Format UnpackedFloat totalExponent)
open Float.Model.UnpackedFloat

/-! ## Packing -/

theorem toNat_append {k l : Nat} (x : BitVec k) (y : BitVec l) :
    (x ++ y).toNat = x.toNat * 2 ^ l + y.toNat := by
  rw [BitVec.toNat_append, ← Nat.shiftLeft_add_eq_or_of_lt y.isLt, Nat.shiftLeft_eq]

theorem sign_of_packComponents (s : Sign) (exponent : BitVec 11) (mantissa : BitVec 52) :
    Sign.ofBitVec (unpackSign (packComponents Format.binary64 s exponent mantissa)) = s := by
  have field : unpackSign (packComponents Format.binary64 s exponent mantissa) = s.toBitVec := by
    apply BitVec.eq_of_toNat_eq
    have := exponent.isLt
    have := mantissa.isLt
    have := s.toBitVec.isLt
    simp only [unpackSign, packComponents, BitVec.toNat_cast, BitVec.extractLsb_toNat,
      Nat.shiftRight_eq_div_pow]
    rw [toNat_append, toNat_append]
    omega
  rw [field]
  cases s <;> rfl

/-- A number with all its digits survives packing. -/
theorem unpack_pack_of_fits {s : Sign} {m : Nat} {e : Int} (pos : 0 < m) (low : 2 ^ 52 ≤ m)
    (high : m < 2 ^ 53) (least : -1074 ≤ e) (most : e ≤ 971) :
    unpack Format.binary64 (pack Format.binary64 (.finite s m e pos)) = .finite s m e pos := by
  have digits : m.log2 = 52 := (Nat.log2_eq_iff (by omega)).2 ⟨low, high⟩
  obtain ⟨k, biased⟩ : ∃ k : Nat, e + 1075 = k := ⟨(e + 1075).toNat, by omega⟩
  have biased' : (e + (Format.binary64.exponentBias : Nat) + (52 : Nat)).toNat = k := by
    simp [Format.exponentBias]
    omega
  have field : (BitVec.ofNat 11 k).toNat = k := by
    rw [BitVec.toNat_ofNat]
    omega
  have mantissa : (1#1 ++ BitVec.ofNat 52 m).toNat = m := by
    rw [toNat_append]
    change 1 * 2 ^ 52 + m % 2 ^ 52 = m
    omega
  have finite : BitVec.ofNat 11 k ≠ -1#11 := by
    intro same
    have := congrArg BitVec.toNat same
    rw [field] at this
    change k = 2047 at this
    omega
  have normal : BitVec.ofNat 11 k ≠ 0#11 := by
    intro same
    have := congrArg BitVec.toNat same
    rw [field] at this
    change k = 0 at this
    omega
  rw [pack]
  dsimp only
  rw [biased', if_neg (by omega), digits, if_pos (by rfl), unpack]
  simp only [sign_of_packComponents, unpackExponent_packComponents,
    unpackMantissa_packComponents, finite, normal, if_false, mantissa, field]
  congr 1
  simp [Format.exponentBias]
  omega

theorem unpack_pack_of_overflows {s : Sign} {m : Nat} {e : Int} (pos : 0 < m) (most : 971 < e) :
    unpack Format.binary64 (pack Format.binary64 (.finite s m e pos)) = .infinity s := by
  have large : 2 ^ 11 ≤ (e + (Format.binary64.exponentBias : Nat) + (52 : Nat)).toNat + 1 := by
    simp [Format.exponentBias]
    omega
  rw [pack]
  dsimp only
  rw [if_pos large, packedInfinity, unpack]
  simp

theorem digits_of_unpack {b : BitVec 64} {s : Sign} {m : Nat} {e : Int} {pos : 0 < m}
    (h : unpack Format.binary64 b = .finite s m e pos) :
    m < 2 ^ 53 ∧ e ≤ 971 ∧ (2 ^ 52 ≤ m ∨ e = -1074) := by
  have bias : ((Format.binary64.exponentBias : Nat) + (52 : Nat) : Int) = 1075 := rfl
  have small : (@unpackMantissa Format.binary64 b).toNat < 2 ^ 52 := BitVec.isLt _
  have field : (@unpackExponent Format.binary64 b).toNat < 2 ^ 11 := BitVec.isLt _
  have full : (1#1 ++ @unpackMantissa Format.binary64 b).toNat =
      2 ^ 52 + (@unpackMantissa Format.binary64 b).toNat := toNat_append _ _
  rw [unpack] at h
  split at h
  · split at h <;> cases h
  · next finite =>
    have short : (@unpackExponent Format.binary64 b).toNat ≠ 2047 := by
      intro same
      exact finite (BitVec.eq_of_toNat_eq same)
    split at h
    · next zero =>
      split at h
      · cases h
      · rw [UnpackedFloat.finite.injEq, bias, zero] at h
        obtain ⟨-, rfl, rfl⟩ := h
        exact ⟨by omega, by decide, .inr rfl⟩
    · rw [UnpackedFloat.finite.injEq, bias] at h
      obtain ⟨-, rfl, rfl⟩ := h
      omega

/-! ## Rounding -/

theorem mantissa_shiftRight (em : ExtendedMantissa) (k : Nat) :
    (em >>> k).mantissa = em.mantissa / 2 ^ k := by
  change (k.repeat ExtendedMantissa.shiftRightOne em).mantissa = _
  induction k with
  | zero => simp [Nat.repeat]
  | succ k ih =>
    change (k.repeat ExtendedMantissa.shiftRightOne em).mantissa / 2 = _
    rw [ih, Nat.div_div_eq_div_mul, Nat.pow_succ]

theorem roundedMantissa_eq (em : ExtendedMantissa) :
    em.roundedMantissa = em.mantissa ∨ em.roundedMantissa = em.mantissa + 1 := by
  obtain ⟨m, round, sticky⟩ := em
  cases round <;> cases sticky
  · exact .inl rfl
  · exact .inl rfl
  · change m + m % 2 = m ∨ m + m % 2 = m + 1
    omega
  · exact .inr rfl

theorem shiftToTargetExponent_exact {m : Nat} {e : Int} {k : Nat}
    (shift : Format.binary64.targetExponent (totalExponent m e) = e + k) :
    (shiftToTargetExponent Format.binary64 m e .exact).1.mantissa = m / 2 ^ k ∧
      (shiftToTargetExponent Format.binary64 m e .exact).2 = e + k := by
  have amount : (e + (k : Int) - e).toNat = k := by omega
  unfold shiftToTargetExponent shiftToExponent
  dsimp only
  rw [shift, amount, mantissa_shiftRight]
  exact ⟨rfl, rfl⟩

theorem targetExponent_eq {m d : Nat} {e : Int} (digits : m.log2 = 52 + d) (least : -1074 ≤ e + d) :
    Format.binary64.targetExponent (totalExponent m e) = e + d := by
  simp only [Format.targetExponent, totalExponent, Format.mantissaBits, Format.minExponent, digits]
  omega

/-- Rounding keeps 53 digits and does not fall below them. -/
theorem roundWithAccuracy_spec {s : Sign} {m d : Nat} {e : Int} (digits : m.log2 = 52 + d)
    (least : -1074 ≤ e + d) :
    ∃ m' e' pos, roundWithAccuracy Format.binary64 s m e .exact = .finite s m' e' pos ∧
      2 ^ 52 ≤ m' ∧ m' < 2 ^ 53 ∧ (e' = e + d ∧ m / 2 ^ d ≤ m' ∨ e' = e + d + 1) := by
  have nonzero : m ≠ 0 := by
    rintro rfl
    simp at digits
    omega
  obtain ⟨low, high⟩ := (Nat.log2_eq_iff nonzero).1 digits
  obtain ⟨kept, exponent⟩ := shiftToTargetExponent_exact (targetExponent_eq digits least)
  have low' : 2 ^ 52 ≤ m / 2 ^ d := by
    rw [Nat.le_div_iff_mul_le (Nat.two_pow_pos d), ← Nat.pow_add]
    exact low
  have high' : m / 2 ^ d < 2 ^ 53 := by
    rw [Nat.div_lt_iff_lt_mul (Nat.two_pow_pos d), ← Nat.pow_add]
    exact Nat.lt_of_lt_of_eq high (by congr 1; omega)
  have rounded := roundedMantissa_eq (shiftToTargetExponent Format.binary64 m e .exact).1
  rw [kept] at rounded
  obtain ⟨r, r_eq⟩ : ∃ r, r =
    (shiftToTargetExponent Format.binary64 m e .exact).1.roundedMantissa := ⟨_, rfl⟩
  rw [← r_eq] at rounded
  have final : ∃ k, (k = 0 ∧ r < 2 ^ 53 ∨ k = 1 ∧ r = 2 ^ 53) ∧ r.log2 = 52 + k := by
    rcases Nat.lt_or_ge r (2 ^ 53) with below | above
    · exact ⟨0, .inl ⟨rfl, below⟩, (Nat.log2_eq_iff (by omega)).2 ⟨by omega, by omega⟩⟩
    · exact ⟨1, .inr ⟨rfl, by omega⟩, (Nat.log2_eq_iff (by omega)).2 ⟨by omega, by omega⟩⟩
  obtain ⟨k, which, digits'⟩ := final
  have again := shiftToTargetExponent_exact (m := r) (e := e + d) (k := k)
    (targetExponent_eq digits' (by omega))
  have value : roundWithAccuracy Format.binary64 s m e .exact =
      if h : r / 2 ^ k = 0 then .zero s
      else .finite s (r / 2 ^ k) (e + d + k) (Nat.pos_of_ne_zero h) := by
    unfold roundWithAccuracy
    simp only [exponent, ← r_eq, again.1, again.2]
  rw [value]
  rcases which with ⟨rfl, below⟩ | ⟨rfl, full⟩
  · rw [Nat.pow_zero, Nat.div_one, dif_neg (by omega)]
    exact ⟨_, _, _, rfl, by omega, below, .inl ⟨by omega, by omega⟩⟩
  · rw [full, dif_neg (by decide)]
    exact ⟨_, _, _, rfl, by decide, by decide, .inr (by omega)⟩

/-! ## Limits -/

/-- A limit of learnt clauses is positive infinity, or a finite number that is not too small. -/
inductive Limit (x : Float) : Prop where
  | infinite (value : x.toModel.unpack = .infinity .positive)
  | finite {m : Nat} {e : Int} {pos : 0 < m} (value : x.toModel.unpack = .finite .positive m e pos)
    (low : 2 ^ 52 ≤ m) (high : m < 2 ^ 53) (least : -46 ≤ e) (most : e ≤ 971)

/-- How often a limit can still grow. -/
def limitRoom (x : Float) : Nat :=
  match x.toModel.unpack with
  | .finite _ m e _ => ((972 - e) * 2 ^ 53 - m).toNat
  | _ => 0

theorem unpack_minLearnts : ∃ pos, Engine.minLearnts.toModel.unpack =
    .finite .positive 7036874417766400 (-46) pos := ⟨by decide, by rfl⟩

theorem unpack_tenth : ∃ pos, (1.1 : Float).toModel.unpack =
    .finite .positive 4953959590107546 (-52) pos := ⟨by decide, by rfl⟩

theorem limit_minLearnts : Limit Engine.minLearnts := by
  obtain ⟨pos, value⟩ := unpack_minLearnts
  exact .finite value (by decide) (by decide) (by decide) (by decide)

/-- A limit above the least one. -/
theorem Limit.of_gt {x : Float} (h : x > Engine.minLearnts) : Limit x := by
  obtain ⟨pos, least⟩ := unpack_minLearnts
  have above : UnpackedFloat.lt Engine.minLearnts.toModel.unpack x.toModel.unpack = true := by
    have order : decide (Engine.minLearnts.toModel < x.toModel) = true := h
    rwa [decide_eq_true_eq] at order
  rw [least, UnpackedFloat.lt] at above
  cases value : x.toModel.unpack with
  | infinity s =>
    cases s with
    | positive => exact .infinite value
    | negative =>
      rw [value] at above
      cases above
  | notANumber =>
    rw [value] at above
    cases above
  | zero s =>
    rw [value] at above
    cases above
  | finite s m e pos' =>
    rw [value] at above
    cases s with
    | negative => cases above
    | positive =>
      obtain ⟨high, most, low⟩ := digits_of_unpack value
      have order : (compare (-46) e).then (compare 7036874417766400 m) = .lt := by
        simpa [UnpackedFloat.compare] using above
      have least : -46 ≤ e := by
        rw [Ordering.then_eq_lt] at order
        rcases order with less | ⟨same, -⟩
        · exact Int.le_of_lt (Int.compare_eq_lt.1 less)
        · exact Int.le_of_eq (Int.compare_eq_eq.1 same)
      exact .finite value (low.resolve_right (by omega)) high least most

theorem limitRoom_lt {x : Float} (h : Limit x) : limitRoom x < 2 ^ 64 := by
  cases h with
  | infinite value =>
    rw [limitRoom, value]
    decide
  | finite value low high least most =>
    rw [limitRoom, value]
    dsimp only
    omega

/-- Whatever the ratio, a search starts with a limit. -/
theorem limit_initial {n : Nat} (e : Engine n) : Limit e.initialLearntLimit := by
  unfold Engine.initialLearntLimit
  dsimp only
  split
  · next above => exact .of_gt above
  · exact limit_minLearnts

/-- Raising a finite limit by a tenth makes it larger. -/
theorem Limit.raise {x : Float} (h : Limit x) (finite : x.toModel.unpack ≠ .infinity .positive) :
    Limit (x * 1.1) ∧ limitRoom (x * 1.1) < limitRoom x := by
  cases h with
  | infinite value => exact absurd value finite
  | @finite m e pos value low high least most =>
    obtain ⟨pos', tenth⟩ := unpack_tenth
    have product : (x * 1.1).toModel.unpack = unpack Format.binary64 (pack Format.binary64
        (roundWithAccuracy Format.binary64 .positive (m * 4953959590107546) (e + -52) .exact)) := by
      change unpack Format.binary64 (pack Format.binary64
        (UnpackedFloat.mul Format.binary64 x.toModel.unpack (1.1 : Float).toModel.unpack)) = _
      rw [value, tenth]
      rfl
    obtain ⟨d, which, digits⟩ : ∃ d, (d = 52 ∨ d = 53) ∧
        (m * 4953959590107546).log2 = 52 + d := by
      rcases Nat.lt_or_ge (m * 4953959590107546) (2 ^ 105) with below | above
      · exact ⟨52, .inl rfl, (Nat.log2_eq_iff (by omega)).2 ⟨by omega, by omega⟩⟩
      · exact ⟨53, .inr rfl, (Nat.log2_eq_iff (by omega)).2 ⟨by omega, by omega⟩⟩
    obtain ⟨m', e', pos', rounded, low', high', grown⟩ :=
      roundWithAccuracy_spec (s := .positive) digits (e := e + -52) (by omega)
    rw [rounded] at product
    have room : limitRoom x = ((972 - e) * 2 ^ 53 - m).toNat := by rw [limitRoom, value]
    rw [room]
    by_cases overflows : 971 < e'
    · rw [unpack_pack_of_overflows pos' overflows] at product
      refine ⟨.infinite product, ?_⟩
      rw [limitRoom, product]
      dsimp only
      omega
    · rw [unpack_pack_of_fits pos' low' high' (by omega) (by omega)] at product
      refine ⟨.finite product low' high' (by omega) (by omega), ?_⟩
      rw [limitRoom, product]
      dsimp only
      rcases which with rfl | rfl <;> omega

/-! ## Counts -/

theorem log2_shiftLeft {n : Nat} (nonzero : n ≠ 0) (k : Nat) : (n <<< k).log2 = n.log2 + k := by
  obtain ⟨low, high⟩ := (Nat.log2_eq_iff nonzero).1 rfl
  have scale := Nat.two_pow_pos k
  rw [Nat.shiftLeft_eq]
  refine (Nat.log2_eq_iff (Nat.mul_ne_zero nonzero (Nat.pos_iff_ne_zero.1 scale))).2 ⟨?_, ?_⟩
  · rw [Nat.pow_add]
    exact Nat.mul_le_mul_right _ low
  · rw [Nat.add_right_comm, Nat.pow_add]
    exact Nat.mul_lt_mul_of_pos_right high scale

/-- A positive number of 64 bits is rounded to a normal double. -/
theorem round_spec {n : Nat} (pos : 0 < n) (bound : n < 2 ^ 64) :
    ∃ m e pos', round Format.binary64 .positive n 0 = .finite .positive m e pos' ∧
      2 ^ 52 ≤ m ∧ m < 2 ^ 53 ∧ -1074 ≤ e ∧ e ≤ 971 := by
  have short : n.log2 < 64 := (Nat.log2_lt (by omega)).2 bound
  have target : Format.binary64.targetExponent (totalExponent n 0) = (n.log2 : Int) - 52 := by
    simp only [Format.targetExponent, totalExponent, Format.mantissaBits, Format.minExponent]
    omega
  have shifted : (n <<< (52 - n.log2)).log2 = 52 + (n.log2 - 52) := by
    rw [log2_shiftLeft (by omega)]
    omega
  have amount : (0 - ((n.log2 : Int) - 52)).toNat = 52 - n.log2 := by omega
  obtain ⟨m, e, pos', rounded, low, high, exponent⟩ :=
    roundWithAccuracy_spec (s := .positive) (e := 0 - ((52 - n.log2 : Nat) : Int)) shifted (by omega)
  refine ⟨m, e, pos', ?_, low, high, by omega, by omega⟩
  rw [← rounded, UnpackedFloat.round, decreaseExponent]
  simp only [target, amount]

/-- A count is never infinite. -/
theorem unpack_toFloat_ne (k : UInt64) : k.toFloat.toModel.unpack ≠ .infinity .positive := by
  change unpack Format.binary64 (pack Format.binary64
    (normalize Format.binary64 (k.toNat : Int) 0 .positive)) ≠ _
  rcases Nat.eq_zero_or_pos k.toNat with zero | positive
  · rw [zero]
    intro same
    cases same
  · obtain ⟨m, e, pos, rounded, low, high, least, most⟩ := round_spec positive k.toNat_lt
    have sign : compare (k.toNat : Int) 0 = .gt := Int.compare_eq_gt.2 (by omega)
    rw [UnpackedFloat.normalize, sign]
    change unpack Format.binary64 (pack Format.binary64
      (round Format.binary64 .positive k.toNat 0)) ≠ _
    rw [rounded, unpack_pack_of_fits pos low high least most]
    simp

/-- A limit that a count reaches is finite. -/
theorem finite_of_reached {k : UInt64} {x : Float} (h : k.toFloat ≥ x) :
    x.toModel.unpack ≠ .infinity .positive := by
  intro value
  have order : UnpackedFloat.le x.toModel.unpack k.toFloat.toModel.unpack = true := by
    have order : decide (x.toModel ≤ k.toFloat.toModel) = true := h
    rwa [decide_eq_true_eq] at order
  rw [value, UnpackedFloat.le] at order
  have small := unpack_toFloat_ne k
  cases count : k.toFloat.toModel.unpack with
  | infinity s =>
    cases s with
    | positive => exact small count
    | negative =>
      rw [count] at order
      cases order
  | notANumber =>
    rw [count] at order
    cases order
  | zero s =>
    rw [count] at order
    cases order
  | finite s m e pos =>
    rw [count] at order
    cases order

end IncrementalSat

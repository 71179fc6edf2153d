import IncrementalSat.Proofs.Search.Limit

/-!
# Quotients of doubles

A positive finite double is a multiple of the least one. Its quotient by a number `c` is found from
the fraction of that multiple over `c`: the denominator is doubled until the fraction is below
`2 ^ 53`, and what results is rounded to the nearest whole number, a half to the even one. This
number gives the digits, and how often the denominator was doubled gives the exponent. A greater
fraction is never rounded to a smaller number.
-/
namespace IncrementalSat

open Float.Model (Format UnpackedFloat totalExponent)
open Float.Model.UnpackedFloat

namespace Double

/-! ## Rounding a fraction -/

/-- A fraction rounded to the nearest number, a half to the even one. -/
def nearest (num den : Nat) : Nat :=
  (2 * num / den + if 2 * num % den = 0 then 2 * num / den / 2 % 2 else 1) / 2

theorem nearest_one (b : Nat) : nearest b 1 = b := by
  rw [nearest, Nat.mod_one, if_pos rfl, Nat.div_one, Nat.mul_div_cancel_left b (by decide)]
  omega

/-- A greater fraction is not rounded to a smaller number. -/
theorem nearest_le {num den num' den' : Nat} (pos : 0 < den) (pos' : 0 < den')
    (le : num * den' ≤ num' * den) : nearest num den ≤ nearest num' den' := by
  have split := Nat.div_add_mod (2 * num) den
  have split' := Nat.div_add_mod (2 * num') den'
  have small := Nat.mod_lt (2 * num) pos
  have small' := Nat.mod_lt (2 * num') pos'
  have halves : 2 * num / den ≤ 2 * num' / den' := by
    rw [Nat.le_div_iff_mul_le pos']
    refine Nat.le_of_mul_le_mul_right ?_ pos
    calc 2 * num / den * den' * den = 2 * num / den * den * den' := by ring
      _ ≤ 2 * num * den' := Nat.mul_le_mul_right _ (Nat.div_mul_le_self ..)
      _ = 2 * (num * den') := by ring
      _ ≤ 2 * (num' * den) := Nat.mul_le_mul_left _ le
      _ = 2 * num' * den := by ring
  have rest : 2 * num / den = 2 * num' / den' → 2 * num' % den' = 0 → 2 * num % den = 0 := by
    intro same exact
    rw [exact, Nat.add_zero] at split'
    by_contra left
    have less : 2 * num' * den < 2 * num * den' := by
      calc 2 * num' * den = 2 * num / den * (den * den') := by rw [← split', same]; ring
        _ < (2 * num / den * den + 2 * num % den) * den' := by nlinarith [Nat.pos_of_ne_zero left]
        _ = 2 * num * den' := by rw [Nat.div_add_mod']
    nlinarith
  -- With the same half the greater fraction is exact only if the other one is, so a tie that goes
  -- to the even number does not reverse the order.
  unfold nearest
  generalize 2 * num / den = h at *
  generalize 2 * num' / den' = h' at *
  rcases Nat.lt_or_eq_of_le halves with less | same
  · have up : ∀ q r : Nat, (if r = 0 then q % 2 else 1) ≤ 1 := by
      intro q r
      split <;> omega
    have := up (h / 2) (2 * num % den)
    omega
  · rw [same]
    by_cases exact : 2 * num' % den' = 0
    · rw [if_pos exact, if_pos (rest same exact)]
    · rw [if_neg exact]
      split <;> omega

/-- The mantissa is the whole part of the fraction, and the bits say what is left. -/
structure Reads (em : ExtendedMantissa) (num den : Nat) : Prop where
  whole : 2 * em.mantissa + em.roundBit.toNat = 2 * num / den
  sticky : em.stickyBit = true ↔ 2 * num % den ≠ 0

theorem Reads.rounded {em : ExtendedMantissa} {num den : Nat} (h : Reads em num den) :
    em.roundedMantissa = nearest num den := by
  obtain ⟨m, round, sticky⟩ := em
  obtain ⟨whole, left⟩ := h
  rw [nearest, ← whole]
  by_cases exact : 2 * num % den = 0
  · have none : sticky = false := by simpa [exact] using left
    subst none
    rw [if_pos exact]
    cases round
    · change m = (2 * m + 2 * m / 2 % 2) / 2
      omega
    · change m + m % 2 = (2 * m + 1 + (2 * m + 1) / 2 % 2) / 2
      rw [show (2 * m + 1) / 2 = m by omega]
      omega
  · have some : sticky = true := left.2 exact
    subst some
    rw [if_neg exact]
    cases round
    · change m = (2 * m + 1) / 2
      omega
    · change m + 1 = (2 * m + 1 + 1) / 2
      omega

theorem Reads.shiftRightOne {em : ExtendedMantissa} {num den : Nat} (h : Reads em num den) :
    Reads em.shiftRightOne num (den * 2) := by
  obtain ⟨m, round, sticky⟩ := em
  obtain ⟨whole, left⟩ := h
  simp only at whole left
  have quotient : 2 * num / (den * 2) = m := by
    rw [← Nat.div_div_eq_div_mul, ← whole]
    cases round
    · exact Nat.mul_div_cancel_left m (by decide)
    · change (2 * m + 1) / 2 = m
      omega
  constructor
  · change 2 * (m / 2) + (m % 2 != 0).toNat = _
    rw [quotient]
    rcases Nat.mod_two_eq_zero_or_one m with even | odd
    · rw [even]
      change 2 * (m / 2) + 0 = m
      omega
    · rw [odd]
      change 2 * (m / 2) + 1 = m
      omega
  · change (round || sticky) = true ↔ _
    rw [Nat.mod_mul, ← whole, Bool.or_eq_true, left]
    have half : (2 * m + round.toNat) % 2 = round.toNat := by
      cases round
      · exact Nat.mul_mod_right 2 m
      · change (2 * m + 1) % 2 = 1
        omega
    rw [half]
    cases round
    · simp
    · have pos : den ≠ 0 := by
        rintro rfl
        rw [Nat.div_zero] at whole
        cases whole
      simp [pos]

theorem Reads.shiftRight {em : ExtendedMantissa} {num den : Nat} (h : Reads em num den) (k : Nat) :
    Reads (em >>> k) num (den * 2 ^ k) := by
  change Reads (k.repeat ExtendedMantissa.shiftRightOne em) num (den * 2 ^ k)
  induction k with
  | zero => simpa [Nat.repeat] using h
  | succ k ih =>
    rw [Nat.pow_succ, ← Nat.mul_assoc]
    exact ih.shiftRightOne

theorem Reads.scale {em : ExtendedMantissa} {num den : Nat} (h : Reads em num den) {c : Nat}
    (pos : 0 < c) : Reads em (num * c) (den * c) where
  whole := by rw [← Nat.mul_assoc, Nat.mul_div_mul_right _ _ pos, h.whole]
  sticky := by
    rw [← Nat.mul_assoc, Nat.mul_mod_mul_right, h.sticky, Nat.mul_ne_zero_iff]
    exact (and_iff_left (Nat.pos_iff_ne_zero.1 pos)).symm

theorem reads_division (n : Nat) {d : Nat} (pos : 0 < d) :
    Reads (.ofMantissaAndAccuracy (n / d) (accuracyOfFraction (n % d) d)) n d := by
  have split := Nat.div_add_mod n d
  have small := Nat.mod_lt n pos
  generalize n % d = r at *
  generalize n / d = q at *
  subst split
  have double : 2 * (d * q + r) = 2 * r + d * (2 * q) := by ring
  unfold accuracyOfFraction
  constructor
  · rw [double, Nat.add_mul_div_left _ _ pos]
    split
    · next zero =>
      subst zero
      change 2 * q + 0 = 2 * 0 / d + 2 * q
      rw [Nat.mul_zero, Nat.zero_div, Nat.zero_add, Nat.add_zero]
    · next positive =>
      rcases Nat.lt_trichotomy (2 * r) d with less | same | more
      · rw [Nat.compare_eq_lt.2 less, Nat.div_eq_of_lt less, Nat.zero_add]
        rfl
      · rw [Nat.compare_eq_eq.2 same, same, Nat.div_self pos, Nat.add_comm]
        rfl
      · have one : 2 * r / d = 1 := Nat.div_eq_of_lt_le (by omega) (by omega)
        rw [Nat.compare_eq_gt.2 more, one, Nat.add_comm]
        rfl
  · rw [double, Nat.add_mul_mod_self_left]
    split
    · next zero =>
      subst zero
      simp [ExtendedMantissa.ofMantissaAndAccuracy]
    · next positive =>
      rcases Nat.lt_trichotomy (2 * r) d with less | same | more
      · rw [Nat.compare_eq_lt.2 less, Nat.mod_eq_of_lt less]
        simp [ExtendedMantissa.ofMantissaAndAccuracy, positive]
      · rw [Nat.compare_eq_eq.2 same, same, Nat.mod_self]
        simp [ExtendedMantissa.ofMantissaAndAccuracy]
      · have rest : 2 * r % d = 2 * r - d := by
          rw [Nat.mod_eq_sub_mod (Nat.le_of_lt more), Nat.mod_eq_of_lt (by omega)]
        rw [Nat.compare_eq_gt.2 more, rest]
        simp [ExtendedMantissa.ofMantissaAndAccuracy]
        omega

/-! ## Packing -/

theorem toNat_packComponents (s : Sign) (exponent : BitVec 11) (mantissa : BitVec 52) :
    (packComponents Format.binary64 s exponent mantissa).toNat =
      s.toBitVec.toNat * 2 ^ 63 + exponent.toNat * 2 ^ 52 + mantissa.toNat := by
  rw [packComponents, toNat_append, toNat_append]
  ring

theorem toNat_packedInfinity (s : Sign) : (packedInfinity Format.binary64 s).toNat =
    s.toBitVec.toNat * 2 ^ 63 + 2047 * 2 ^ 52 := by
  have exponent : (-1#11).toNat = 2047 := by decide
  rw [packedInfinity, toNat_packComponents, exponent]
  exact Nat.add_zero _

theorem toNat_packedZero (s : Sign) : (packedZero Format.binary64 s).toNat =
    s.toBitVec.toNat * 2 ^ 63 := by
  rw [packedZero, toNat_packComponents]
  have zero : ∀ k, (0 : BitVec k).toNat = 0 := fun _ => BitVec.toNat_zero
  rw [zero, zero]
  omega

/-- The bits of a finite number, or of infinity if the exponent does not fit. -/
theorem toNat_pack {s : Sign} {m k : Nat} {e : Int} {pos : 0 < m} (exponent : e = k - 1074)
    (high : m < 2 ^ 53) (low : 2 ^ 52 ≤ m ∨ k = 0) :
    (pack Format.binary64 (.finite s m e pos)).toNat =
      s.toBitVec.toNat * 2 ^ 63 + min (k * 2 ^ 52 + m) (2047 * 2 ^ 52) := by
  have biased : (e + (Format.binary64.exponentBias : Nat) + (52 : Nat)).toNat = k + 1 := by
    simp [Format.exponentBias]
    omega
  rw [pack]
  dsimp only
  rw [biased]
  by_cases overflows : 2 ^ 11 ≤ k + 1 + 1
  · rw [if_pos overflows, toNat_packedInfinity]
    omega
  · rw [if_neg overflows]
    by_cases normal : 2 ^ 52 ≤ m
    · have digits : m.log2 = 52 := (Nat.log2_eq_iff (by omega)).2 ⟨normal, high⟩
      rw [digits, if_pos (by rfl), toNat_packComponents, BitVec.toNat_ofNat, BitVec.toNat_ofNat]
      omega
    · have digits : m.log2 < 52 := (Nat.log2_lt (by omega)).2 (by omega)
      rw [if_neg (by simp [Format.mantissaBits]; omega), toNat_packComponents, BitVec.toNat_ofNat]
      simp
      omega

theorem shiftToTargetExponent_of_lt {m : Nat} {e : Int} (high : m < 2 ^ 53) (least : -1074 ≤ e) :
    (shiftToTargetExponent Format.binary64 m e .exact).1.mantissa = m ∧
      (shiftToTargetExponent Format.binary64 m e .exact).2 = e := by
  have digits : m.log2 < 53 := by
    rcases Nat.eq_zero_or_pos m with rfl | pos
    · decide
    · exact (Nat.log2_lt (by omega)).2 high
  have amount : (Format.binary64.targetExponent (totalExponent m e) - e).toNat = 0 := by
    simp only [Format.targetExponent, totalExponent, Format.mantissaBits, Format.minExponent]
    omega
  unfold shiftToTargetExponent shiftToExponent
  dsimp only
  rw [amount]
  exact ⟨rfl, by simp⟩

/-- A mantissa that is rounded up to 54 digits loses one of them to the exponent. -/
theorem toNat_pack_round {s : Sign} {m j k : Nat} {e : Int} {acc : Accuracy}
    (target : Format.binary64.targetExponent (totalExponent m e) = e + j)
    (exponent : e + j = k - 1074) {r : Nat}
    (rounded : (ExtendedMantissa.ofMantissaAndAccuracy m acc >>> j).roundedMantissa = r)
    (high : r ≤ 2 ^ 53) (low : 2 ^ 52 ≤ r ∨ k = 0) :
    (pack Format.binary64 (roundWithAccuracy Format.binary64 s m e acc)).toNat =
      s.toBitVec.toNat * 2 ^ 63 + min (k * 2 ^ 52 + r) (2047 * 2 ^ 52) := by
  have first : shiftToTargetExponent Format.binary64 m e acc =
      (ExtendedMantissa.ofMantissaAndAccuracy m acc >>> j, e + j) := by
    have amount : (e + (j : Int) - e).toNat = j := by omega
    unfold shiftToTargetExponent shiftToExponent
    dsimp only
    rw [target, amount]
  unfold roundWithAccuracy
  rw [first]
  dsimp only
  rw [rounded]
  rcases Nat.lt_or_eq_of_le high with below | full
  · obtain ⟨mantissa, same⟩ := shiftToTargetExponent_of_lt below (e := e + j) (by omega)
    simp only [mantissa, same]
    split
    · rw [pack, toNat_packedZero]
      omega
    · exact toNat_pack exponent below low
  · have digits : r.log2 = 52 + 1 := (Nat.log2_eq_iff (by omega)).2 ⟨by omega, by omega⟩
    obtain ⟨mantissa, next⟩ :=
      shiftToTargetExponent_exact (m := r) (k := 1)
        (targetExponent_eq digits (e := e + j) (by omega))
    simp only [mantissa, next]
    split
    · omega
    · rw [toNat_pack (k := k + 1) (by omega) (by omega) (.inl (by omega))]
      have half : r / 2 ^ 1 = 2 ^ 52 := by omega
      have same : (k + 1) * 2 ^ 52 + 2 ^ 52 = k * 2 ^ 52 + 2 ^ 53 := by ring
      rw [half, full, same]

/-! ## Dividing -/

/-- A shift makes room for the digits of a quotient. -/
theorem le_log2_div {m d a k : Nat} (pos : 0 < m) (pos' : 0 < d)
    (digits : d.log2 + 1 + k ≤ m.log2 + a) : k ≤ (m * 2 ^ a / d).log2 := by
  obtain ⟨low, -⟩ := (Nat.log2_eq_iff (Nat.pos_iff_ne_zero.1 pos)).1 rfl
  obtain ⟨-, high⟩ := (Nat.log2_eq_iff (Nat.pos_iff_ne_zero.1 pos')).1 rfl
  have enough : 2 ^ k ≤ m * 2 ^ a / d := by
    rw [Nat.le_div_iff_mul_le pos']
    calc 2 ^ k * d ≤ 2 ^ k * 2 ^ (d.log2 + 1) := Nat.mul_le_mul_left _ (Nat.le_of_lt high)
      _ = 2 ^ (d.log2 + 1 + k) := by rw [← Nat.pow_add, Nat.add_comm]
      _ ≤ 2 ^ (m.log2 + a) := Nat.pow_le_pow_right (by decide) digits
      _ = 2 ^ m.log2 * 2 ^ a := Nat.pow_add ..
      _ ≤ m * 2 ^ a := Nat.mul_le_mul_right _ low
  have nonzero : m * 2 ^ a / d ≠ 0 := Nat.ne_of_gt (Nat.lt_of_lt_of_le (Nat.two_pow_pos k) enough)
  exact (Nat.le_log2 nonzero).2 enough

/-- The quotient of two mantissas has enough digits: its exponent is not above the one that the
result gets. -/
theorem divCore_spec {m d i c : Nat} (pos : 0 < m) (pos' : 0 < d) :
    ∃ (a j k : Nat) (t : Int), divCore Format.binary64 m (i - 1074) d c =
        (m * 2 ^ a / d, t, accuracyOfFraction (m * 2 ^ a % d) d) ∧
      Format.binary64.targetExponent (totalExponent (m * 2 ^ a / d) t) = t + j ∧
      t + j = k - 1074 ∧ a ≤ i ∧ j + (i - a) = c + k ∧
      m * 2 ^ a < 2 ^ 53 * (d * 2 ^ j) ∧ (k = 0 ∨ 2 ^ 52 * (d * 2 ^ j) ≤ m * 2 ^ a) := by
  obtain ⟨t, lowest⟩ : ∃ t, t = min ((i : Int) - 1074 - c) (Format.binary64.targetExponent
    (totalExponent m (i - 1074) - totalExponent d c)) := ⟨_, rfl⟩
  have lowest' := lowest
  simp only [Format.targetExponent, totalExponent, Format.mantissaBits, Format.minExponent]
    at lowest'
  obtain ⟨a, shift⟩ : ∃ a : Nat, (i : Int) - 1074 - c - t = a :=
    ⟨((i : Int) - 1074 - c - t).toNat, by omega⟩
  have core : divCore Format.binary64 m (i - 1074) d c =
      (m * 2 ^ a / d, t, accuracyOfFraction (m * 2 ^ a % d) d) := by
    unfold divCore
    dsimp only
    rw [← lowest, shift, Nat.shiftLeft_eq]
    rfl
  have full : -1074 < t → 52 ≤ (m * 2 ^ a / d).log2 := fun above =>
    le_log2_div pos pos' (by omega)
  have split : m * 2 ^ a < (m * 2 ^ a / d + 1) * d := by
    rw [Nat.mul_comm _ d]
    exact Nat.lt_mul_div_succ (m * 2 ^ a) pos'
  have whole : m * 2 ^ a / d * d ≤ m * 2 ^ a := Nat.div_mul_le_self ..
  generalize same : m * 2 ^ a / d = q at *
  have target : Format.binary64.targetExponent (totalExponent q t) =
      max (q.log2 - 52 + t) (-1074) := by
    simp only [Format.targetExponent, totalExponent, Format.mantissaBits, Format.minExponent]
    omega
  obtain ⟨j, exponent⟩ : ∃ j : Nat, max ((q.log2 : Int) - 52 + t) (-1074) = t + j :=
    ⟨(max ((q.log2 : Int) - 52 + t) (-1074) - t).toNat, by omega⟩
  obtain ⟨k, biased⟩ : ∃ k : Nat, t + j = (k : Int) - 1074 := ⟨(t + j + 1074).toNat, by omega⟩
  rw [← same] at core target
  refine ⟨a, j, k, t, core, target.trans (same ▸ exponent), biased, by omega, by omega, ?_, ?_⟩
  · have digits : q + 1 ≤ 2 ^ (53 + j) :=
      Nat.lt_log2_self.trans_le (Nat.pow_le_pow_right (by decide) (by omega))
    calc m * 2 ^ a < (q + 1) * d := split
      _ ≤ 2 ^ (53 + j) * d := Nat.mul_le_mul_right _ digits
      _ = 2 ^ 53 * (d * 2 ^ j) := by rw [Nat.pow_add]; ring
  · refine (Nat.eq_zero_or_pos k).imp_right fun positive => ?_
    have digits : q.log2 = 52 + j := by omega
    have nonzero : q ≠ 0 := by
      rintro rfl
      rw [Nat.log2_zero] at digits
      omega
    calc 2 ^ 52 * (d * 2 ^ j) = 2 ^ q.log2 * d := by rw [digits, Nat.pow_add]; ring
      _ ≤ q * d := Nat.mul_le_mul_right _ (Nat.log2_self_le nonzero)
      _ ≤ m * 2 ^ a := whole

/-- The bits of a quotient. -/
theorem div_spec {s : Sign} {m d i c : Nat} (pos : 0 < m) (pos' : 0 < d) :
    ∃ k, (pack Format.binary64 (div Format.binary64 (.finite s m (i - 1074) pos)
        (.finite .positive d c pos'))).toNat =
          s.toBitVec.toNat * 2 ^ 63 +
            min (k * 2 ^ 52 + nearest (m * 2 ^ i) (d * 2 ^ c * 2 ^ k)) (2047 * 2 ^ 52) ∧
      m * 2 ^ i < 2 ^ 53 * (d * 2 ^ c * 2 ^ k) ∧
      (k = 0 ∨ 2 ^ 52 * (d * 2 ^ c * 2 ^ k) ≤ m * 2 ^ i) := by
  obtain ⟨a, j, k, t, core, target, exponent, le, shift, below, enough⟩ :=
    divCore_spec (i := i) (c := c) pos pos'
  have num : m * 2 ^ a * 2 ^ (i - a) = m * 2 ^ i := by
    rw [Nat.mul_assoc, ← Nat.pow_add, Nat.add_sub_cancel' le]
  have den : d * 2 ^ j * 2 ^ (i - a) = d * 2 ^ c * 2 ^ k := by
    rw [Nat.mul_assoc, ← Nat.pow_add, shift, Nat.pow_add, Nat.mul_assoc]
  have scale := Nat.two_pow_pos (i - a)
  have reads := ((reads_division (m * 2 ^ a) pos').shiftRight j).scale scale
  rw [num, den] at reads
  have below' := Nat.mul_lt_mul_of_pos_right below scale
  rw [num, Nat.mul_assoc, den] at below'
  have enough' := enough.imp_right fun le => Nat.mul_le_mul_right (2 ^ (i - a)) le
  rw [num, Nat.mul_assoc, den] at enough'
  have divisor : 0 < d * 2 ^ c * 2 ^ k := by positivity
  refine ⟨k, ?_, below', enough'⟩
  have sign : s / .positive = s := by cases s <;> rfl
  rw [div, core]
  dsimp only
  rw [sign, toNat_pack_round target exponent reads.rounded]
  · rw [← nearest_one (2 ^ 53)]
    exact nearest_le divisor Nat.one_pos (by omega)
  · refine enough'.symm.imp_left fun le => ?_
    rw [← nearest_one (2 ^ 52)]
    exact nearest_le Nat.one_pos divisor (by omega)

end Double

end IncrementalSat

import IncrementalSat.Restart
import Mathlib.Algebra.BigOperators.Intervals
import Mathlib.Data.Nat.Log
import Mathlib.Tactic.Ring

/-!
# Restarts follow the Luby sequence

The sequence is defined by recursion on blocks: a block of `2 ^ (k + 1) - 1` terms is twice the block
before it, and then `2 ^ k`. The two registers know nothing of blocks. They agree with the recursion
since adding `2 ^ k` to the first register changes no test as long as the second one is below `2 ^ k`.

Registers held in machine words find the greatest power of two that divides `u` as `u &&& -u`. The
conflicts between two restarts are the terms in units of the base, none lost and none repeated. As no
term is greater than all before it together, words that count the conflicts hold the terms as well.
-/
namespace IncrementalSat

/-! ## The sequence -/

/-- The Luby sequence `1, 1, 2, 1, 1, 2, 4, …`, counted from one on. -/
def luby (i : Nat) : Nat :=
  if i + 1 = 2 ^ (i.log2 + 1) then 2 ^ i.log2
  else if 1 < i then luby (i - 2 ^ i.log2 + 1)
  else 0
termination_by i
decreasing_by
  next above =>
  have half : 2 ^ 1 ≤ 2 ^ i.log2 :=
    Nat.pow_le_pow_right (by omega) ((Nat.le_log2 (by omega)).2 above)
  have low : 2 ^ i.log2 ≤ i := Nat.log2_self_le (by omega)
  omega

/-- A block ends with its greatest term. -/
theorem luby_last (k : Nat) : luby (2 ^ (k + 1) - 1) = 2 ^ k := by
  have pos : 0 < 2 ^ k := Nat.two_pow_pos k
  have double : 2 ^ (k + 1) = 2 ^ k + 2 ^ k := by ring
  have log : (2 ^ (k + 1) - 1).log2 = k := by
    apply (Nat.log2_eq_iff (by omega)).2
    omega
  rw [luby, log, if_pos (by omega)]

/-- Before its last term, the second half of a block repeats the first one. -/
theorem luby_repeats {k i : Nat} (low : 2 ^ k ≤ i) (high : i < 2 ^ (k + 1) - 1) :
    luby i = luby (i - 2 ^ k + 1) := by
  have pos : 0 < 2 ^ k := Nat.two_pow_pos k
  have log : i.log2 = k := by
    apply (Nat.log2_eq_iff (by omega)).2
    omega
  have above : 1 < i := by
    cases k with
    | zero => simp at high; omega
    | succ k =>
      have : 0 < 2 ^ k := Nat.two_pow_pos k
      rw [Nat.pow_succ] at low
      omega
  rw [luby, log, if_neg (by omega), if_pos above]

/-! ## The registers -/

namespace LubyRegisters

/-- The registers after some steps. -/
def after : Nat → LubyRegisters
  | 0 => {}
  | k + 1 => (after k).next

theorem exhausted_iff (r : LubyRegisters) : r.exhausted = true ↔ r.u % (2 * r.v) = r.v := by
  simp [exhausted]

/-- What divides both registers' test is not seen by it. -/
theorem next_add {r : LubyRegisters} {m : Nat} (divides : 2 * r.v ∣ m) :
    next ⟨m + r.u, r.v⟩ = ⟨m + r.next.u, r.next.v⟩ := by
  obtain ⟨q, rfl⟩ := divides
  have same : exhausted ⟨2 * r.v * q + r.u, r.v⟩ = r.exhausted := by
    simp [exhausted, Nat.add_comm _ r.u]
  unfold next
  rw [same]
  split
  · rfl
  · rfl

/-- The registers at the end of a block, and the terms before. -/
structure Block (k : Nat) : Prop where
  last : after (2 ^ (k + 1) - 2) = ⟨2 ^ k, 2 ^ k⟩
  below : ∀ j < 2 ^ (k + 1) - 2, 2 * (after j).v ∣ 2 ^ k

/-- The next block starts over, with the first register advanced by `2 ^ k`. -/
theorem Block.after_add {k j : Nat} (h : Block k) (within : j ≤ 2 ^ (k + 1) - 2) :
    after (2 ^ (k + 1) - 1 + j) = ⟨2 ^ k + (after j).u, (after j).v⟩ := by
  have pos : 0 < 2 ^ k := Nat.two_pow_pos k
  induction j with
  | zero =>
    have step : 2 ^ (k + 1) - 1 + 0 = (2 ^ (k + 1) - 2) + 1 := by
      rw [Nat.pow_succ]
      omega
    have full : exhausted ⟨2 ^ k, 2 ^ k⟩ = true := by
      apply (exhausted_iff _).2
      exact Nat.mod_eq_of_lt (by simp only; omega)
    calc
      after (2 ^ (k + 1) - 1 + 0) = (after (2 ^ (k + 1) - 2)).next := by rw [step]; rfl
      _ = ⟨2 ^ k + 1, 1⟩ := by rw [h.last, next, if_pos full]
  | succ j ih =>
    rw [← Nat.add_assoc, after, ih (by omega)]
    exact next_add (h.below j (by omega))

theorem block (k : Nat) : Block k := by
  induction k with
  | zero => exact ⟨rfl, by simp⟩
  | succ k ih =>
    have pos : 0 < 2 ^ k := Nat.two_pow_pos k
    have double : 2 ^ (k + 1) = 2 ^ k + 2 ^ k := by ring
    have four : 2 ^ (k + 2) = 2 ^ (k + 1) + 2 ^ (k + 1) := by ring
    constructor
    · have step : 2 ^ (k + 2) - 2 = (2 ^ (k + 1) - 1 + (2 ^ (k + 1) - 2)) + 1 := by omega
      have more : exhausted ⟨2 ^ k + 2 ^ k, 2 ^ k⟩ ≠ true := by
        rw [ne_eq, exhausted_iff, Nat.two_mul, Nat.mod_self]
        exact Nat.ne_of_lt pos
      rw [step, after, ih.after_add (Nat.le_refl _), ih.last, next, if_neg more, double,
        Nat.two_mul]
    · intro j hj
      -- the terms of the first half are smaller still, but for its last one
      have half : ∀ i ≤ 2 ^ (k + 1) - 2, 2 * (after i).v ∣ 2 ^ (k + 1) := by
        intro i hi
        rcases Nat.lt_or_eq_of_le hi with inner | last
        · exact (ih.below i inner).trans (Nat.pow_dvd_pow 2 (Nat.le_succ k))
        · rw [last, ih.last, Nat.pow_succ, Nat.mul_comm]
      by_cases first : j ≤ 2 ^ (k + 1) - 2
      · exact half j first
      · obtain ⟨i, rfl⟩ := Nat.exists_eq_add_of_le (show 2 ^ (k + 1) - 1 ≤ j by omega)
        rw [ih.after_add (by omega)]
        exact half i (by omega)

/-- The terms are those of the sequence. -/
theorem v_after (i : Nat) : (after i).v = luby (i + 1) := by
  induction i using Nat.strong_induction_on with
  | _ i ih =>
    obtain ⟨k, low, high⟩ : ∃ k, 2 ^ k ≤ i + 1 ∧ i + 1 < 2 ^ (k + 1) :=
      ⟨_, Nat.log2_self_le (Nat.succ_ne_zero i), Nat.lt_log2_self⟩
    by_cases last : i + 1 = 2 ^ (k + 1) - 1
    · rw [last, luby_last, show i = 2 ^ (k + 1) - 2 by omega, (block k).last]
    · rw [luby_repeats low (by omega)]
      cases k with
      | zero => omega
      | succ k =>
        have pos : 0 < 2 ^ k := Nat.two_pow_pos k
        obtain ⟨j, rfl⟩ := Nat.exists_eq_add_of_le (show 2 ^ (k + 1) - 1 ≤ i by omega)
        have back : 2 ^ (k + 1) - 1 + j + 1 - 2 ^ (k + 1) + 1 = j + 1 := by omega
        rw [(block k).after_add (by omega), back]
        exact ih j (by omega)

end LubyRegisters

/-! ## Machine words -/

namespace LubyRegisters

/-- The second register is a power of two that divides the first one. -/
structure Divides (r : LubyRegisters) (a : Nat) : Prop where
  power : r.v = 2 ^ a
  dvd : 2 ^ a ∣ r.u
  pos : 0 < r.u

theorem Divides.exhausted_iff_testBit {r : LubyRegisters} {a : Nat} (h : r.Divides a) :
    r.exhausted = true ↔ r.u.testBit a = true := by
  have pos : 0 < 2 ^ a := Nat.two_pow_pos a
  obtain ⟨m, eq⟩ := h.dvd
  rw [exhausted_iff, h.power, eq, Nat.mul_comm 2, Nat.mul_mod_mul_left, Nat.testBit_two_pow_mul]
  simp only [ge_iff_le, Nat.le_refl, decide_true, Nat.sub_self, Bool.true_and, Nat.testBit_zero,
    decide_eq_true_eq]
  constructor
  · intro same
    apply Nat.eq_of_mul_eq_mul_left pos
    rw [same, Nat.mul_one]
  · intro odd
    rw [odd, Nat.mul_one]

theorem u_le_next (r : LubyRegisters) : r.u ≤ r.next.u := by
  unfold next
  split
  · exact Nat.le_succ r.u
  · exact Nat.le_refl r.u

/-- A step moves the first register on by one at most. -/
theorem u_after_le (k : Nat) : (after k).u ≤ k + 1 := by
  induction k with
  | zero => exact Nat.le_refl 1
  | succ k ih =>
    unfold after next
    split
    · exact Nat.succ_le_succ ih
    · exact Nat.le_succ_of_le ih

theorem exists_divides (k : Nat) : ∃ a, (after k).Divides a := by
  induction k with
  | zero => exact ⟨0, rfl, Nat.one_dvd _, Nat.one_pos⟩
  | succ k ih =>
    obtain ⟨a, h⟩ := ih
    have power : 2 ^ (a + 1) = 2 ^ a * 2 := Nat.pow_succ 2 a
    unfold after next
    split
    · exact ⟨0, rfl, Nat.one_dvd _, Nat.succ_pos _⟩
    · next more =>
      rw [h.exhausted_iff_testBit] at more
      obtain ⟨m, eq⟩ := h.dvd
      rw [eq, Nat.testBit_two_pow_mul] at more
      simp only [ge_iff_le, Nat.le_refl, decide_true, Nat.sub_self, Bool.true_and,
        Nat.testBit_zero, decide_eq_true_eq] at more
      refine ⟨a + 1, ?_, ?_, h.pos⟩
      · rw [h.power, power, Nat.mul_comm]
      · rw [eq, power]
        exact Nat.mul_dvd_mul_left _ (Nat.dvd_of_mod_eq_zero (by omega))

end LubyRegisters

/-- After a term the sequence starts over or doubles it. -/
theorem luby_succ (k : Nat) : luby (k + 2) = 1 ∨ luby (k + 2) = 2 * luby (k + 1) := by
  rw [← LubyRegisters.v_after, ← LubyRegisters.v_after, LubyRegisters.after, LubyRegisters.next]
  split
  · exact .inl rfl
  · exact .inr rfl

theorem luby_pos (k : Nat) : 0 < luby (k + 1) := by
  obtain ⟨a, divides⟩ := LubyRegisters.exists_divides k
  rw [← LubyRegisters.v_after, divides.power]
  exact Nat.two_pow_pos a

/-- No term is greater than all terms before it together. -/
theorem luby_le_sum {m : Nat} (pos : 1 ≤ m) : luby (m + 1) ≤ ∑ i ∈ Finset.Icc 1 m, luby i := by
  induction m, pos using Nat.le_induction with
  | base =>
    have first : luby 1 = 1 := (LubyRegisters.v_after 0).symm
    have second : luby 2 = 1 := (LubyRegisters.v_after 1).symm
    rw [Finset.Icc_self, Finset.sum_singleton, first, second]
  | succ m pos ih =>
    have last := luby_pos m
    rw [Finset.sum_Icc_succ_top (Nat.le_add_left 1 m)]
    rcases luby_succ m with anew | double
    · rw [anew]
      omega
    · rw [double]
      omega

/-- What is left of a word whose lowest bits are unset, when it is combined with its negation. -/
theorem and_neg_eq_twoPow_iff {w : Nat} {x : BitVec w} {a : Nat} (within : a < w)
    (low : ∀ i < a, x.getLsbD i = false) :
    x &&& -x = BitVec.twoPow w a ↔ x.getLsbD a = true := by
  constructor
  · intro same
    have bit := congrArg (·.getLsbD a) same
    simp only [BitVec.getLsbD_and, BitVec.getLsbD_twoPow, within, decide_true, Bool.and_true,
      Bool.and_eq_true] at bit
    exact bit.1
  · intro set
    apply BitVec.eq_of_getLsbD_eq
    intro i hi
    rw [BitVec.getLsbD_and, BitVec.getLsbD_neg, BitVec.getLsbD_twoPow]
    rcases Nat.lt_trichotomy i a with before | rfl | behind
    · simp [low i before, Nat.ne_of_gt before]
    · have none : ¬ ∃ j < i, x.getLsbD j = true := by
        intro found
        obtain ⟨j, hj, bit⟩ := found
        rw [low j hj] at bit
        cases bit
      simp [set, none, hi]
    · have some : ∃ j < i, x.getLsbD j = true := ⟨a, behind, set⟩
      simp [some, hi, Nat.ne_of_lt behind]

/-- The registers as signed machine words. -/
structure LubyWords where
  u : Int64 := 1
  v : Int64 := 1
  deriving DecidableEq, Repr

namespace LubyWords

/-- The words that hold the registers. -/
def ofRegisters (r : LubyRegisters) : LubyWords := ⟨.ofNat r.u, .ofNat r.v⟩

/-- The greatest power of two that divides `u` is `u &&& -u`. -/
def next (w : LubyWords) : LubyWords :=
  if w.u &&& -w.u == w.v then ⟨w.u + 1, 1⟩ else ⟨w.u, 2 * w.v⟩

/-- The words after some steps. -/
def after : Nat → LubyWords
  | 0 => {}
  | k + 1 => (after k).next

/-- The current term in units of a base. -/
def term (w : LubyWords) (base : UInt64) : UInt64 := base * w.v.toUInt64

theorem next_ofRegisters {r : LubyRegisters} {a : Nat} (divides : r.Divides a)
    (fits : r.u < 2 ^ 63) : (ofRegisters r).next = ofRegisters r.next := by
  have le : 2 ^ a ≤ r.u := Nat.le_of_dvd divides.pos divides.dvd
  have short : a < 63 := (Nat.pow_lt_pow_iff_right (by omega)).1 (Nat.lt_of_le_of_lt le fits)
  have low : ∀ i < a, (BitVec.ofNat 64 r.u).getLsbD i = false := by
    intro i hi
    obtain ⟨m, eq⟩ := divides.dvd
    rw [eq, BitVec.getLsbD_ofNat, Nat.testBit_two_pow_mul]
    simp [hi]
  have power : BitVec.ofNat 64 (2 ^ a) = BitVec.twoPow 64 a := by
    apply BitVec.eq_of_toNat_eq
    simp
  have test : ((ofRegisters r).u &&& -(ofRegisters r).u == (ofRegisters r).v) = r.exhausted := by
    rw [Bool.eq_iff_iff, beq_iff_eq, divides.exhausted_iff_testBit, ofRegisters, divides.power,
      ← Int64.toBitVec_inj]
    simp only [Int64.toBitVec_and, Int64.toBitVec_neg, Int64.toBitVec_ofNat']
    rw [power, and_neg_eq_twoPow_iff (by omega) low, BitVec.getLsbD_ofNat]
    simp [show a < 64 by omega]
  unfold next LubyRegisters.next
  rw [test]
  split
  · simp [ofRegisters, Int64.ofNat_add]
  · simp [ofRegisters, Int64.ofNat_mul]

/-- As long as the first register fits, the words hold the registers. -/
theorem after_eq {k : Nat} (fits : (LubyRegisters.after k).u < 2 ^ 63) :
    after k = ofRegisters (.after k) := by
  induction k with
  | zero => rfl
  | succ k ih =>
    obtain ⟨a, divides⟩ := LubyRegisters.exists_divides k
    have before : (LubyRegisters.after k).u < 2 ^ 63 :=
      Nat.lt_of_le_of_lt (LubyRegisters.u_le_next _) fits
    rw [after, ih before, next_ofRegisters divides before]
    rfl

/-- A term that fits is the one of the sequence. -/
theorem toNat_term {k : Nat} {base : UInt64} (fits : (LubyRegisters.after k).u < 2 ^ 63)
    (small : base.toNat * luby (k + 1) < 2 ^ 64) :
    ((after k).term base).toNat = base.toNat * luby (k + 1) := by
  obtain ⟨a, divides⟩ := LubyRegisters.exists_divides k
  have le : (LubyRegisters.after k).v ≤ (LubyRegisters.after k).u := by
    rw [divides.power]
    exact Nat.le_of_dvd divides.pos divides.dvd
  have word : (Int64.ofNat (LubyRegisters.after k).v).toUInt64.toNat = luby (k + 1) := by
    rw [← LubyRegisters.v_after]
    exact Nat.mod_eq_of_lt (by omega)
  rw [after_eq fits, term, ofRegisters, UInt64.toNat_mul, word]
  exact Nat.mod_eq_of_lt small

end LubyWords

/-! ## Restarts -/

namespace Restarts

/-- The counter after some conflicts, where it was asked after each of them whether a restart is
due. -/
def afterConflicts (base : Nat) : Nat → Restarts
  | 0 => .ofBase base
  | c + 1 => (afterConflicts base c).onConflict.due.2

/-- Whether a restart is due after conflict number `c + 1`. -/
def dueAfter (base c : Nat) : Bool := (afterConflicts base c).onConflict.due.1

/-- How many conflicts the first intervals take. -/
def elapsed (base m : Nat) : Nat := max base 1 * ∑ i ∈ Finset.Icc 1 m, luby i

/-- Of so many conflicts, some are counted towards the interval that follows `m` full ones. -/
structure Counts (base c m : Nat) (r : Restarts) : Prop where
  unit : r.base = max base 1
  registers : r.registers = .after m
  total : c = elapsed base m + r.conflicts
  early : r.conflicts < r.limit

theorem limit_eq (base n : Nat) :
    ({ base, registers := .after n } : Restarts).limit = base * luby (n + 1) := by
  rw [limit, LubyRegisters.v_after]

theorem elapsed_succ (base m : Nat) :
    elapsed base (m + 1) = elapsed base m + max base 1 * luby (m + 1) := by
  unfold elapsed
  rw [Finset.sum_Icc_succ_top (Nat.le_add_left 1 m), Nat.mul_add]

/-- No interval is empty. -/
theorem interval_pos (base m : Nat) : 0 < max base 1 * luby (m + 1) :=
  Nat.mul_pos (Nat.lt_of_lt_of_le Nat.one_pos (Nat.le_max_right ..)) (luby_pos m)

theorem le_elapsed (base m : Nat) : m ≤ elapsed base m := by
  induction m with
  | zero => exact Nat.zero_le _
  | succ m ih =>
    have := interval_pos base m
    rw [elapsed_succ]
    omega

/-- The first interval takes as many conflicts as the base says, a later one no more than all before
it. -/
theorem interval_le (base m : Nat) : max base 1 * luby (m + 1) ≤ max (max base 1) (elapsed base m) := by
  cases m with
  | zero =>
    have first : luby 1 = 1 := (LubyRegisters.v_after 0).symm
    rw [first, Nat.mul_one]
    exact Nat.le_max_left ..
  | succ m =>
    have below := luby_le_sum (Nat.le_add_left 1 m)
    exact (Nat.mul_le_mul_left _ below).trans (Nat.le_max_right ..)

theorem strictMono_elapsed (base : Nat) : StrictMono (elapsed base) := by
  apply strictMono_nat_of_lt_succ
  intro m
  have := interval_pos base m
  rw [elapsed_succ]
  omega

namespace Counts

variable {base c m : Nat} {r : Restarts}

theorem limit_eq (h : Counts base c m r) : r.limit = max base 1 * luby (m + 1) := by
  rw [limit, h.unit, h.registers, LubyRegisters.v_after]

/-- A conflict either ends the interval or is counted. -/
theorem step (h : Counts base c m r) :
    (r.onConflict.due.1 = true ∧ c + 1 = elapsed base (m + 1) ∧
      Counts base (c + 1) (m + 1) r.onConflict.due.2) ∨
    (r.onConflict.due.1 = false ∧ c + 1 < elapsed base (m + 1) ∧
      Counts base (c + 1) m r.onConflict.due.2) := by
  have total := h.total
  have early := h.early
  have limit := h.limit_eq
  have next := elapsed_succ base m
  have same : r.onConflict.limit = r.limit := rfl
  have one : r.onConflict.conflicts = r.conflicts + 1 := rfl
  unfold due
  split
  · next reached =>
    have now : c + 1 = elapsed base (m + 1) := by omega
    have registers : r.registers.next = .after (m + 1) := by
      rw [h.registers]
      rfl
    refine .inl ⟨rfl, now, h.unit, registers, now, ?_⟩
    change 0 < r.base * r.registers.next.v
    rw [h.unit, registers, LubyRegisters.v_after]
    exact interval_pos base (m + 1)
  · next waiting =>
    refine .inr ⟨rfl, by omega, h.unit, h.registers, ?_, Nat.lt_of_not_le waiting⟩
    change c + 1 = elapsed base m + (r.conflicts + 1)
    omega

end Counts

/-- After any number of conflicts some intervals are over, and the rest counts towards the next. -/
theorem exists_counts (base c : Nat) :
    ∃ m, elapsed base m ≤ c ∧ Counts base c m (afterConflicts base c) := by
  induction c with
  | zero =>
    refine ⟨0, by simp [elapsed], rfl, rfl, by simp [elapsed, afterConflicts, ofBase], ?_⟩
    change 0 < max base 1 * 1
    omega
  | succ c ih =>
    obtain ⟨m, le, counts⟩ := ih
    rcases counts.step with ⟨-, now, counts'⟩ | ⟨-, -, counts'⟩
    · exact ⟨m + 1, Nat.le_of_eq now.symm, counts'⟩
    · exact ⟨m, Nat.le_succ_of_le le, counts'⟩

/-- As long as a signed word can count the conflicts, the words hold the registers, and the product that
gives the interval does not wrap around. -/
theorem exists_term_eq_limit (base : UInt64) {c : Nat} (few : c + 1 < 2 ^ 63) :
    ∃ m, (afterConflicts base.toNat c).registers = .after m ∧
      LubyWords.after m = .ofRegisters (.after m) ∧
      ((LubyWords.after m).term (max base 1)).toNat = (afterConflicts base.toNat c).limit := by
  obtain ⟨m, le, counts⟩ := exists_counts base.toNat c
  have unit : (max base 1).toNat = max base.toNat 1 := UInt64.toNat_max ..
  have fits : (LubyRegisters.after m).u < 2 ^ 63 := by
    have := LubyRegisters.u_after_le m
    have := le_elapsed base.toNat m
    omega
  have small : (max base 1).toNat * luby (m + 1) < 2 ^ 64 := by
    have := interval_le base.toNat m
    have := (max base 1).toNat_lt
    rw [unit] at this ⊢
    omega
  refine ⟨m, counts.registers, LubyWords.after_eq fits, ?_⟩
  rw [LubyWords.toNat_term fits small, counts.limit_eq, unit]

/-- A restart is due exactly when an interval is over. -/
theorem dueAfter_iff (base c : Nat) :
    dueAfter base c = true ↔ ∃ m, 1 ≤ m ∧ c + 1 = elapsed base m := by
  obtain ⟨m, le, counts⟩ := exists_counts base c
  unfold dueAfter
  rcases counts.step with ⟨due, now, -⟩ | ⟨waiting, before, -⟩
  · exact iff_of_true due ⟨m + 1, Nat.le_add_left 1 m, now⟩
  · apply iff_of_false
    · simp [waiting]
    · intro ended
      obtain ⟨k, -, now⟩ := ended
      -- the conflict lies strictly between two ends of intervals
      have above : m < k := (strictMono_elapsed base).lt_iff_lt.1 (by omega)
      have below : k < m + 1 := (strictMono_elapsed base).lt_iff_lt.1 (by omega)
      omega

/-- The sequence satisfies its recursion; the terms that the registers generate are its terms in
units of the base, also in machine words as long as these hold them; and a restart is due after just
those conflicts with which some first intervals are over. The counter takes an interval for a product
of numbers, which is the product of words by `exists_term_eq_limit`. -/
theorem follow_luby :
    (∀ k, luby (2 ^ (k + 1) - 1) = 2 ^ k) ∧
    (∀ k i, 2 ^ k ≤ i → i < 2 ^ (k + 1) - 1 → luby i = luby (i - 2 ^ k + 1)) ∧
    (∀ base n, ({ base, registers := .after n } : Restarts).limit = base * luby (n + 1)) ∧
    (∀ (base : UInt64) n, (LubyRegisters.after n).u < 2 ^ 63 →
      base.toNat * luby (n + 1) < 2 ^ 64 →
      ((LubyWords.after n).term base).toNat = base.toNat * luby (n + 1)) ∧
    ∀ base c, dueAfter base c = true ↔
      ∃ m, 1 ≤ m ∧ c + 1 = max base 1 * ∑ i ∈ Finset.Icc 1 m, luby i := by
  refine ⟨luby_last, ?_, limit_eq, ?_, dueAfter_iff⟩
  · intro k i low high
    exact luby_repeats low high
  · intro base n fits small
    exact LubyWords.toNat_term fits small

/-- The seventh term in units of a hundred, and the tenth conflict with a base of two. -/
theorem follow_luby_smallBases : ((LubyWords.after 6).term 100).toNat = 400 ∧
    ∃ m, 1 ≤ m ∧ 10 = max 2 1 * ∑ i ∈ Finset.Icc 1 m, luby i := by
  obtain ⟨last, -, -, words, due⟩ := follow_luby
  have seventh : luby 7 = 4 := last 2
  constructor
  · rw [words 100 6 (by decide) (by rw [seventh]; decide), seventh]
    rfl
  · exact (due 2 9).1 (by decide)

end Restarts

end IncrementalSat

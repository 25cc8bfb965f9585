import TitanRobot.Lib.Binary64

/-!
# Floating-point operations

The operations on `double` and `float` values that a program uses, as a class, so that one
program text runs on doubles and in exact real arithmetic. Converting to `int` truncates, and is
undefined for a value whose truncation is outside the range of `int`.
-/
namespace TitanRobot

section
variable {α : Type} [Field α] [LinearOrder α] [FloorRing α]

/-- Rounding towards zero. -/
def truncate (q : α) : ℤ := if 0 ≤ q then ⌊q⌋ else ⌈q⌉

theorem truncate_of_nonneg {q : α} (h : 0 ≤ q) : truncate q = ⌊q⌋ := if_pos h

/-- Everything above minus one is truncated to a natural number. -/
theorem truncate_nonneg_iff [IsStrictOrderedRing α] {q : α} : 0 ≤ truncate q ↔ -1 < q := by
  unfold truncate
  split_ifs with h
  · exact iff_of_true (Int.floor_nonneg.mpr h) (lt_of_lt_of_le neg_one_lt_zero h)
  · have hceil : (-1 : ℤ) < ⌈q⌉ ↔ (-1 : α) < q := by simp [Int.lt_ceil]
    rw [← hceil]
    omega

theorem truncate_lt_iff [IsStrictOrderedRing α] {q : α} {n : ℕ} (hn : 0 < n) :
    truncate q < n ↔ q < n := by
  unfold truncate
  split_ifs with h
  · simp [Int.floor_lt]
  · rw [not_le] at h
    have hceil : ⌈q⌉ ≤ 0 := Int.ceil_le.mpr (by simpa using h.le)
    have hpos : (0 : α) < n := by exact_mod_cast hn
    exact iff_of_true (by omega) (h.trans hpos)

/-- The values whose truncation is an `int`. -/
def InIntRange (q : α) : Prop := -((2 ^ 31 : ℕ) : α) - 1 < q ∧ q < ((2 ^ 31 : ℕ) : α)

instance (q : α) : Decidable (InIntRange q) := inferInstanceAs (Decidable (_ ∧ _))

def castInt (q : α) : Option ℤ := if InIntRange q then some (truncate q) else none

theorem castInt_eq_some_iff {q : α} {n : ℤ} : castInt q = some n ↔ InIntRange q ∧ truncate q = n := by
  simp [castInt]

theorem castInt_of_inRange {q : α} (h : InIntRange q) : castInt q = some (truncate q) := by
  simp [castInt, h]

end

/-- `int` times `float` is a `float`; all else is done on `double`. -/
class Floating (α : Type) where
  sub : α → α → α
  div : α → α → α
  /-- `static_cast<int>`, where it is defined. -/
  toInt : α → Option ℤ
  mulFloat : ℤ → α → α
  lt : α → α → Bool
  eq : α → α → Bool
  /-- `std::numeric_limits<double>::max()` -/
  maxValue : α
  negOne : α

/-- The largest finite `double`. -/
def doubleMax : ℕ := (2 ^ 53 - 1) * 2 ^ 971

/-- The largest finite `float`. -/
def floatMax : ℕ := (2 ^ 24 - 1) * 2 ^ 104

/-- A hundred times a `float` is a `double`. -/
theorem hundred_mul_floatMax_lt : 100 * floatMax < doubleMax := by
  decide +kernel

/-! ## Exact arithmetic -/

/-- The operations without rounding, on the real numbers. -/
noncomputable instance : Floating ℝ where
  sub x y := x - y
  div x y := x / y
  toInt := castInt
  mulFloat k x := k * x
  lt x y := decide (x < y)
  eq x y := decide (x = y)
  maxValue := doubleMax
  negOne := -1

/-! ## Doubles -/

/-- Rounding to the significand of a `float`. -/
def roundSingle (q : ℚ) : ℚ :=
  let e := max (ilog2 q - 23) (-149)
  scale (roundHalfEven (scale q (-e))) e

/-- The nearest `float`. -/
def Double.ofRatSingle (q : ℚ) : Double :=
  if q = 0 then .finite 0
  else
    let r := roundSingle q
    if |r| < (2 ^ 128 : ℕ) then .finite r else .infinite (decide (q < 0))

def Double.neg : Double → Double
  | .finite q => .finite (-q)
  | .infinite n => .infinite (!n)
  | .nan => .nan

def Double.add : Double → Double → Double
  | .finite a, .finite b => .ofRat (a + b)
  | .nan, _ => .nan
  | _, .nan => .nan
  | .infinite m, .infinite n => if m = n then .infinite m else .nan
  | .infinite m, .finite _ => .infinite m
  | .finite _, .infinite n => .infinite n

/-- A zero divisor is taken for a positive zero. -/
def Double.div : Double → Double → Double
  | .finite a, .finite b =>
    if b = 0 then (if a = 0 then .nan else .infinite (decide (a < 0))) else .ofRat (a / b)
  | .nan, _ => .nan
  | _, .nan => .nan
  | .infinite _, .infinite _ => .nan
  | .infinite m, .finite b => .infinite (xor m (decide (b < 0)))
  | .finite _, .infinite _ => .finite 0

def Double.toInt : Double → Option ℤ
  | .finite q => castInt q
  | _ => none

def Double.mulFloat (k : ℤ) : Double → Double
  | .finite q => .ofRatSingle (k * q)
  | .infinite n => if k = 0 then .nan else .infinite (xor n (decide (k < 0)))
  | .nan => .nan

def Double.lt : Double → Double → Bool
  | .finite a, .finite b => decide (a < b)
  | .nan, _ => false
  | _, .nan => false
  | .infinite m, .infinite n => m && !n
  | .infinite m, .finite _ => m
  | .finite _, .infinite n => !n

def Double.eq : Double → Double → Bool
  | .nan, _ => false
  | a, b => decide (a = b)

instance : Floating Double where
  sub a b := a.add b.neg
  div := Double.div
  toInt := Double.toInt
  mulFloat := Double.mulFloat
  lt := Double.lt
  eq := Double.eq
  maxValue := .finite doubleMax
  negOne := .finite (-1)

/-! ## Reach of the conversion -/

/-- The numbers whose nearest double converts to `int`. The bounds are half a place inside those
for a double: the double next to each of them is taken for the numbers up to it. -/
def InReach (q : ℚ) : Prop := -(2 ^ 31 + 1) + 1 / 2 ^ 22 < q ∧ q < 2 ^ 31 - 1 / 2 ^ 23

instance (q : ℚ) : Decidable (InReach q) := inferInstanceAs (Decidable (_ ∧ _))

theorem inIntRange_of_ofRat_iff {q r : ℚ} (h : Double.ofRat q = .finite r) :
    InIntRange r ↔ InReach q := by
  have hhi := Double.ofRat_lt_iff h (m := 2 ^ 53) (k := -22) (by norm_num) le_rfl (by norm_num)
    (by norm_num)
  have hlo := Double.ofRat_lt_iff (Double.ofRat_neg h) (m := (2 ^ 31 + 1) * 2 ^ 21) (k := -21)
    (by norm_num) (by norm_num) (by norm_num) (by norm_num)
  have hneg : -r < 2 ^ 31 + 1 ↔ -q < 2 ^ 31 + 1 - 1 / 2 ^ 22 := by
    norm_num at hlo ⊢
    exact hlo
  have hpos : r < 2 ^ 31 ↔ q < 2 ^ 31 - 1 / 2 ^ 23 := by
    norm_num at hhi ⊢
    exact hhi
  rw [InIntRange, InReach, ← hpos]
  push_cast
  refine and_congr_left fun _ => ?_
  constructor
  · intro hr
    linarith [hneg.mp (by linarith)]
  · intro hq
    linarith [hneg.mpr (by linarith)]

/-- The numbers in reach have a nearest double that converts. -/
theorem Double.finite_of_inReach {q : ℚ} (h : InReach q) :
    ∃ r, Double.ofRat q = .finite r ∧ InIntRange r := by
  obtain ⟨r, hr⟩ := Double.ofRat_finite (q := q) (by
    rw [abs_lt]
    have hbig : (2 : ℚ) ^ 32 ≤ 2 ^ 1023 := pow_le_pow_right₀ one_le_two (by omega)
    generalize (2 : ℚ) ^ 1023 = bound at *
    norm_num [InReach] at h hbig
    constructor <;> linarith)
  exact ⟨r, hr, (inIntRange_of_ofRat_iff hr).mpr h⟩

/-- The conversion to `int` is defined exactly for the numbers in reach. -/
theorem Double.toInt_ofRat_isSome_iff (q : ℚ) : (Double.ofRat q).toInt.isSome ↔ InReach q := by
  constructor
  · intro h
    cases hr : Double.ofRat q with
    | finite r =>
      rw [hr, Double.toInt, castInt] at h
      refine (inIntRange_of_ofRat_iff hr).mp ?_
      by_contra hout
      simp [hout] at h
    | infinite neg => simp [hr, Double.toInt] at h
    | nan => simp [hr, Double.toInt] at h
  · intro h
    obtain ⟨r, hr, hrange⟩ := Double.finite_of_inReach h
    rw [hr, Double.toInt, castInt, if_pos hrange]
    rfl

/-! ## Reach of one number -/

/-- Half a place of the doubles just below `n`. -/
def halfPlace (n : ℕ) : ℚ := 2 ^ Nat.clog 2 n / 2 ^ 54

/-- The numbers whose nearest double is below a natural number. -/
theorem Double.ofRat_lt_natCast_iff {q r : ℚ} (h : Double.ofRat q = .finite r) {n : ℕ}
    (hn : 0 < n) (hn' : n ≤ 2 ^ 52) : r < n ↔ q < n - halfPlace n := by
  have hclog : Nat.clog 2 n ≤ 52 := Nat.clog_le_of_le_pow hn'
  obtain ⟨k, hk⟩ := Nat.exists_eq_add_of_le (show Nat.clog 2 n ≤ 53 by omega)
  have hpow : 2 ^ Nat.clog 2 n * 2 ^ k = 2 ^ 53 := by
    rw [← pow_add, ← hk]
  have hupper : n * 2 ^ k ≤ 2 ^ 53 := by
    rw [← hpow]
    exact Nat.mul_le_mul_right _ (Nat.le_pow_clog (by norm_num) n)
  have hlower : 2 ^ 52 < n * 2 ^ k := by
    have hhalf : 2 ^ Nat.clog 2 n < 2 * n := by
      rcases Nat.lt_or_ge 1 n with hone | hone
      · have hpred := Nat.pow_pred_clog_lt_self one_lt_two hone
        have hpos := Nat.clog_pos one_lt_two hone
        rw [← Nat.succ_pred_eq_of_pos hpos, Nat.pow_succ]
        omega
      · obtain rfl : n = 1 := by omega
        simp
    have hscaled := Nat.mul_lt_mul_of_pos_right hhalf (show 0 < 2 ^ k by positivity)
    rw [hpow, mul_assoc] at hscaled
    omega
  have heven : n * 2 ^ k % 2 = 0 := by
    obtain ⟨j, rfl⟩ := Nat.exists_eq_succ_of_ne_zero (show k ≠ 0 by omega)
    rw [Nat.pow_succ, ← mul_assoc]
    exact Nat.mul_mod_left _ _
  have hlt := Double.ofRat_lt_iff h (m := (n * 2 ^ k : ℕ)) (k := -(k : ℤ))
    (by exact_mod_cast hlower) (by exact_mod_cast hupper) (by exact_mod_cast heven) (by omega)
  have hcancel : ((n * 2 ^ k : ℕ) : ℚ) * 2 ^ (-(k : ℤ)) = n := by
    push_cast
    rw [zpow_neg, zpow_natCast, mul_inv_cancel_right₀ (by positivity)]
  have hhalf : (1 / 2 : ℚ) * 2 ^ (-(k : ℤ)) = halfPlace n := by
    have hpowq : (2 : ℚ) ^ Nat.clog 2 n * 2 ^ k = 2 ^ 53 := by exact_mod_cast hpow
    rw [halfPlace, zpow_neg, zpow_natCast, pow_succ _ 53, ← hpowq]
    field_simp
  rw [Int.cast_natCast, sub_mul, hcancel, hhalf] at hlt
  exact hlt

/-- The numbers whose nearest double is truncated to `n`. -/
def InCell (q : ℚ) (n : ℕ) : Prop :=
  (if n = 0 then halfPlace 1 - 1 < q else n - halfPlace n ≤ q) ∧ q < n + 1 - halfPlace (n + 1)

instance (q : ℚ) (n : ℕ) : Decidable (InCell q n) := inferInstanceAs (Decidable (_ ∧ _))

theorem truncate_ofRat_eq_iff {q r : ℚ} (h : Double.ofRat q = .finite r) {n : ℕ}
    (hn : n < 2 ^ 52) : truncate r = n ↔ InCell q n := by
  have hupper : truncate r < (n + 1 : ℕ) ↔ q < n + 1 - halfPlace (n + 1) := by
    rw [truncate_lt_iff n.succ_pos, Double.ofRat_lt_natCast_iff h n.succ_pos (by omega)]
    push_cast
    rfl
  have hlower : (n : ℤ) ≤ truncate r ↔
      (if n = 0 then halfPlace 1 - 1 < q else n - halfPlace n ≤ q) := by
    split_ifs with h0
    · subst h0
      have hone := Double.ofRat_lt_natCast_iff (Double.ofRat_neg h) one_pos (by norm_num)
      rw [Nat.cast_zero, truncate_nonneg_iff]
      push_cast at hone
      constructor
      · intro hr
        linarith [hone.mp (by linarith)]
      · intro hq
        linarith [hone.mpr (by linarith)]
    · have hpos : 0 < n := by omega
      rw [← not_lt, truncate_lt_iff hpos, Double.ofRat_lt_natCast_iff h hpos (by omega), not_lt]
  rw [InCell, ← hupper, ← hlower]
  omega

end TitanRobot

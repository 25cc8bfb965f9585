import Mathlib

/-!
# Double-precision numbers as exact rationals

A double is a finite rational, an infinity or NaN; the sign of zero is not kept.
`Double.ofRat` rounds to the nearest double, ties to an even significand, and overflows to
an infinity.
-/
namespace TitanRobot

inductive Double where
  | finite (q : ℚ)
  | infinite (neg : Bool)
  | nan
  deriving DecidableEq

/-- The nearest integer, ties to even. -/
def roundHalfEven (q : ℚ) : ℤ :=
  if 2 * (q - ⌊q⌋) < 1 then ⌊q⌋
  else if 1 < 2 * (q - ⌊q⌋) then ⌊q⌋ + 1
  else if ⌊q⌋ % 2 = 0 then ⌊q⌋ else ⌊q⌋ + 1

/-- `q` times two to the power `k`. -/
def scale (q : ℚ) (k : ℤ) : ℚ :=
  if 0 ≤ k then q * (2 ^ k.toNat : ℕ) else q / (2 ^ (-k).toNat : ℕ)

/-- The exponent of the power of two at or below the magnitude of a nonzero `q`. -/
def ilog2 (q : ℚ) : ℤ :=
  let k : ℤ := (Nat.log2 q.num.natAbs : ℤ) - (Nat.log2 q.den : ℤ)
  if scale 1 k ≤ |q| then k else k - 1

def Double.ofRat (q : ℚ) : Double :=
  if q = 0 then .finite 0
  else
    let e := max (ilog2 q - 52) (-1074)
    let r := scale (roundHalfEven (scale q (-e))) e
    if |r| < (2 ^ 1024 : ℕ) then .finite r else .infinite (decide (q < 0))

/-- Division by two: exact but for the smallest doubles. -/
def Double.half : Double → Double
  | .finite q => .ofRat (q / 2)
  | d => d

/-! ## Range -/

theorem scale_eq (q : ℚ) (k : ℤ) : scale q k = q * 2 ^ k := by
  unfold scale
  split_ifs with hk
  · obtain ⟨n, rfl⟩ := Int.eq_ofNat_of_zero_le hk
    simp
  · obtain ⟨n, hn⟩ := Int.eq_ofNat_of_zero_le (show 0 ≤ -k by omega)
    obtain rfl : k = -(n : ℤ) := by omega
    simp [div_eq_mul_inv]

theorem roundHalfEven_close (q : ℚ) : |(roundHalfEven q : ℚ) - q| ≤ 1 / 2 := by
  have hlo := Int.floor_le q
  have hhi := Int.lt_floor_add_one q
  unfold roundHalfEven
  split_ifs <;> rw [abs_le] <;> push_cast <;> constructor <;> linarith

/-- No integer is nearer. -/
theorem roundHalfEven_nearest (q : ℚ) (k : ℤ) : |(roundHalfEven q : ℚ) - q| ≤ |(k : ℚ) - q| := by
  rcases eq_or_ne k (roundHalfEven q) with rfl | hne
  · exact le_rfl
  · have hclose := roundHalfEven_close q
    have hone : (1 : ℚ) ≤ |(k : ℚ) - roundHalfEven q| := by
      exact_mod_cast Int.one_le_abs (sub_ne_zero.mpr hne)
    have htri := abs_sub_le (k : ℚ) q (roundHalfEven q)
    rw [abs_sub_comm q] at htri
    linarith

/-- A nonnegative number is rounded to a natural number. -/
theorem roundHalfEven_nonneg {q : ℚ} (hq : 0 ≤ q) : 0 ≤ roundHalfEven q := by
  have hclose := (abs_le.mp (roundHalfEven_close q)).1
  have hlt : (-1 : ℚ) < roundHalfEven q := by linarith
  have hint : -1 < roundHalfEven q := by exact_mod_cast hlt
  omega

/-- The power of two that `ilog2` finds is at or below the magnitude. -/
theorem two_pow_ilog2_le {q : ℚ} (hq : q ≠ 0) : (2 : ℚ) ^ ilog2 q ≤ |q| := by
  simp only [ilog2, scale_eq, one_mul]
  split_ifs with hle
  · exact hle
  · have hnum : (2 : ℚ) ^ Nat.log2 q.num.natAbs ≤ |(q.num : ℚ)| := by
      have hpow := Nat.log2_self_le (show q.num.natAbs ≠ 0 by simpa using hq)
      rw [← Int.cast_abs, Int.abs_eq_natAbs]
      exact_mod_cast hpow
    have hden : (q.den : ℚ) ≤ 2 ^ (Nat.log2 q.den + 1) := by
      exact_mod_cast (Nat.lt_log2_self (n := q.den)).le
    have hpos : (0 : ℚ) < q.den := by exact_mod_cast q.den_pos
    have habs : |q| = |(q.num : ℚ)| / q.den := by
      conv_lhs => rw [← Rat.num_div_den q]
      rw [abs_div, abs_of_pos hpos]
    rw [habs, sub_sub, zpow_sub₀ two_ne_zero]
    exact_mod_cast div_le_div₀ (abs_nonneg _) hnum hpos hden

/-- Rounding stays in range below half the range. -/
theorem Double.ofRat_finite {q : ℚ} (h : |q| < 2 ^ 1023) : ∃ r, Double.ofRat q = .finite r := by
  unfold Double.ofRat
  split_ifs with hq
  · exact ⟨0, rfl⟩
  · have hlog : ilog2 q < 1023 := by
      have hlt := (two_pow_ilog2_le hq).trans_lt h
      rw [← zpow_natCast] at hlt
      exact (zpow_lt_zpow_iff_right₀ (by norm_num)).mp hlt
    simp only [scale_eq]
    generalize he : max (ilog2 q - 52) (-1074) = e
    have hsmall : (2 : ℚ) ^ e ≤ 2 ^ 1023 := by
      rw [← zpow_natCast]
      exact zpow_le_zpow_right₀ (by norm_num) (by omega)
    have hpos : (0 : ℚ) < 2 ^ e := by positivity
    have hclose := roundHalfEven_close (q * 2 ^ (-e))
    have hround : |(roundHalfEven (q * 2 ^ (-e)) : ℚ)| ≤ |q| * 2 ^ (-e) + 1 / 2 := by
      have htri := abs_sub_abs_le_abs_sub (roundHalfEven (q * 2 ^ (-e)) : ℚ) (q * 2 ^ (-e))
      rw [abs_mul, abs_of_pos (show (0 : ℚ) < 2 ^ (-e) by positivity)] at htri
      linarith
    have hr : |(roundHalfEven (q * 2 ^ (-e)) : ℚ) * 2 ^ e| < (2 ^ 1024 : ℕ) := by
      rw [abs_mul, abs_of_pos hpos]
      have hcancel : |q| * 2 ^ (-e) * 2 ^ e = |q| := by
        rw [mul_assoc, ← zpow_add₀ two_ne_zero]
        simp
      have hmul := mul_le_mul_of_nonneg_right hround hpos.le
      rw [add_mul, hcancel] at hmul
      have hdouble : ((2 ^ 1024 : ℕ) : ℚ) = 2 * 2 ^ 1023 := by
        rw [Nat.cast_pow]
        exact pow_succ' 2 1023
      rw [hdouble]
      generalize (2 : ℚ) ^ 1023 = bound at *
      linarith
    rw [if_pos hr]
    exact ⟨_, rfl⟩

theorem Double.lt_of_ofRat {x q : ℚ} (h : Double.ofRat x = .finite q) : |q| < 2 ^ 1024 := by
  unfold Double.ofRat at h
  split_ifs at h with hx
  · obtain rfl := Double.finite.inj h
    simp
  · simp only at h
    split_ifs at h with hr
    obtain rfl := Double.finite.inj h
    exact_mod_cast hr

/-- Half of a double is a double. -/
theorem Double.half_finite {x q : ℚ} (h : Double.ofRat x = .finite q) :
    ∃ r, (Double.finite q).half = .finite r := by
  have hlt := Double.lt_of_ofRat h
  refine Double.ofRat_finite ?_
  rw [abs_div, abs_two, div_lt_iff₀ two_pos, ← pow_succ]
  exact hlt

/-! ## Thresholds -/

theorem roundHalfEven_even_of_tie {q : ℚ} (h : |(roundHalfEven q : ℚ) - q| = 1 / 2) :
    roundHalfEven q % 2 = 0 := by
  have hlo := Int.floor_le q
  have hhi := Int.lt_floor_add_one q
  unfold roundHalfEven at *
  split_ifs at * with hbelow habove heven
  · rw [abs_of_nonpos (by linarith)] at h
    linarith
  · push_cast at h
    rw [abs_of_nonneg (by linarith)] at h
    linarith
  · exact heven
  · omega

/-- The nearest integer, and the even one of two. -/
theorem roundHalfEven_unique {q : ℚ} {n : ℤ} (hclose : |(n : ℚ) - q| ≤ 1 / 2)
    (htie : |(n : ℚ) - q| = 1 / 2 → n % 2 = 0) : roundHalfEven q = n := by
  by_contra hne
  have hround := roundHalfEven_close q
  have htri := abs_sub_le (roundHalfEven q : ℚ) q n
  rw [abs_sub_comm q] at htri
  have hone : (1 : ℚ) ≤ |(roundHalfEven q : ℚ) - n| := by
    exact_mod_cast Int.one_le_abs (sub_ne_zero.mpr hne)
  have hle : |roundHalfEven q - n| ≤ 1 := by
    have hle : |(roundHalfEven q : ℚ) - n| ≤ 1 := by linarith
    exact_mod_cast hle
  have heven := htie (by linarith)
  have heven' := roundHalfEven_even_of_tie (q := q) (by linarith)
  rw [abs_le] at hle
  omega

theorem roundHalfEven_neg (q : ℚ) : roundHalfEven (-q) = -roundHalfEven q := by
  have hdist : |((-roundHalfEven q : ℤ) : ℚ) - -q| = |(roundHalfEven q : ℚ) - q| := by
    rw [abs_sub_comm]
    congr 1
    push_cast
    ring
  refine roundHalfEven_unique ?_ fun htie => ?_
  · rw [hdist]
    exact roundHalfEven_close q
  · rw [hdist] at htie
    have heven := roundHalfEven_even_of_tie htie
    omega

/-- The next power of two is above the magnitude. -/
theorem lt_two_pow_ilog2 (q : ℚ) : |q| < 2 ^ (ilog2 q + 1) := by
  simp only [ilog2, scale_eq, one_mul]
  split_ifs with hle
  · have hnum : |(q.num : ℚ)| < 2 ^ (Nat.log2 q.num.natAbs + 1) := by
      rw [← Int.cast_abs, Int.abs_eq_natAbs]
      exact_mod_cast Nat.lt_log2_self
    have hden : (2 : ℚ) ^ Nat.log2 q.den ≤ q.den := by
      exact_mod_cast Nat.log2_self_le q.den_nz
    have hpos : (0 : ℚ) < q.den := by exact_mod_cast q.den_pos
    have habs : |q| = |(q.num : ℚ)| / q.den := by
      conv_lhs => rw [← Rat.num_div_den q]
      rw [abs_div, abs_of_pos hpos]
    rw [habs, sub_add_eq_add_sub, zpow_sub₀ two_ne_zero]
    exact_mod_cast div_lt_div₀ hnum hden (by positivity) (by positivity)
  · rw [sub_add_cancel]
    exact not_le.mp hle

theorem ilog2_neg (q : ℚ) : ilog2 (-q) = ilog2 q := by
  simp [ilog2]

theorem Double.ofRat_neg {q r : ℚ} (h : Double.ofRat q = .finite r) :
    Double.ofRat (-q) = .finite (-r) := by
  unfold Double.ofRat at *
  simp only [scale_eq, ilog2_neg, neg_eq_zero, neg_mul, roundHalfEven_neg, Int.cast_neg,
    abs_neg] at *
  generalize 2 ^ 1024 = bound at *
  split_ifs at * with hq hr
  · obtain rfl := Double.finite.inj h
    simp
  · obtain rfl := Double.finite.inj h
    rfl

/-- A finite double is a whole multiple of the last place of its binade. -/
theorem Double.ofRat_eq {q r : ℚ} (hq : q ≠ 0) (h : Double.ofRat q = .finite r) :
    ∃ e, e = max (ilog2 q - 52) (-1074) ∧ r = roundHalfEven (q * 2 ^ (-e)) * 2 ^ e := by
  unfold Double.ofRat at h
  simp only [scale_eq, if_neg hq] at h
  split_ifs at h
  exact ⟨_, rfl, (Double.finite.inj h).symm⟩

section
variable {q r : ℚ} {m k : ℤ}

/-- Below half a place under a double, numbers are rounded to something below it. -/
theorem Double.ofRat_lt (h : Double.ofRat q = .finite r) (hm : 0 < m) (hm' : m ≤ 2 ^ 53)
    (hk : -1074 ≤ k) (hlt : q < (m - 1 / 2) * 2 ^ k) : r < m * 2 ^ k := by
  have hmq : (0 : ℚ) < m := by exact_mod_cast hm
  have hmq' : (m : ℚ) ≤ 2 ^ 53 := by exact_mod_cast hm'
  rcases eq_or_ne q 0 with rfl | hq
  · obtain rfl : 0 = r := by simpa [Double.ofRat] using h
    positivity
  obtain ⟨e, he, rfl⟩ := Double.ofRat_eq hq h
  have hepos : (0 : ℚ) < 2 ^ e := by positivity
  have hkpos : (0 : ℚ) < 2 ^ k := by positivity
  obtain ⟨hlo, hhi⟩ := abs_le.mp (roundHalfEven_close (q * 2 ^ (-e)))
  have hcancel : q * 2 ^ (-e) * 2 ^ e = q := by
    rw [mul_assoc, ← zpow_add₀ two_ne_zero]
    simp
  generalize hx : q * 2 ^ (-e) = x at *
  rcases lt_or_gt_of_ne hq with hneg | hpos
  · have hxneg : x < 0 := by
      rw [← hx]
      exact mul_neg_of_neg_of_pos hneg (by positivity)
    have hround : roundHalfEven x ≤ 0 := by
      have hone : (roundHalfEven x : ℚ) < 1 := by linarith
      have hint : roundHalfEven x < 1 := by exact_mod_cast hone
      omega
    have hroundq : (roundHalfEven x : ℚ) ≤ 0 := by exact_mod_cast hround
    nlinarith
  · have hlog : ilog2 q < 53 + k := by
      have hlow := two_pow_ilog2_le hq
      rw [abs_of_pos hpos] at hlow
      have hup : q < 2 ^ (53 + k) := by
        rw [zpow_add₀ two_ne_zero]
        refine hlt.trans_le (mul_le_mul_of_nonneg_right ?_ hkpos.le)
        norm_num at hmq' ⊢
        linarith
      exact (zpow_lt_zpow_iff_right₀ one_lt_two).mp (hlow.trans_lt hup)
    have hone : (1 : ℚ) ≤ 2 ^ (k - e) := one_le_zpow₀ one_le_two (by omega)
    have hsplit : (2 : ℚ) ^ k = 2 ^ (k - e) * 2 ^ e := by
      rw [← zpow_add₀ two_ne_zero]
      simp
    rw [hsplit, ← mul_assoc] at hlt ⊢
    rw [← hcancel] at hlt
    have hxlt := lt_of_mul_lt_mul_right hlt hepos.le
    exact mul_lt_mul_of_pos_right (by linarith) hepos

/-- From half a place under a double with an even significand on, numbers are rounded to it or
beyond it. -/
theorem Double.le_ofRat (h : Double.ofRat q = .finite r) (hm : 2 ^ 52 < m) (hm' : m ≤ 2 ^ 53)
    (heven : m % 2 = 0) (hk : -1074 ≤ k) (hge : (m - 1 / 2) * 2 ^ k ≤ q) : m * 2 ^ k ≤ r := by
  have hmq : (2 : ℚ) ^ 52 + 1 ≤ m := by exact_mod_cast hm
  have hmq' : (m : ℚ) ≤ 2 ^ 53 := by exact_mod_cast hm'
  have hq : q ≠ 0 := by
    have hpos : (0 : ℚ) < (m - 1 / 2) * 2 ^ k := mul_pos (by linarith) (by positivity)
    exact (hpos.trans_le hge).ne'
  obtain ⟨e, he, rfl⟩ := Double.ofRat_eq hq h
  have hepos : (0 : ℚ) < 2 ^ e := by positivity
  have hkpos : (0 : ℚ) < 2 ^ k := by positivity
  obtain ⟨hlo, hhi⟩ := abs_le.mp (roundHalfEven_close (q * 2 ^ (-e)))
  have hcancel : q * 2 ^ (-e) * 2 ^ e = q := by
    rw [mul_assoc, ← zpow_add₀ two_ne_zero]
    simp
  generalize hx : q * 2 ^ (-e) = x at *
  by_contra hr
  rw [not_le] at hr
  have hbig : (2 : ℚ) ^ (52 + k) ≤ q := by
    rw [zpow_add₀ two_ne_zero]
    refine le_trans ?_ hge
    exact mul_le_mul_of_nonneg_right (by norm_num; linarith) hkpos.le
  have hpos : 0 < q := lt_of_lt_of_le (by positivity) hbig
  have hlog : 52 + k < ilog2 q + 1 := by
    have hup := lt_two_pow_ilog2 q
    rw [abs_of_pos hpos] at hup
    exact (zpow_lt_zpow_iff_right₀ one_lt_two).mp (hbig.trans_lt hup)
  rcases (show k ≤ e by omega).eq_or_lt with heq | hlt
  · -- the last place is that of the threshold: a tie goes up to the even significand
    rw [← heq] at hcancel hr
    have hround : roundHalfEven x < m := by
      exact_mod_cast lt_of_mul_lt_mul_right hr hkpos.le
    have hxm : (m : ℚ) - 1 / 2 ≤ x := by
      rw [← hcancel] at hge
      exact le_of_mul_le_mul_right hge hkpos
    have hstep : (m : ℚ) - 1 ≤ roundHalfEven x := by linarith
    have hprev : roundHalfEven x = m - 1 := by
      have hstep' : m - 1 ≤ roundHalfEven x := by exact_mod_cast hstep
      omega
    have htie : |(roundHalfEven x : ℚ) - x| = 1 / 2 := by
      rw [hprev] at hlo hhi ⊢
      push_cast at hlo hhi ⊢
      rw [abs_of_nonpos (by linarith)]
      linarith
    have hparity := roundHalfEven_even_of_tie htie
    omega
  · have hexp : e = ilog2 q - 52 := by omega
    have hlow := two_pow_ilog2_le hq
    rw [abs_of_pos hpos, show ilog2 q = 52 + e by omega, zpow_add₀ two_ne_zero, ← hcancel] at hlow
    have hxbig : (2 : ℚ) ^ (52 : ℤ) ≤ x := le_of_mul_le_mul_right hlow hepos
    have hround : (2 : ℤ) ^ 52 ≤ roundHalfEven x := by
      have hnear : ((2 ^ 52 - 1 : ℤ) : ℚ) < roundHalfEven x := by
        norm_num at hxbig ⊢
        linarith
      have hint : (2 : ℤ) ^ 52 - 1 < roundHalfEven x := by exact_mod_cast hnear
      omega
    have hroundq : (2 : ℚ) ^ 52 ≤ roundHalfEven x := by exact_mod_cast hround
    have hdouble : 2 * (2 : ℚ) ^ k ≤ 2 ^ e := by
      rw [← zpow_one_add₀ two_ne_zero]
      exact zpow_le_zpow_right₀ one_le_two (by omega)
    nlinarith

theorem Double.ofRat_lt_iff (h : Double.ofRat q = .finite r) (hm : 2 ^ 52 < m) (hm' : m ≤ 2 ^ 53)
    (heven : m % 2 = 0) (hk : -1074 ≤ k) : r < m * 2 ^ k ↔ q < (m - 1 / 2) * 2 ^ k := by
  constructor
  · intro hr
    by_contra hge
    exact absurd (Double.le_ofRat h hm hm' heven hk (not_lt.mp hge)) (not_le.mpr hr)
  · exact Double.ofRat_lt h (by omega) hm' hk

end

end TitanRobot

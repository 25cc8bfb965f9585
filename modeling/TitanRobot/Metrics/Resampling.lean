import TitanRobot.Metrics.Path

/-!
# Poses put in between

A pose put onto a segment does not change the length of the path. Strictly inside the segment it
does not change the smoothness either; at an end it makes a segment of length zero, whose
heading is zero, and so adds the detour over the heading zero.
-/
namespace TitanRobot.Metrics
open Variation

/-- `c` is on the closed segment from `a` to `b`. -/
def OnSegment (a b c : Position ℝ) : Prop :=
  ∃ t, 0 ≤ t ∧ t ≤ 1 ∧ c.x = a.x + t * (b.x - a.x) ∧ c.y = a.y + t * (b.y - a.y)

theorem hypot_mul {t : ℝ} (ht : 0 ≤ t) (x y : ℝ) : hypot (t * x) (t * y) = t * hypot x y := by
  have hsq : (t * x) ^ 2 + (t * y) ^ 2 = t ^ 2 * (x ^ 2 + y ^ 2) := by ring
  rw [hypot, hypot, hsq, Real.sqrt_mul (sq_nonneg t), Real.sqrt_sq ht]

theorem atan2_mul {t : ℝ} (ht : 0 < t) (y x : ℝ) : atan2 (t * y) (t * x) = atan2 y x := by
  have hmul : (⟨t * x, t * y⟩ : ℂ) = t * ⟨x, y⟩ := by
    apply Complex.ext <;> simp
  rw [atan2, hmul, Complex.arg_real_mul _ ht]
  rfl

@[simp] theorem heading_self (a : Position ℝ) : heading a a = 0 := by
  have hzero : (⟨0, 0⟩ : ℂ) = 0 := rfl
  simp [heading, atan2, hzero]

section
variable {a b c : Position ℝ}

theorem hypot_onSegment (h : OnSegment a b c) :
    hypot (c.x - a.x) (c.y - a.y) + hypot (b.x - c.x) (b.y - c.y) =
      hypot (b.x - a.x) (b.y - a.y) := by
  obtain ⟨t, h0, h1, hx, hy⟩ := h
  have hfirst : hypot (c.x - a.x) (c.y - a.y) = t * hypot (b.x - a.x) (b.y - a.y) := by
    rw [← hypot_mul h0]
    congr 1 <;> linarith
  have hsecond : hypot (b.x - c.x) (b.y - c.y) = (1 - t) * hypot (b.x - a.x) (b.y - a.y) := by
    rw [← hypot_mul (by linarith)]
    congr 1 <;> linarith
  rw [hfirst, hsecond]
  ring

/-- Strictly inside the segment, both parts have its heading. -/
theorem heading_onSegment (h : OnSegment a b c) (ha : c ≠ a) (hb : c ≠ b) :
    heading a c = heading a b ∧ heading c b = heading a b := by
  obtain ⟨t, h0, h1, hx, hy⟩ := h
  have hpos : 0 < t := by
    refine lt_of_le_of_ne h0 fun ht => ha ?_
    apply Position.ext
    · rw [hx, ← ht, zero_mul, add_zero]
    · rw [hy, ← ht, zero_mul, add_zero]
  have hlt : t < 1 := by
    refine lt_of_le_of_ne h1 fun ht => hb ?_
    apply Position.ext
    · rw [hx, ht]
      ring
    · rw [hy, ht]
      ring
  constructor
  · rw [heading, heading, ← atan2_mul hpos (b.y - a.y)]
    congr 1 <;> linarith
  · have h1t : 0 < 1 - t := by linarith
    rw [heading, heading, ← atan2_mul h1t (b.y - a.y)]
    congr 1 <;> linarith

variable (pre post : Path ℝ)

theorem computePathLength_insert (h : OnSegment a b c) :
    computePathLength (pre ++ a :: c :: b :: post) = computePathLength (pre ++ a :: b :: post) := by
  rw [computePathLength_append, computePathLength_append pre (b :: post)]
  simp only [computePathLength_cons_cons]
  linarith [hypot_onSegment h]

theorem headings_insert (x : Position ℝ) :
    headings (pre ++ a :: x :: post) =
      headings (pre ++ [a]) ++ heading a x :: headings (x :: post) := by
  rw [headings_append, headings_cons_cons]

/-- The smoothness stays, if at an end of the segment the heading zero lies on the way. -/
theorem computeSmoothness_insert_iff (h : OnSegment a b c) :
    computeSmoothness (pre ++ a :: c :: b :: post) = computeSmoothness (pre ++ a :: b :: post) ↔
      (c = a → Passes (headings (pre ++ [a])).getLast? 0 (some (heading a b))) ∧
      (c = b → Passes (some (heading a b)) 0 (headings (b :: post)).head?) := by
  rw [computeSmoothness_eq, computeSmoothness_eq, headings_insert, headings_insert,
    headings_cons_cons]
  have hself : ∀ g : Option ℝ, ∀ x : ℝ, Passes g x (some x) := by
    intro g x
    cases g with
    | none => rfl
    | some g =>
      rcases le_total g x with hle | hle
      · exact .inl ⟨hle, le_refl x⟩
      · exact .inr ⟨le_refl x, hle⟩
  have hself' : ∀ k : Option ℝ, ∀ x : ℝ, Passes (some x) x k := by
    intro k x
    cases k with
    | none => rfl
    | some k =>
      rcases le_total x k with hle | hle
      · exact .inl ⟨le_refl x, hle⟩
      · exact .inr ⟨hle, le_refl x⟩
  by_cases ha : c = a
  · subst ha
    rw [heading_self, variation_insert, add_eq_left, detour_eq_zero_iff, List.head?_cons]
    constructor
    · intro hpass
      refine ⟨fun _ => hpass, ?_⟩
      rintro rfl
      rw [heading_self]
      exact hself' _ 0
    · exact fun hpass => hpass.1 rfl
  · by_cases hb : c = b
    · subst hb
      have hsplit : ∀ x : ℝ, headings (pre ++ [a]) ++ heading a c :: x :: headings (c :: post) =
          (headings (pre ++ [a]) ++ [heading a c]) ++ x :: headings (c :: post) := by simp
      have hjoin : headings (pre ++ [a]) ++ heading a c :: headings (c :: post) =
          (headings (pre ++ [a]) ++ [heading a c]) ++ headings (c :: post) := by simp
      rw [heading_self, hsplit, variation_insert, ← hjoin, add_eq_left, detour_eq_zero_iff,
        List.getLast?_concat]
      simp [ha]
    · obtain ⟨hac, hcb⟩ := heading_onSegment h ha hb
      rw [hac, hcb, variation_insert, add_eq_left, detour_eq_zero_iff, List.head?_cons]
      exact iff_of_true (hself _ _) ⟨fun heq => absurd heq ha, fun heq => absurd heq hb⟩

/-- When a pose put onto a segment changes neither metric: it is no end of the segment, or zero
lies between the headings on the two sides of that end, or is the only one. -/
theorem resampled_iff (h : OnSegment a b c) :
    (computePathLength (pre ++ a :: c :: b :: post) = computePathLength (pre ++ a :: b :: post) ∧
      computeSmoothness (pre ++ a :: c :: b :: post) = computeSmoothness (pre ++ a :: b :: post)) ↔
      (c = a → Passes (headings (pre ++ [a])).getLast? 0 (some (heading a b))) ∧
      (c = b → Passes (some (heading a b)) 0 (headings (b :: post)).head?) := by
  rw [← computeSmoothness_insert_iff pre post h]
  exact and_iff_right (computePathLength_insert pre post h)

end

/-- A pose in the middle of a segment changes nothing. -/
theorem midpoint_resampled :
    computePathLength [⟨0, 0⟩, ⟨0, 1⟩, ⟨0, 2⟩] = computePathLength [⟨0, 0⟩, ⟨0, 2⟩] ∧
      computeSmoothness [⟨0, 0⟩, ⟨0, 1⟩, ⟨0, 2⟩] = computeSmoothness [⟨0, 0⟩, ⟨0, 2⟩] :=
  (resampled_iff [] [] (a := ⟨0, 0⟩) (b := ⟨0, 2⟩) (c := ⟨0, 1⟩)
    ⟨1 / 2, by norm_num, by norm_num, by norm_num, by norm_num⟩).mpr ⟨by simp, by simp⟩

/-- The first pose sent twice turns a straight path to the left by a quarter. -/
theorem doubled_start_turns :
    ¬ ∀ (pre post : Path ℝ) (a b c : Position ℝ), OnSegment a b c →
      computePathLength (pre ++ a :: c :: b :: post) = computePathLength (pre ++ a :: b :: post) ∧
      computeSmoothness (pre ++ a :: c :: b :: post) =
        computeSmoothness (pre ++ a :: b :: post) := by
  intro hall
  have hon : OnSegment ⟨0, 0⟩ ⟨0, 1⟩ ⟨0, 0⟩ := ⟨0, le_refl 0, zero_le_one, by simp, by simp⟩
  have hpass := ((computeSmoothness_insert_iff [] [] hon).mp (hall [] [] _ _ _ hon).2).1 rfl
  have hup : heading ⟨0, 0⟩ ⟨0, 1⟩ = Real.pi / 2 := by
    have hI : (⟨0, 1⟩ : ℂ) = Complex.I := rfl
    simp [heading, atan2, hI]
  rw [hup] at hpass
  have hzero : Real.pi / 2 = 0 := hpass
  linarith [Real.pi_pos]

end TitanRobot.Metrics

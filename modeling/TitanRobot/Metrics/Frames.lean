import TitanRobot.Metrics.Path

/-!
# The frame of the map

The smoothness of a path that is moved in the plane, and of the path run backwards. The loop
takes the difference of two headings as it is, so a turn across the cut of `atan2` counts as the
turn the other way round.
-/
namespace TitanRobot.Metrics
open Variation Turning

/-- The position turned about the origin by `θ` and shifted by `t`. -/
noncomputable def move (θ : ℝ) (t p : Position ℝ) : Position ℝ where
  x := Real.cos θ * p.x - Real.sin θ * p.y + t.x
  y := Real.sin θ * p.x + Real.cos θ * p.y + t.y

theorem principal_heading (a b : Position ℝ) : Principal (heading a b) := Complex.arg_mem_Ioc _

theorem principal_of_mem_headings {path : Path ℝ} : ∀ h ∈ headings path, Principal h := by
  intro h hh
  obtain ⟨e, -, rfl⟩ := List.mem_map.mp hh
  exact principal_heading e.1 e.2

/-- A turn of the plane adds its angle to `atan2`. -/
theorem atan2_rotate (θ : ℝ) {x y : ℝ} (h : ¬ (x = 0 ∧ y = 0)) :
    atan2 (Real.sin θ * x + Real.cos θ * y) (Real.cos θ * x - Real.sin θ * y) =
      wrap (atan2 y x + θ) := by
  let z : ℂ := ⟨x, y⟩
  let w : ℂ := Complex.cos θ + Complex.sin θ * Complex.I
  have hz : z ≠ 0 := fun hz => h (Complex.ext_iff.mp hz)
  have hw : w ≠ 0 := by
    intro hw
    have hnorm := Complex.norm_cos_add_sin_mul_I θ
    rw [show Complex.cos θ + Complex.sin θ * Complex.I = 0 from hw] at hnorm
    simp at hnorm
  have hmul : (⟨Real.cos θ * x - Real.sin θ * y, Real.sin θ * x + Real.cos θ * y⟩ : ℂ) = w * z := by
    apply Complex.ext
    · simp [w, z, Complex.cos_ofReal_re, Complex.sin_ofReal_re]
    · simp [w, z, Complex.cos_ofReal_re, Complex.sin_ofReal_re]
      ring
  have hangle : ((Complex.arg (w * z) : ℝ) : Real.Angle) = (Complex.arg z + θ : ℝ) := by
    have harg : (Complex.arg w : Real.Angle) = θ := by
      have hcoe := Complex.arg_cos_add_sin_mul_I_coe_angle (θ : Real.Angle)
      simpa [w] using hcoe
    rw [Complex.arg_mul_coe_angle hw hz, harg, Real.Angle.coe_add, add_comm]
  obtain ⟨k, hk⟩ := Real.Angle.angle_eq_iff_two_pi_dvd_sub.mp hangle
  rw [atan2, hmul]
  refine (wrap_of_turns (Complex.arg_mem_Ioc _) (-k) ?_).symm
  push_cast
  change Complex.arg z + θ - Complex.arg (w * z) = _
  linarith

theorem heading_move (θ : ℝ) (t : Position ℝ) {a b : Position ℝ} (h : a ≠ b) :
    heading (move θ t a) (move θ t b) = wrap (heading a b + θ) := by
  have hne : ¬ (b.x - a.x = 0 ∧ b.y - a.y = 0) := by
    rintro ⟨hx, hy⟩
    exact h (Position.ext (by linarith) (by linarith))
  rw [heading, heading, ← atan2_rotate θ hne]
  congr 1 <;> simp only [move] <;> ring

section
variable {path : Path ℝ} (hne : path.IsChain (· ≠ ·))
include hne

theorem headings_move (θ : ℝ) (t : Position ℝ) :
    headings (path.map (move θ t)) = turned θ (headings path) := by
  rw [headings, segments_map, headings, turned, List.map_map, List.map_map]
  apply List.map_congr_left
  intro e he
  exact heading_move θ t (ne_of_mem_segments hne he)

/-- Run backwards, every heading is turned round. -/
theorem headings_reverse : headings path.reverse = (turned Real.pi (headings path)).reverse := by
  rw [headings, segments_reverse, headings, turned, List.map_reverse, List.map_map, List.map_map]
  congr 1
  apply List.map_congr_left
  intro e he
  have hdir := ne_of_mem_segments hne he
  have hmove := heading_move Real.pi ⟨0, 0⟩ hdir
  refine Eq.trans ?_ hmove
  simp only [Function.comp_apply, Prod.fst_swap, Prod.snd_swap, heading, move, Real.cos_pi,
    Real.sin_pi]
  congr 1 <;> ring

/-- When the smoothness of a path is the same in every frame and backwards: in every heading, the
turns into the segments with it weigh as much as the turns out of them. -/
theorem smoothness_frameless_iff :
    ((∀ θ t, computeSmoothness (path.map (move θ t)) = computeSmoothness path) ∧
        computeSmoothness path.reverse = computeSmoothness path) ↔
      Balanced (headings path) := by
  have hturned := variation_turned_iff (@principal_of_mem_headings path)
  simp only [computeSmoothness_eq]
  rw [headings_reverse hne, variation_reverse, ← hturned]
  constructor
  · rintro ⟨hmove, -⟩ θ
    rw [← headings_move hne θ ⟨0, 0⟩]
    exact hmove θ ⟨0, 0⟩
  · intro h
    refine ⟨fun θ t => ?_, h Real.pi⟩
    rw [headings_move hne]
    exact h θ

end

/-! ## Round a square, and a corner -/

/-- Once round a square and along its first side again. -/
def roundSquare : Path ℝ := [⟨0, 0⟩, ⟨1, 0⟩, ⟨1, 1⟩, ⟨0, 1⟩, ⟨0, 0⟩, ⟨1, 0⟩]

theorem headings_roundSquare :
    headings roundSquare = [0, Real.pi / 2, Real.pi, -(Real.pi / 2), 0] := by
  have hright : (⟨1, 0⟩ : ℂ) = 1 := rfl
  have hup : (⟨0, 1⟩ : ℂ) = Complex.I := rfl
  have hleft : (⟨-1, 0⟩ : ℂ) = -1 := by apply Complex.ext <;> simp
  have hdown : (⟨0, -1⟩ : ℂ) = -Complex.I := by apply Complex.ext <;> simp
  simp [roundSquare, heading, atan2, hright, hup, hleft, hdown]

/-- All turns round the square are quarters to the left. -/
theorem balanced_roundSquare : Balanced (headings roundSquare) := by
  have hpi := Real.pi_pos
  have hquarter : ∀ h g : ℝ, ∀ k : ℤ, g - h - Real.pi / 2 = k * (2 * Real.pi) →
      weight h g = Real.pi - Real.pi / 2 :=
    fun h g k heq => weight_of_left (by linarith) (by linarith) k heq
  rw [headings_roundSquare]
  refine balanced_of_even (w := Real.pi - Real.pi / 2) ?_ rfl
  simp only [List.isChain_cons_cons, List.isChain_singleton, and_true]
  refine ⟨hquarter _ _ 0 ?_, hquarter _ _ 0 ?_, hquarter _ _ (-1) ?_, hquarter _ _ 0 ?_⟩
  all_goals push_cast; ring

/-- Round the square, in every frame and backwards. -/
theorem roundSquare_frameless :
    (∀ θ t, computeSmoothness (roundSquare.map (move θ t)) = computeSmoothness roundSquare) ∧
      computeSmoothness roundSquare.reverse = computeSmoothness roundSquare := by
  have hne : roundSquare.IsChain (· ≠ ·) := by simp [roundSquare]
  exact (smoothness_frameless_iff hne).mpr balanced_roundSquare

/-- A left turn by a quarter that crosses the cut counts as three quarters to the right. -/
theorem corner_depends_on_frame :
    ¬ ∀ path : Path ℝ, 3 ≤ path.length → path.IsChain (· ≠ ·) →
      (∀ θ t, computeSmoothness (path.map (move θ t)) = computeSmoothness path) ∧
        computeSmoothness path.reverse = computeSmoothness path := by
  intro hall
  have hne : List.IsChain (· ≠ ·) ([⟨0, 0⟩, ⟨-1, 0⟩, ⟨-1, -1⟩] : Path ℝ) := by simp
  have hsame := (hall _ (by simp) hne).1 Real.pi ⟨0, 0⟩
  have hheadings : headings [⟨0, 0⟩, ⟨-1, 0⟩, ⟨-1, -1⟩] = [Real.pi, -(Real.pi / 2)] := by
    have hleft : (⟨-1, 0⟩ : ℂ) = -1 := by apply Complex.ext <;> simp
    have hdown : (⟨0, -1⟩ : ℂ) = -Complex.I := by apply Complex.ext <;> simp
    simp [heading, atan2, hleft, hdown]
  have hpi := Real.pi_pos
  have hfirst : wrap (Real.pi + Real.pi) = 0 :=
    wrap_of_turns ⟨by linarith, hpi.le⟩ 1 (by push_cast; ring)
  have hsecond : wrap (-(Real.pi / 2) + Real.pi) = Real.pi / 2 :=
    wrap_of_turns ⟨by linarith, by linarith⟩ 0 (by push_cast; ring)
  rw [computeSmoothness_eq, computeSmoothness_eq, headings_move hne, hheadings] at hsame
  simp only [turned, List.map_cons, List.map_nil, hfirst, hsecond, variation_cons_cons,
    variation_singleton, add_zero, sub_zero] at hsame
  rw [abs_of_pos (by linarith), abs_of_neg (by linarith)] at hsame
  linarith

end TitanRobot.Metrics

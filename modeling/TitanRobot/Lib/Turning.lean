import TitanRobot.Lib.Variation

/-!
# Headings and the frame they are taken in

A heading is an angle in `(-π, π]`, and turning the frame by `θ` adds `θ` and wraps. The
differences of neighbouring headings depend on the frame: a turn by `τ` is seen as `|τ|`, or as
`2π - |τ|` from a frame whose cut lies within the turn. Their sum is the same in all frames
exactly if the list is balanced: in every heading, the turns that lead into it weigh as much
as the turns that lead out of it, a turn by `τ` having the weight `π - |τ|` to its own side.
-/
namespace TitanRobot.Turning
open Real Variation

/-- The angle in `(-π, π]`. -/
noncomputable def wrap (x : ℝ) : ℝ := toIocMod two_pi_pos (-π) x

/-- An angle in `(-π, π]`. -/
def Principal (h : ℝ) : Prop := -π < h ∧ h ≤ π

theorem principal_wrap (x : ℝ) : Principal (wrap x) := by
  have h := toIocMod_mem_Ioc two_pi_pos (-π) x
  have hhi : wrap x ≤ -π + 2 * π := h.2
  exact ⟨h.1, by linarith⟩

theorem wrap_eq (x : ℝ) : ∃ k : ℤ, wrap x = x - k * (2 * π) := by
  refine ⟨toIocDiv two_pi_pos (-π) x, ?_⟩
  rw [wrap, toIocMod, zsmul_eq_mul]

/-- Two principal angles a whole number of turns apart are one. -/
theorem Principal.eq_of_turns {h g : ℝ} (hh : Principal h) (hg : Principal g) {k : ℤ}
    (heq : h - g = k * (2 * π)) : h = g := by
  obtain ⟨hlo, hhi⟩ := hh
  obtain ⟨glo, ghi⟩ := hg
  have hpi := pi_pos
  have hk : k = 0 := by
    have hup : (k : ℝ) < 1 := by nlinarith
    have hdown : (-1 : ℝ) < k := by nlinarith
    have hup' : k < 1 := by exact_mod_cast hup
    have hdown' : -1 < k := by exact_mod_cast hdown
    omega
  rw [hk] at heq
  simpa [sub_eq_zero] using heq

theorem wrap_of_turns {x h : ℝ} (hh : Principal h) (k : ℤ) (heq : x - h = k * (2 * π)) :
    wrap x = h := by
  obtain ⟨j, hj⟩ := wrap_eq x
  refine (principal_wrap x).eq_of_turns hh (k := k - j) ?_
  push_cast
  linarith

theorem wrap_of_principal {h : ℝ} (hh : Principal h) : wrap h = h :=
  wrap_of_turns hh 0 (by simp)

theorem wrap_wrap_add (x θ : ℝ) : wrap (wrap x + θ) = wrap (x + θ) := by
  obtain ⟨j, hj⟩ := wrap_eq x
  obtain ⟨k, hk⟩ := wrap_eq (x + θ)
  refine wrap_of_turns (principal_wrap _) (k - j) ?_
  push_cast
  linarith

/-! ## One turn -/

/-- The turn from one heading to another, to the left if positive. -/
noncomputable def turn (h g : ℝ) : ℝ := wrap (g - h)

/-- The weight of a turn, to its own side; none if it goes straight on or back. -/
noncomputable def weight (h g : ℝ) : ℝ := SignType.sign (turn h g) * (π - |turn h g|)

/-- The difference of two headings in a frame: linear in the headings, up to a part that does
not depend on the frame. -/
theorem pi_mul_abs_sub (h g θ : ℝ) :
    π * |wrap (g + θ) - wrap (h + θ)| =
      |turn h g| * (2 * π - |turn h g|) - weight h g * (wrap (g + θ) - wrap (h + θ)) := by
  obtain ⟨hlo, hhi⟩ := principal_wrap (h + θ)
  obtain ⟨glo, ghi⟩ := principal_wrap (g + θ)
  obtain ⟨tlo, thi⟩ := principal_wrap (g - h)
  obtain ⟨i, hi⟩ := wrap_eq (h + θ)
  obtain ⟨j, hj⟩ := wrap_eq (g + θ)
  obtain ⟨k, hk⟩ := wrap_eq (g - h)
  rw [weight, turn]
  generalize wrap (h + θ) = a at *
  generalize wrap (g + θ) = b at *
  generalize wrap (g - h) = τ at *
  have hpi := pi_pos
  obtain ⟨n, hn⟩ : ∃ n : ℤ, b - a = τ + n * (2 * π) := by
    refine ⟨i - j + k, ?_⟩
    push_cast
    linarith
  have hup : (n : ℝ) < 2 := by nlinarith
  have hdown : (-2 : ℝ) < n := by nlinarith
  have hn' : n = -1 ∨ n = 0 ∨ n = 1 := by
    have : n < 2 := by exact_mod_cast hup
    have : -2 < n := by exact_mod_cast hdown
    omega
  rcases lt_trichotomy τ 0 with hτ | rfl | hτ
  · have hsign : (SignType.sign τ : ℝ) = -1 := by simp [sign_neg hτ]
    rw [hsign, abs_of_neg hτ]
    obtain hd | hd : b - a = τ ∨ b - a = τ + 2 * π := by
      rcases hn' with rfl | rfl | rfl <;> push_cast at hn
      · linarith
      · exact .inl (by linarith)
      · exact .inr (by linarith)
    · rw [hd, abs_of_neg hτ]
      ring
    · rw [hd, abs_of_pos (by linarith)]
      ring
  · have hd : b - a = 0 := by
      rcases hn' with rfl | rfl | rfl <;> push_cast at hn <;> linarith
    simp [hd]
  · have hsign : (SignType.sign τ : ℝ) = 1 := by simp [sign_pos hτ]
    rw [hsign, abs_of_pos hτ]
    obtain hd | hd : b - a = τ ∨ b - a = τ - 2 * π := by
      rcases hn' with rfl | rfl | rfl <;> push_cast at hn
      · exact .inr (by linarith)
      · exact .inl (by linarith)
      · linarith
    · rw [hd, abs_of_pos hτ]
      ring
    · rw [hd, abs_of_nonpos (by linarith)]
      ring

/-! ## Balance -/

/-- Every heading with the weight of the turn that leads into it less that of the turn that leads
out of it, `w` being the weight of the turn before the list. -/
noncomputable def loads (w : ℝ) : List ℝ → List (ℝ × ℝ)
  | [] => []
  | [h] => [(h, w)]
  | h :: g :: hs => (h, w - weight h g) :: loads (weight h g) (g :: hs)

/-- What the headings weighed by their loads add up to. -/
noncomputable def moment (w : ℝ) (hs : List ℝ) (f : ℝ → ℝ) : ℝ :=
  ((loads w hs).map fun e => e.2 * f e.1).sum

/-- In every heading, the turns into it weigh as much as the turns out of it. -/
def Balanced (hs : List ℝ) : Prop := ∀ h, moment 0 hs (fun g => if g = h then 1 else 0) = 0

/-- The headings in the frame turned by `θ`. -/
noncomputable def turned (θ : ℝ) (hs : List ℝ) : List ℝ := hs.map fun h => wrap (h + θ)

theorem moment_cons_cons (w h g : ℝ) (hs : List ℝ) (f : ℝ → ℝ) :
    moment w (h :: g :: hs) f = (w - weight h g) * f h + moment (weight h g) (g :: hs) f := rfl

theorem moment_singleton (w h : ℝ) (f : ℝ → ℝ) : moment w [h] f = w * f h := by
  simp [moment, loads]

theorem moment_const (hs : List ℝ) (c : ℝ) : moment 0 hs (fun _ => c) = 0 := by
  cases hs with
  | nil => rfl
  | cons h hs =>
    have hcons : ∀ w, moment w (h :: hs) (fun _ => c) = w * c := by
      induction hs generalizing h with
      | nil => exact fun w => moment_singleton w h _
      | cons g hs ih =>
        intro w
        rw [moment_cons_cons, ih]
        ring
    rw [hcons, zero_mul]

theorem loads_fst (w : ℝ) (hs : List ℝ) : (loads w hs).map Prod.fst = hs := by
  induction hs generalizing w with
  | nil => rfl
  | cons h hs ih =>
    cases hs with
    | nil => rfl
    | cons g hs => simp [loads, ih]

/-- Only the values at the headings matter. -/
theorem moment_congr {w : ℝ} {hs : List ℝ} {f f' : ℝ → ℝ} (h : ∀ g ∈ hs, f g = f' g) :
    moment w hs f = moment w hs f' := by
  unfold moment
  congr 1
  apply List.map_congr_left
  intro e he
  have hmem : e.1 ∈ hs := by
    rw [← loads_fst w hs]
    exact List.mem_map_of_mem he
  rw [h e.1 hmem]

theorem moment_add (w : ℝ) (hs : List ℝ) (f f' : ℝ → ℝ) :
    moment w hs (fun g => f g + f' g) = moment w hs f + moment w hs f' := by
  simp only [moment, mul_add, List.sum_map_add]

theorem moment_mul (w c : ℝ) (hs : List ℝ) (f : ℝ → ℝ) :
    moment w hs (fun g => c * f g) = c * moment w hs f := by
  simp only [moment, mul_left_comm _ c, List.sum_map_mul_left]

theorem moment_sum (w : ℝ) (hs : List ℝ) (s : Finset ℝ) (f : ℝ → ℝ → ℝ) :
    moment w hs (fun g => ∑ k ∈ s, f k g) = ∑ k ∈ s, moment w hs (f k) := by
  induction s using Finset.induction_on with
  | empty => simp [moment]
  | insert k s hk ih =>
    simp only [Finset.sum_insert hk]
    rw [moment_add, ih]

/-- A balanced list has no moment at all: a function is the sum of its values at the headings. -/
theorem Balanced.moment_eq_zero {hs : List ℝ} (h : Balanced hs) (f : ℝ → ℝ) :
    moment 0 hs f = 0 := by
  have hsplit : ∀ g ∈ hs, f g = ∑ k ∈ hs.toFinset, f k * if g = k then 1 else 0 := by
    intro g hg
    simp [hg]
  rw [moment_congr hsplit, moment_sum]
  apply Finset.sum_eq_zero
  intro k _
  rw [moment_mul, h k, mul_zero]

theorem weight_of_left {h g τ : ℝ} (hlo : 0 < τ) (hhi : τ ≤ π) (k : ℤ)
    (heq : g - h - τ = k * (2 * π)) : weight h g = π - τ := by
  have hturn : turn h g = τ := wrap_of_turns ⟨by linarith, hhi⟩ k heq
  rw [weight, hturn, sign_pos hlo, abs_of_pos hlo, SignType.coe_one, one_mul]

/-- Turns of one weight load the ends only. -/
theorem moment_of_even {w : ℝ} {h : ℝ} {hs : List ℝ}
    (heven : List.IsChain (weight · · = w) (h :: hs)) (v : ℝ) (f : ℝ → ℝ) :
    moment v (h :: hs) f = (v - w) * f h + w * f ((h :: hs).getLast (List.cons_ne_nil h hs)) := by
  induction hs generalizing h v with
  | nil =>
    rw [moment_singleton, List.getLast_singleton]
    ring
  | cons g hs ih =>
    obtain ⟨hfirst, hrest⟩ := List.isChain_cons_cons.mp heven
    rw [moment_cons_cons, hfirst, ih hrest, List.getLast_cons (List.cons_ne_nil g hs)]
    ring

/-- Headings that come back to the first by turns of one weight are balanced. -/
theorem balanced_of_even {w h : ℝ} {hs : List ℝ}
    (heven : List.IsChain (weight · · = w) (h :: hs))
    (hclosed : (h :: hs).getLast (List.cons_ne_nil h hs) = h) : Balanced (h :: hs) := by
  intro k
  rw [moment_of_even heven, hclosed]
  ring

/-! ## All frames -/

/-- The variation in a frame, up to a part that does not depend on the frame. -/
theorem pi_mul_variation (w h : ℝ) (hs : List ℝ) :
    ∃ c, ∀ θ, π * variation (turned θ (h :: hs)) =
      c - moment w (h :: hs) (fun g => wrap (g + θ)) + w * wrap (h + θ) := by
  induction hs generalizing w h with
  | nil => exact ⟨0, fun θ => by simp [turned, moment_singleton]⟩
  | cons g hs ih =>
    obtain ⟨c, hc⟩ := ih (weight h g) g
    refine ⟨|turn h g| * (2 * π - |turn h g|) + c, fun θ => ?_⟩
    have hrest := hc θ
    have hfirst := pi_mul_abs_sub h g θ
    rw [moment_cons_cons]
    simp only [turned, List.map_cons, variation_cons_cons] at hrest ⊢
    linear_combination hrest + hfirst

theorem variation_eq_iff_moment (hs : List ℝ) (θ θ' : ℝ) :
    variation (turned θ hs) = variation (turned θ' hs) ↔
      moment 0 hs (fun g => wrap (g + θ)) = moment 0 hs (fun g => wrap (g + θ')) := by
  cases hs with
  | nil => simp [turned, moment, loads]
  | cons h hs =>
    obtain ⟨c, hc⟩ := pi_mul_variation 0 h hs
    have hθ := hc θ
    have hθ' := hc θ'
    have hpi := pi_ne_zero
    constructor
    · intro heq
      rw [heq] at hθ
      linarith
    · intro heq
      rw [heq] at hθ
      have hmul : π * variation (turned θ (h :: hs)) = π * variation (turned θ' (h :: hs)) := by
        linarith
      exact mul_left_cancel₀ hpi hmul

/-- There is room for a small turn above finitely many headings below the cut. -/
theorem exists_room (hs : List ℝ) :
    ∃ ε, 0 < ε ∧ ε < π ∧ ∀ h ∈ hs, h < π → h + ε ≤ π := by
  induction hs with
  | nil => exact ⟨π / 2, by linarith [pi_pos], by linarith [pi_pos], by simp⟩
  | cons h hs ih =>
    obtain ⟨ε, hpos, hlt, hroom⟩ := ih
    by_cases hh : h < π
    · refine ⟨min ε (π - h), lt_min hpos (by linarith), lt_of_le_of_lt (min_le_left _ _) hlt, ?_⟩
      intro g hg hgπ
      rcases List.mem_cons.mp hg with rfl | hg
      · linarith [min_le_right ε (π - g)]
      · linarith [min_le_left ε (π - h), hroom g hg hgπ]
    · refine ⟨ε, hpos, hlt, fun g hg hgπ => ?_⟩
      rcases List.mem_cons.mp hg with rfl | hg
      · exact absurd hgπ hh
      · exact hroom g hg hgπ

/-- Past the cut, a small turn of the frame moves the headings at the cut by a whole turn and
all others by the same angle. -/
theorem wrap_past_cut {h a θ ε : ℝ} (hh : Principal h) (ha : Principal a) (hθ : a + θ = π)
    (hε : 0 < ε) (hroom : wrap (h + θ) < π → wrap (h + θ) + ε ≤ π) (hlt : ε < π) :
    wrap (h + (θ + ε)) = wrap (h + θ) + (ε + -(2 * π) * if h = a then 1 else 0) := by
  rw [← add_assoc, ← wrap_wrap_add]
  obtain ⟨hlo, hhi⟩ := principal_wrap (h + θ)
  split_ifs with heq
  · have hcut : wrap (h + θ) = π := by
      rw [heq, hθ]
      exact wrap_of_principal ⟨by linarith [pi_pos], le_refl π⟩
    rw [hcut]
    refine wrap_of_turns ⟨by linarith, by linarith⟩ 1 ?_
    push_cast
    ring
  · have hne : wrap (h + θ) < π := by
      refine lt_of_le_of_ne hhi fun hcut => heq ?_
      obtain ⟨k, hk⟩ := wrap_eq (h + θ)
      exact hh.eq_of_turns ha (k := k) (by linarith)
    rw [mul_zero, add_zero]
    exact wrap_of_principal ⟨by linarith, hroom hne⟩

/-- The variation of headings is the same in all frames exactly if they are balanced. -/
theorem variation_turned_iff {hs : List ℝ} (hp : ∀ h ∈ hs, Principal h) :
    (∀ θ, variation (turned θ hs) = variation hs) ↔ Balanced hs := by
  have hzero : turned 0 hs = hs := by
    have hid : ∀ h ∈ hs, wrap (h + 0) = h := by
      intro h hh
      rw [add_zero, wrap_of_principal (hp h hh)]
    exact (List.map_congr_left hid).trans (List.map_id hs)
  constructor
  · intro hall a
    by_cases ha : a ∈ hs
    · obtain ⟨ε, hpos, hlt, hroom⟩ := exists_room (turned (π - a) hs)
      have hmoment := (variation_eq_iff_moment hs (π - a + ε) (π - a)).mp
        ((hall _).trans (hall _).symm)
      have hjump : ∀ h ∈ hs, wrap (h + (π - a + ε)) =
          wrap (h + (π - a)) + (ε + -(2 * π) * if h = a then 1 else 0) := by
        intro h hh
        exact wrap_past_cut (hp h hh) (hp a ha) (by ring) hpos
          (hroom _ (List.mem_map_of_mem hh)) hlt
      rw [moment_congr hjump, moment_add, moment_add, moment_const, moment_mul] at hmoment
      have hpi := pi_pos
      have hprod : 2 * π * moment 0 hs (fun g => if g = a then 1 else 0) = 0 := by linarith
      rcases mul_eq_zero.mp hprod with h0 | h0
      · linarith
      · exact h0
    · have hnone : ∀ g ∈ hs, (if g = a then (1 : ℝ) else 0) = 0 := by
        rintro g hg
        rw [if_neg]
        rintro rfl
        exact ha hg
      rw [moment_congr hnone, moment_const]
  · intro hbal θ
    have heq := (variation_eq_iff_moment hs θ 0).mpr
      ((hbal.moment_eq_zero _).trans (hbal.moment_eq_zero _).symm)
    rwa [hzero] at heq

end TitanRobot.Turning

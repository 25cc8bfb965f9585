import TitanRobot.Lib.Turning

/-!
# Length and smoothness of a plan

`computePathLength` and `computeSmoothness` in exact real arithmetic. The one adds up the lengths
of the segments of the path; the other goes through their headings with the previous one in
hand, and comes to their total variation.
-/
namespace TitanRobot.Metrics
open Variation

/-- `pose.position` of a pose of the path; the rest of the pose is not read. -/
structure Position (α : Type) where
  x : α
  y : α
  deriving DecidableEq

@[ext] theorem Position.ext {α : Type} {p q : Position α} (hx : p.x = q.x) (hy : p.y = q.y) :
    p = q := by
  cases p
  cases q
  grind

/-- `path->poses` -/
abbrev Path (α : Type) := List (Position α)

noncomputable def hypot (x y : ℝ) : ℝ := √(x ^ 2 + y ^ 2)

noncomputable def atan2 (y x : ℝ) : ℝ := Complex.arg ⟨x, y⟩

/-- The pairs `poses[i - 1]`, `poses[i]` that the loops go through. -/
def segments {α : Type} (path : List α) : List (α × α) := path.zip path.tail

noncomputable def computePathLength (path : Path ℝ) : ℝ :=
  (segments path).foldl (fun length (a, b) => length + hypot (b.x - a.x) (b.y - a.y)) 0

/-- The variables of the loop in `computeSmoothness`. -/
structure Smoothing where
  smoothness : ℝ
  prevHeading : ℝ
  first : Bool

noncomputable def heading (a b : Position ℝ) : ℝ := atan2 (b.y - a.y) (b.x - a.x)

noncomputable def Smoothing.step (s : Smoothing) (segment : Position ℝ × Position ℝ) : Smoothing :=
  let h := heading segment.1 segment.2
  { smoothness := if s.first then s.smoothness else s.smoothness + |h - s.prevHeading|
    prevHeading := h
    first := false }

noncomputable def computeSmoothness (path : Path ℝ) : ℝ :=
  if path.length < 3 then 0
  else ((segments path).foldl Smoothing.step ⟨0, 0, true⟩).smoothness

/-! ## Segments -/

section
variable {α β : Type}

@[simp] theorem segments_nil : segments ([] : List α) = [] := rfl

@[simp] theorem segments_singleton (a : α) : segments [a] = [] := rfl

@[simp] theorem segments_cons_cons (a b : α) (l : List α) :
    segments (a :: b :: l) = (a, b) :: segments (b :: l) := rfl

theorem segments_append (l r : List α) (a : α) :
    segments (l ++ a :: r) = segments (l ++ [a]) ++ segments (a :: r) := by
  induction l with
  | nil => rfl
  | cons x l ih => cases l <;> simp_all

theorem segments_reverse (l : List α) :
    segments l.reverse = ((segments l).map Prod.swap).reverse := by
  induction l with
  | nil => rfl
  | cons a l ih =>
    cases l with
    | nil => rfl
    | cons b l =>
      rw [List.reverse_cons, List.reverse_cons, List.append_assoc, List.singleton_append,
        segments_append, ← List.reverse_cons, ih]
      simp

theorem segments_map (f : α → β) (l : List α) :
    segments (l.map f) = (segments l).map (Prod.map f f) := by
  induction l with
  | nil => rfl
  | cons a l ih => cases l <;> simp_all

theorem length_segments (l : List α) : (segments l).length = l.length - 1 := by
  simp [segments]

/-- Neighbours that are all different make segments of different ends. -/
theorem ne_of_mem_segments {l : List α} (h : l.IsChain (· ≠ ·)) {e : α × α}
    (he : e ∈ segments l) : e.1 ≠ e.2 := by
  induction l with
  | nil => simp at he
  | cons a l ih =>
    cases l with
    | nil => simp at he
    | cons b l =>
      obtain ⟨hab, hl⟩ := List.isChain_cons_cons.mp h
      rcases List.mem_cons.mp he with rfl | he
      · exact hab
      · exact ih hl he

end

/-! ## The loops -/

/-- The headings of the segments. -/
noncomputable def headings (path : Path ℝ) : List ℝ :=
  (segments path).map fun e => heading e.1 e.2

theorem computePathLength_eq_sum (path : Path ℝ) :
    computePathLength path =
      ((segments path).map fun e => hypot (e.2.x - e.1.x) (e.2.y - e.1.y)).sum := by
  have hfold : ∀ (es : List (Position ℝ × Position ℝ)) (s : ℝ),
      es.foldl (fun length (a, b) => length + hypot (b.x - a.x) (b.y - a.y)) s =
        s + (es.map fun e => hypot (e.2.x - e.1.x) (e.2.y - e.1.y)).sum := by
    intro es
    induction es with
    | nil => simp
    | cons e es ih =>
      intro s
      rw [List.foldl_cons, ih, List.map_cons, List.sum_cons, add_assoc]
  rw [computePathLength, hfold, zero_add]

/-- From the second segment on, the loop adds the variation from the previous heading on. -/
theorem foldl_step (es : List (Position ℝ × Position ℝ)) (s p : ℝ) :
    (es.foldl Smoothing.step ⟨s, p, false⟩).smoothness =
      s + variation (p :: es.map fun e => heading e.1 e.2) := by
  induction es generalizing s p with
  | nil => simp
  | cons e es ih =>
    rw [List.foldl_cons, List.map_cons, variation_cons_cons, ← add_assoc]
    exact ih _ _

/-- The smoothness is the total variation of the headings. -/
theorem computeSmoothness_eq (path : Path ℝ) : computeSmoothness path = variation (headings path) := by
  unfold computeSmoothness
  split_ifs with hlen
  · match path, hlen with
    | [], _ => rfl
    | [a], _ => rfl
    | [a, b], _ => rfl
    | a :: b :: c :: path, hlen =>
      simp only [List.length_cons] at hlen
      omega
  · match path, hlen with
    | [], hlen => simp at hlen
    | a :: path, _ =>
      cases path with
      | nil => rfl
      | cons b path =>
        rw [segments_cons_cons, List.foldl_cons]
        refine (foldl_step _ 0 (heading a b)).trans ?_
        rw [zero_add]
        rfl

theorem headings_append (l r : Path ℝ) (a : Position ℝ) :
    headings (l ++ a :: r) = headings (l ++ [a]) ++ headings (a :: r) := by
  rw [headings, segments_append, List.map_append]
  rfl

@[simp] theorem headings_cons_cons (a b : Position ℝ) (l : Path ℝ) :
    headings (a :: b :: l) = heading a b :: headings (b :: l) := rfl

@[simp] theorem headings_singleton (a : Position ℝ) : headings [a] = [] := rfl

theorem computePathLength_append (l r : Path ℝ) (a : Position ℝ) :
    computePathLength (l ++ a :: r) = computePathLength (l ++ [a]) + computePathLength (a :: r) := by
  simp only [computePathLength_eq_sum]
  rw [segments_append, List.map_append, List.sum_append]

theorem computePathLength_cons_cons (a b : Position ℝ) (l : Path ℝ) :
    computePathLength (a :: b :: l) = hypot (b.x - a.x) (b.y - a.y) + computePathLength (b :: l) := by
  simp only [computePathLength_eq_sum, segments_cons_cons, List.map_cons, List.sum_cons]

end TitanRobot.Metrics

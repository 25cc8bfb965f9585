import TitanRobot.Metrics.Clearance

/-!
# Plans that follow one another

The metrics of a plan that goes on where another one ends. Each loop is split at the pose that the
two have in common: the lengths add up, the smoothness counts the turn at the pose once more, and
the clearance is the smaller one.
-/
namespace TitanRobot.Metrics
open Variation

/-- One plan and then the other, which begins where the first one ends. -/
def join (P Q : Path ℝ) : Path ℝ := P ++ Q.tail

/-- Two plans that meet in a pose. -/
structure Meets (P Q : Path ℝ) : Prop where
  left : 2 ≤ P.length
  right : 2 ≤ Q.length
  meet : Q.head? = P.getLast?

section
variable {P Q : Path ℝ}

/-- The pose in which two plans meet, with a pose before and a pose after it. -/
theorem Meets.split (h : Meets P Q) :
    ∃ l r a, P = l ++ [a] ∧ Q = a :: r ∧ join P Q = l ++ a :: r ∧ l ≠ [] ∧ r ≠ [] := by
  obtain ⟨hP, hQ, hmeet⟩ := h
  cases Q with
  | nil => simp at hQ
  | cons a r =>
    obtain ⟨l, rfl⟩ := List.getLast?_eq_some_iff.mp hmeet.symm
    refine ⟨l, r, a, rfl, rfl, by simp [join], ?_, ?_⟩
    · rintro rfl
      simp at hP
    · rintro rfl
      simp at hQ

theorem computePathLength_join (h : Meets P Q) :
    computePathLength (join P Q) = computePathLength P + computePathLength Q := by
  obtain ⟨l, r, a, rfl, rfl, hjoin, -, -⟩ := h.split
  rw [hjoin]
  exact computePathLength_append l r a

theorem headings_eq_nil_iff (path : Path ℝ) : headings path = [] ↔ path.length < 2 := by
  rw [headings, List.map_eq_nil_iff, ← List.length_eq_zero_iff, length_segments]
  omega

/-- The turn from the last heading of the one into the first heading of the other is added. -/
theorem computeSmoothness_join (h : Meets P Q) :
    ∃ last ∈ (headings P).getLast?, ∃ first ∈ (headings Q).head?,
      computeSmoothness (join P Q) =
        computeSmoothness P + computeSmoothness Q + |first - last| := by
  obtain ⟨l, r, a, rfl, rfl, hjoin, -, -⟩ := h.split
  have hleft : headings (l ++ [a]) ≠ [] := by
    rw [Ne, headings_eq_nil_iff, not_lt]
    exact h.left
  have hright : headings (a :: r) ≠ [] := by
    rw [Ne, headings_eq_nil_iff, not_lt]
    exact h.right
  obtain ⟨before, last, hlast⟩ := (List.eq_nil_or_concat' _).resolve_left hleft
  obtain ⟨first, after, hfirst⟩ := List.exists_cons_of_ne_nil hright
  refine ⟨last, by simp [hlast], first, by simp [hfirst], ?_⟩
  calc computeSmoothness (join (l ++ [a]) (a :: r))
    _ = variation (before ++ last :: first :: after) := by
      rw [computeSmoothness_eq, hjoin, headings_append, hlast, hfirst]
      simp
    _ = variation (before ++ [last]) + |first - last| + variation (first :: after) :=
      variation_append before after last first
    _ = computeSmoothness (l ++ [a]) + computeSmoothness (a :: r) + |first - last| := by
      rw [computeSmoothness_eq, computeSmoothness_eq, hlast, hfirst]
      ring

variable {grid : OccupancyGrid ℝ}

/-- What the loop chooses from on the joined path. -/
theorem filterMap_join (h : Meets P Q) (score : Position ℝ → Option ℝ) :
    {r | r ∈ (join P Q).filterMap score} =
      {r | r ∈ P.filterMap score} ∪ {r | r ∈ Q.filterMap score} := by
  obtain ⟨l, r, a, rfl, rfl, hjoin, -, -⟩ := h.split
  ext x
  simp only [hjoin, Set.mem_ofPred_eq, Set.mem_union, List.mem_filterMap, List.mem_append,
    List.mem_cons]
  grind

theorem computeClearance_join (hgrid : grid.Valid) (h : Meets P Q)
    (hP : ∀ p ∈ P, grid.info.Fits p) (hQ : ∀ p ∈ Q, grid.info.Fits p) :
    ∃ c d, computeClearance grid P = some c ∧ computeClearance grid Q = some d ∧
      computeClearance grid (join P Q) = some (smaller (-1) c d) := by
  have hjoin : ∀ p ∈ join P Q, grid.info.Fits p := by
    intro p hp
    rcases List.mem_append.mp hp with hp | hp
    · exact hP p hp
    · exact hQ p (List.mem_of_mem_tail hp)
  refine ⟨_, _, computeClearance_eq hgrid hP, computeClearance_eq hgrid hQ, ?_⟩
  rw [computeClearance_eq hgrid hjoin, Option.some_inj]
  refine (isLeastOr_getD (-1) _).unique ?_
  rw [filterMap_join h]
  refine IsLeastOr.union ?_ (isLeastOr_getD (-1) _) (isLeastOr_getD (-1) _)
  rw [← filterMap_join h, hgrid.mem_filterMap_scored]
  exact hgrid.negOne_notMem

end

/-- The metrics of two plans that meet, and of the plan they make up. -/
theorem metrics_join (grid : OccupancyGrid ℝ) (hgrid : grid.Valid) (P Q : Path ℝ) (h : Meets P Q)
    (hP : ∀ p ∈ P, grid.info.Fits p) (hQ : ∀ p ∈ Q, grid.info.Fits p) :
    computePathLength (join P Q) = computePathLength P + computePathLength Q ∧
    (∃ last ∈ (headings P).getLast?, ∃ first ∈ (headings Q).head?,
      computeSmoothness (join P Q) =
        computeSmoothness P + computeSmoothness Q + |first - last|) ∧
    ∃ c d, computeClearance grid P = some c ∧ computeClearance grid Q = some d ∧
      computeClearance grid (join P Q) = some (smaller (-1) c d) :=
  ⟨computePathLength_join h, computeSmoothness_join h, computeClearance_join hgrid h hP hQ⟩

/-- A plan into the cell from outside. -/
noncomputable def arrival : Path ℝ := [⟨-1, 0⟩, ⟨0, 0⟩]

/-- A plan that goes on along the cell. -/
noncomputable def departure : Path ℝ := [⟨0, 0⟩, ⟨0, 1⟩]

theorem arrival_departure :
    computePathLength (join arrival departure) =
      computePathLength arrival + computePathLength departure ∧
    (∃ last ∈ (headings arrival).getLast?, ∃ first ∈ (headings departure).head?,
      computeSmoothness (join arrival departure) =
        computeSmoothness arrival + computeSmoothness departure + |first - last|) ∧
    ∃ c d, computeClearance metreCell arrival = some c ∧
      computeClearance metreCell departure = some d ∧
      computeClearance metreCell (join arrival departure) = some (smaller (-1) c d) := by
  refine metrics_join metreCell metreCell_valid arrival departure ⟨by simp [arrival],
    by simp [departure], rfl⟩ ?_ ?_
  · intro p hp
    simp only [arrival, List.mem_cons, List.not_mem_nil, or_false] at hp
    rcases hp with rfl | rfl <;> apply metreCell_fits <;> norm_num [abs_le]
  · intro p hp
    simp only [departure, List.mem_cons, List.not_mem_nil, or_false] at hp
    rcases hp with rfl | rfl <;> apply metreCell_fits <;> norm_num [abs_le]

end TitanRobot.Metrics

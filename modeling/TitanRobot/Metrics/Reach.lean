import TitanRobot.Metrics.Indexing

/-!
# The reach of the clearance

On a map of at most `2 ^ 31` cells, `computeClearance` is defined exactly for the paths that stay
within reach of the conversions.
-/
namespace TitanRobot.Metrics
open Floating

section
variable {α : Type} [Floating α] {grid : OccupancyGrid α}

/-- With cells numbered by `int`, a pose is accessed rightly once its offsets convert. -/
theorem OccupancyGrid.accesses_iff_toCell
    (hsize : grid.data.length = grid.info.width.toNat * grid.info.height.toNat)
    (hcells : grid.info.width.toNat * grid.info.height.toNat ≤ 2 ^ 31) (p : Position α) :
    grid.Accesses p ↔ (grid.info.toCell p).isSome := by
  constructor
  · rintro ⟨mx, my, hcell, -⟩
    exact Option.isSome_of_eq_some hcell
  · intro h
    obtain ⟨⟨mx, my⟩, hcell⟩ := Option.isSome_iff_exists.mp h
    refine ⟨mx, my, hcell, fun hskip => (grid.index_right_iff hsize hskip).mpr ?_⟩
    obtain ⟨-, hw, -, hh⟩ := grid.info.cell_of_not_skips hskip
    have hnumber := rowMajor_lt hw hh
    omega

/-- The loop needs the offsets of every pose. -/
theorem OccupancyGrid.toCell_of_scored {path : Path α} {m r : α}
    (h : path.foldlM grid.scorePose m = some r) : ∀ p ∈ path, (grid.info.toCell p).isSome := by
  induction path generalizing m with
  | nil => simp
  | cons p path ih =>
    cases hcell : grid.info.toCell p with
    | none => simp [scorePose, hcell] at h
    | some cell =>
      obtain ⟨s, -, hs⟩ := Option.bind_eq_some_iff.mp (List.foldlM_cons.symm.trans h)
      exact List.forall_mem_cons.mpr ⟨Option.isSome_of_eq_some hcell, ih hs⟩

theorem computeClearance_isSome_iff
    (hsize : grid.data.length = grid.info.width.toNat * grid.info.height.toNat)
    (hcells : grid.info.width.toNat * grid.info.height.toNat ≤ 2 ^ 31) (path : Path α) :
    (computeClearance grid path).isSome ↔ ∀ p ∈ path, (grid.info.toCell p).isSome := by
  constructor
  · intro h
    obtain ⟨r, hr⟩ := Option.isSome_iff_exists.mp h
    obtain ⟨m, hm, -⟩ := Option.bind_eq_some_iff.mp hr
    exact grid.toCell_of_scored hm
  · intro h
    obtain ⟨r, hr⟩ := computeClearance_defined
      fun p hp => (grid.accesses_iff_toCell hsize hcells p).mpr (h p hp)
    exact Option.isSome_of_eq_some hr

end

/-- The clearance is defined exactly for the paths within reach. -/
theorem computeClearance_defined_iff_reaches (grid : OccupancyGrid Double)
    (hres : lt (.finite 0) grid.info.resolution)
    (hsize : grid.data.length = grid.info.width.toNat * grid.info.height.toNat)
    (hcells : grid.info.width.toNat * grid.info.height.toNat ≤ 2 ^ 31) (path : Path Double) :
    (computeClearance grid path).isSome ↔ ∀ p ∈ path, grid.info.Reaches p := by
  refine (computeClearance_isSome_iff hsize hcells path).trans (forall₂_congr fun p _ => ?_)
  exact MapMetaData.toCell_isSome_iff hres p

/-- Two thousand kilometres from a map with metre cells the clearance is still defined. -/
theorem oneCell_reaches :
    (computeClearance oneCell
      [⟨.finite (1 / 2), .finite 0⟩, ⟨.finite 2000000, .finite 0⟩]).isSome := by
  refine (computeClearance_defined_iff_reaches oneCell (by decide +kernel) rfl (by decide) _).mpr ?_
  intro p hp
  simp only [List.mem_cons, List.not_mem_nil, or_false] at hp
  rcases hp with rfl | rfl
  · exact ⟨1 / 2, 0, by decide +kernel, by decide +kernel, by decide +kernel, by decide +kernel⟩
  · exact ⟨2000000, 0, by decide +kernel, by decide +kernel, by decide +kernel, by decide +kernel⟩

end TitanRobot.Metrics

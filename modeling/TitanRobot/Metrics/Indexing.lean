import TitanRobot.Metrics.Costmap

/-!
# Conversions and indices

Where the conversions and the index of `computeClearance` are what they should be, told by the
coordinates of the poses before they are divided and rounded. The guard of the loop keeps the cell
on the map, but it comes after the conversions of the offsets to `int`, and it does not keep the
number of the cell within an `int`.
-/
namespace TitanRobot.Metrics
open Floating

section
variable {α : Type} [Floating α]

/-- Both conversions are defined, and an element that is read is that of the cell. -/
def OccupancyGrid.Accesses (grid : OccupancyGrid α) (p : Position α) : Prop :=
  ∃ mx my, grid.info.toCell p = some (mx, my) ∧
    (¬ grid.info.Skips mx my →
      grid.info.index mx my = mx + my * grid.info.width.toNat ∧
      mx + my * grid.info.width.toNat < grid.data.length)

def OccupancyGrid.AccessesAll (grid : OccupancyGrid α) (path : Path α) : Prop :=
  ∀ p ∈ path, grid.Accesses p

theorem MapMetaData.toCell_eq_some_iff {info : MapMetaData α} {p : Position α} {mx my : ℤ} :
    info.toCell p = some (mx, my) ↔
      toInt (div (sub p.x info.origin.x) info.resolution) = some mx ∧
      toInt (div (sub p.y info.origin.y) info.resolution) = some my := by
  simp [toCell, Option.bind_eq_some_iff]

/-- A pose that is accessed rightly is scored. -/
theorem OccupancyGrid.Accesses.scored {grid : OccupancyGrid α} {p : Position α}
    (h : grid.Accesses p) (m : α) : ∃ r, grid.scorePose m p = some r := by
  obtain ⟨mx, my, hcell, hread⟩ := h
  by_cases hskip : grid.info.Skips mx my
  · exact ⟨m, by simp [scorePose, hcell, hskip]⟩
  · obtain ⟨hindex, hlt⟩ := hread hskip
    obtain ⟨hx, -, hy, -⟩ := grid.info.cell_of_not_skips hskip
    obtain ⟨c, -, hc⟩ := grid.read_of_lt (by positivity) hlt
    simp only [scorePose, hcell, hskip, hindex, hc, Option.bind_eq_bind, Option.bind_some, if_false]
    split <;> exact ⟨_, rfl⟩

/-- The clearance is defined where all poses are accessed rightly. -/
theorem computeClearance_defined {grid : OccupancyGrid α} {path : Path α}
    (h : grid.AccessesAll path) : ∃ r, computeClearance grid path = some r := by
  have hfold : ∀ m, ∃ r, path.foldlM grid.scorePose m = some r := by
    induction path with
    | nil => exact fun m => ⟨m, rfl⟩
    | cons p path ih =>
      intro m
      obtain ⟨r, hr⟩ := (h p List.mem_cons_self).scored m
      obtain ⟨r', hr'⟩ := ih (fun q hq => h q (List.mem_cons_of_mem p hq)) r
      exact ⟨r', by simp [hr, hr']⟩
  obtain ⟨r, hr⟩ := hfold maxValue
  simp [computeClearance, hr]

end

/-! ## Poses in reach -/

/-- An offset in cells: an infinite resolution takes every offset to nothing. -/
def MapMetaData.inCells (info : MapMetaData Double) (d : ℚ) : ℚ :=
  match info.resolution with
  | .finite r => d / r
  | _ => 0

/-- Both offsets from the origin are finite and, in cells, in reach of the conversion. -/
def MapMetaData.Reaches (info : MapMetaData Double) (p : Position Double) : Prop :=
  ∃ dx dy : ℚ, sub p.x info.origin.x = .finite dx ∧ sub p.y info.origin.y = .finite dy ∧
    InReach (info.inCells dx) ∧ InReach (info.inCells dy)

/-- If the pose is in a cell of the map, the number of the cell is an `int`. -/
def MapMetaData.Numbers (info : MapMetaData Double) (p : Position Double) : Prop :=
  ∀ (dx dy : ℚ) (mx my : ℕ), sub p.x info.origin.x = .finite dx →
    sub p.y info.origin.y = .finite dy → InCell (info.inCells dx) mx →
    InCell (info.inCells dy) my → ¬ info.Skips mx my → mx + my * info.width.toNat < 2 ^ 31

section
variable {info : MapMetaData Double}

/-- Dividing by the resolution rounds the offset in cells. -/
theorem MapMetaData.div_resolution (hres : lt (.finite 0) info.resolution) (d : ℚ) :
    div (.finite d) info.resolution = Double.ofRat (info.inCells d) := by
  unfold inCells
  cases hr : info.resolution with
  | finite r =>
    have hpos : r ≠ 0 := by
      rintro rfl
      simp [hr, lt, Double.lt] at hres
    exact if_neg hpos
  | infinite neg => rfl
  | nan => simp [hr, lt, Double.lt] at hres

/-- The conversion of an offset, with the number that is truncated. -/
theorem MapMetaData.toInt_offset_iff (hres : lt (.finite 0) info.resolution) {d : Double} {n : ℤ} :
    toInt (div d info.resolution) = some n ↔
      ∃ q r : ℚ, d = .finite q ∧ InReach (info.inCells q) ∧
        Double.ofRat (info.inCells q) = .finite r ∧ truncate r = n := by
  cases d with
  | finite q =>
    rw [div_resolution hres]
    constructor
    · intro h
      have hreach := (Double.toInt_ofRat_isSome_iff _).mp (Option.isSome_of_eq_some h)
      obtain ⟨r, hr, hrange⟩ := Double.finite_of_inReach hreach
      rw [hr] at h
      exact ⟨q, r, rfl, hreach, hr, (castInt_eq_some_iff.mp h).2⟩
    · rintro ⟨q', r, heq, hreach, hr, rfl⟩
      obtain rfl := Double.finite.inj heq
      rw [hr]
      exact castInt_of_inRange ((inIntRange_of_ofRat_iff hr).mpr hreach)
  | infinite neg => cases hr : info.resolution <;> simp [toInt, div, Double.div, Double.toInt]
  | nan => simp [toInt, div, Double.div, Double.toInt]

/-- The conversions of a pose. -/
theorem MapMetaData.toCell_iff (hres : lt (.finite 0) info.resolution) {p : Position Double}
    {mx my : ℤ} :
    info.toCell p = some (mx, my) ↔
      ∃ dx dy rx ry : ℚ, sub p.x info.origin.x = .finite dx ∧ sub p.y info.origin.y = .finite dy ∧
        InReach (info.inCells dx) ∧ InReach (info.inCells dy) ∧
        (Double.ofRat (info.inCells dx) = .finite rx ∧ truncate rx = mx) ∧
        Double.ofRat (info.inCells dy) = .finite ry ∧ truncate ry = my := by
  rw [toCell_eq_some_iff, toInt_offset_iff hres, toInt_offset_iff hres]
  constructor
  · rintro ⟨⟨dx, rx, hdx, hrx, hx⟩, dy, ry, hdy, hry, hy⟩
    exact ⟨dx, dy, rx, ry, hdx, hdy, hrx, hry, hx, hy⟩
  · rintro ⟨dx, dy, rx, ry, hdx, hdy, hrx, hry, hx, hy⟩
    exact ⟨⟨dx, rx, hdx, hrx, hx⟩, dy, ry, hdy, hry, hy⟩

theorem MapMetaData.toCell_isSome_iff (hres : lt (.finite 0) info.resolution)
    (p : Position Double) : (info.toCell p).isSome ↔ info.Reaches p := by
  constructor
  · intro h
    obtain ⟨⟨mx, my⟩, hcell⟩ := Option.isSome_iff_exists.mp h
    obtain ⟨dx, dy, rx, ry, hdx, hdy, hrx, hry, -⟩ := (toCell_iff hres).mp hcell
    exact ⟨dx, dy, hdx, hdy, hrx, hry⟩
  · rintro ⟨dx, dy, hdx, hdy, hrx, hry⟩
    obtain ⟨rx, hx, -⟩ := Double.finite_of_inReach hrx
    obtain ⟨ry, hy, -⟩ := Double.finite_of_inReach hry
    exact Option.isSome_of_eq_some ((toCell_iff hres).mpr
      ⟨dx, dy, rx, ry, hdx, hdy, hrx, hry, ⟨hx, rfl⟩, hy, rfl⟩)

/-- For a pose that converts, `Numbers` is about the cell that it is converted to. -/
theorem MapMetaData.numbers_iff (hres : lt (.finite 0) info.resolution) {p : Position Double}
    {mx my : ℤ} (hcell : info.toCell p = some (mx, my)) :
    info.Numbers p ↔ (¬ info.Skips mx my → mx + my * info.width.toNat < 2 ^ 31) := by
  obtain ⟨dx, dy, rx, ry, hdx, hdy, -, -, ⟨hx, rfl⟩, hy, rfl⟩ := (toCell_iff hres).mp hcell
  constructor
  · intro h hskip
    obtain ⟨hx0, -, hy0, -⟩ := info.cell_of_not_skips hskip
    obtain ⟨hxlt, hylt⟩ := info.lt_of_not_skips hskip
    obtain ⟨mx, hmx⟩ := Int.eq_ofNat_of_zero_le hx0
    obtain ⟨my, hmy⟩ := Int.eq_ofNat_of_zero_le hy0
    rw [hmx, hmy] at hskip ⊢
    exact_mod_cast h dx dy mx my hdx hdy ((truncate_ofRat_eq_iff hx (by omega)).mp hmx)
      ((truncate_ofRat_eq_iff hy (by omega)).mp hmy) hskip
  · intro h dx' dy' mx my hdx' hdy' hinx hiny hskip
    obtain rfl := Double.finite.inj (hdx.symm.trans hdx')
    obtain rfl := Double.finite.inj (hdy.symm.trans hdy')
    obtain ⟨hxlt, hylt⟩ := info.lt_of_not_skips hskip
    rw [(truncate_ofRat_eq_iff hx (by omega)).mpr hinx,
      (truncate_ofRat_eq_iff hy (by omega)).mpr hiny] at h
    exact_mod_cast h hskip

end

/-- When the conversions and the elements read are right for every pose: the offsets are in reach
of the conversion, and the cells of the map in which poses are have numbers that are `int`. -/
theorem accessesAll_iff (grid : OccupancyGrid Double)
    (hres : lt (.finite 0) grid.info.resolution)
    (hsize : grid.data.length = grid.info.width.toNat * grid.info.height.toNat)
    (path : Path Double) :
    grid.AccessesAll path ↔ ∀ p ∈ path, grid.info.Reaches p ∧ grid.info.Numbers p := by
  refine forall₂_congr fun p _ => ?_
  rw [← MapMetaData.toCell_isSome_iff hres]
  constructor
  · rintro ⟨mx, my, hcell, hread⟩
    refine ⟨Option.isSome_of_eq_some hcell, (MapMetaData.numbers_iff hres hcell).mpr ?_⟩
    exact fun hskip => (grid.index_right_iff hsize hskip).mp (hread hskip)
  · rintro ⟨hsome, hnumbers⟩
    obtain ⟨⟨mx, my⟩, hcell⟩ := Option.isSome_iff_exists.mp hsome
    have hlt := (MapMetaData.numbers_iff hres hcell).mp hnumbers
    exact ⟨mx, my, hcell, fun hskip => (grid.index_right_iff hsize hskip).mpr (hlt hskip)⟩

/-- A map of one cell, a metre wide. -/
def oneCell : OccupancyGrid Double where
  info := ⟨.finite 1, 1, 1, ⟨.finite 0, .finite 0⟩⟩
  data := [0]

/-- On one cell there is no number to exceed an `int`. -/
theorem oneCell_numbers (p : Position Double) : oneCell.info.Numbers p := by
  intro dx dy mx my _ _ _ _ hskip
  obtain ⟨-, hw, -, hh⟩ := oneCell.info.cell_of_not_skips hskip
  have hnumber := rowMajor_lt hw hh
  have hcells : oneCell.info.width.toNat * oneCell.info.height.toNat = 1 := rfl
  rw [hcells] at hnumber
  omega

/-- A pose in the cell and one a thousand kilometres away are both fine. -/
theorem oneCell_accesses :
    oneCell.AccessesAll [⟨.finite (1 / 2), .finite (1 / 2)⟩, ⟨.finite 1000000, .finite 0⟩] := by
  refine (accessesAll_iff oneCell (by decide +kernel) rfl _).mpr ?_
  intro p hp
  refine ⟨?_, oneCell_numbers p⟩
  simp only [List.mem_cons, List.not_mem_nil, or_false] at hp
  rcases hp with rfl | rfl
  · exact ⟨1 / 2, 1 / 2, by decide +kernel, by decide +kernel, by decide +kernel, by decide +kernel⟩
  · exact ⟨1000000, 0, by decide +kernel, by decide +kernel, by decide +kernel, by decide +kernel⟩

/-- A pose `2 ^ 31` cells away has no `int` offset. -/
theorem oneCell_far_pose :
    ¬ ∀ (grid : OccupancyGrid Double) (r : ℚ), grid.info.resolution = .finite r → 0 < r →
      grid.data.length = grid.info.width.toNat * grid.info.height.toNat →
      ∀ path : Path Double, (∀ p ∈ path, ∃ x y, p = ⟨.finite x, .finite y⟩) →
        grid.AccessesAll path := by
  intro hall
  obtain ⟨mx, my, hcell, -⟩ := hall oneCell 1 rfl one_pos rfl [⟨.finite (2 ^ 31), .finite 0⟩]
    (by simp) _ List.mem_cons_self
  have hnone : oneCell.info.toCell ⟨.finite (2 ^ 31), .finite 0⟩ = none := by decide +kernel
  rw [hnone] at hcell
  simp at hcell

end TitanRobot.Metrics

import TitanRobot.Lib.Minimum
import TitanRobot.Metrics.Indexing

/-!
# The clearance of a plan

In exact arithmetic `computeClearance` is the smallest clearance of the poses it scores. These are
the poses on the map, and beside them, as the conversion to `int` rounds towards zero, poses that
are off the map by less than a cell on its lower sides.
-/
namespace TitanRobot.Metrics
open Floating

/-- A map with a cell for each element of `data`, whose `resolution` is a `float`. -/
structure OccupancyGrid.Valid (grid : OccupancyGrid ℝ) : Prop where
  resolution_pos : 0 < grid.info.resolution
  resolution_le : grid.info.resolution ≤ floatMax
  size : grid.data.length = grid.info.width.toNat * grid.info.height.toNat
  few : grid.data.length < 2 ^ 31
  cost : ∀ c ∈ grid.data, -1 ≤ c.toInt ∧ c.toInt ≤ 100

/-- Where a pose is from the origin of the map, in cells. -/
noncomputable def MapMetaData.offset (info : MapMetaData ℝ) (p : Position ℝ) : Position ℝ :=
  ⟨(p.x - info.origin.x) / info.resolution, (p.y - info.origin.y) / info.resolution⟩

def MapMetaData.Fits (info : MapMetaData ℝ) (p : Position ℝ) : Prop :=
  InIntRange (info.offset p).x ∧ InIntRange (info.offset p).y

/-- The rectangle of the map. -/
def MapMetaData.Contains (info : MapMetaData ℝ) (p : Position ℝ) : Prop :=
  (info.origin.x ≤ p.x ∧ p.x < info.origin.x + info.width.toNat * info.resolution) ∧
  (info.origin.y ≤ p.y ∧ p.y < info.origin.y + info.height.toNat * info.resolution)

/-- The cost of a cell in row-major order, if it is known. -/
def OccupancyGrid.costAt (grid : OccupancyGrid ℝ) (mx my : ℤ) : Option ℤ :=
  (grid.read (mx + my * grid.info.width.toNat)).filter (0 ≤ ·)

def OccupancyGrid.clearance (grid : OccupancyGrid ℝ) (cost : ℤ) : ℝ :=
  (100 - cost) * grid.info.resolution

/-- The pose is on the map, in a cell of this cost. -/
def OccupancyGrid.On (grid : OccupancyGrid ℝ) (p : Position ℝ) (cost : ℤ) : Prop :=
  grid.info.Contains p ∧
  grid.costAt ⌊(grid.info.offset p).x⌋ ⌊(grid.info.offset p).y⌋ = some cost

/-- The pose is off the map by less than a cell, and rounding towards zero takes it into a cell of
this cost. -/
def OccupancyGrid.Beside (grid : OccupancyGrid ℝ) (p : Position ℝ) (cost : ℤ) : Prop :=
  ¬ grid.info.Contains p ∧
  (-1 < (grid.info.offset p).x ∧ (grid.info.offset p).x < grid.info.width.toNat) ∧
  (-1 < (grid.info.offset p).y ∧ (grid.info.offset p).y < grid.info.height.toNat) ∧
  grid.costAt (truncate (grid.info.offset p).x) (truncate (grid.info.offset p).y) = some cost

/-- The clearances of the cells that the poses are on. -/
def OccupancyGrid.clearances (grid : OccupancyGrid ℝ) (path : Path ℝ) : Set ℝ :=
  {r | ∃ p ∈ path, ∃ cost, grid.On p cost ∧ grid.clearance cost = r}

/-- The clearances of the cells that poses beside the map are taken into. -/
def OccupancyGrid.strayClearances (grid : OccupancyGrid ℝ) (path : Path ℝ) : Set ℝ :=
  {r | ∃ p ∈ path, ∃ cost, grid.Beside p cost ∧ grid.clearance cost = r}

/-- The cost that the loop scores a pose with. -/
noncomputable def OccupancyGrid.scored (grid : OccupancyGrid ℝ) (p : Position ℝ) : Option ℤ :=
  let mx := truncate (grid.info.offset p).x
  let my := truncate (grid.info.offset p).y
  if grid.info.Skips mx my then none else grid.costAt mx my

/-! ## Cells of the map -/

section
variable {grid : OccupancyGrid ℝ}

theorem OccupancyGrid.clearance_le_iff (hgrid : grid.Valid) {c d : ℤ} :
    grid.clearance c ≤ grid.clearance d ↔ d ≤ c := by
  rw [clearance, clearance, mul_le_mul_iff_left₀ hgrid.resolution_pos, sub_le_sub_iff_left,
    Int.cast_le]

/-- The guard keeps exactly the cells of the map. -/
theorem OccupancyGrid.Valid.not_skips_iff (hgrid : grid.Valid) {mx my : ℤ} :
    ¬ grid.info.Skips mx my ↔
      (0 ≤ mx ∧ mx < grid.info.width.toNat) ∧ (0 ≤ my ∧ my < grid.info.height.toNat) := by
  have hfew : grid.info.width.toNat * grid.info.height.toNat < 2 ^ 31 := hgrid.size ▸ hgrid.few
  constructor
  · intro h
    obtain ⟨hx, hw, hy, hh⟩ := grid.info.cell_of_not_skips h
    exact ⟨⟨hx, hw⟩, ⟨hy, hh⟩⟩
  · intro ⟨⟨hx, hw⟩, ⟨hy, hh⟩⟩
    have hwidth : grid.info.width.toNat < 2 ^ 31 := by nlinarith
    have hheight : grid.info.height.toNat < 2 ^ 31 := by nlinarith
    simp only [MapMetaData.Skips, castUInt_of_lt hwidth, castUInt_of_lt hheight]
    omega

/-- The rectangle in cells. -/
theorem OccupancyGrid.Valid.contains_iff (hgrid : grid.Valid) {p : Position ℝ} :
    grid.info.Contains p ↔
      (0 ≤ (grid.info.offset p).x ∧ (grid.info.offset p).x < grid.info.width.toNat) ∧
      (0 ≤ (grid.info.offset p).y ∧ (grid.info.offset p).y < grid.info.height.toNat) := by
  have hpos := hgrid.resolution_pos
  simp only [MapMetaData.Contains, MapMetaData.offset, le_div_iff₀ hpos, div_lt_iff₀ hpos,
    zero_mul, sub_nonneg, sub_lt_iff_lt_add']

/-- There are no costs on a map without cells. -/
theorem OccupancyGrid.Valid.pos_of_costAt (hgrid : grid.Valid) {mx my cost : ℤ}
    (h : grid.costAt mx my = some cost) :
    0 < grid.info.width.toNat ∧ 0 < grid.info.height.toNat := by
  have hne : grid.data.length ≠ 0 := by
    intro hnil
    rw [List.length_eq_zero_iff] at hnil
    simp [costAt, read, hnil] at h
  rw [hgrid.size] at hne
  have := Nat.mul_ne_zero_iff.mp hne
  omega

theorem OccupancyGrid.Valid.cost_mem (hgrid : grid.Valid) {mx my cost : ℤ}
    (h : grid.costAt mx my = some cost) : 0 ≤ cost ∧ cost ≤ 100 := by
  obtain ⟨hread, h0⟩ := Option.filter_eq_some_iff.mp h
  refine ⟨by simpa using h0, ?_⟩
  unfold read at hread
  split_ifs at hread
  obtain ⟨c, hc, rfl⟩ := Option.map_eq_some_iff.mp hread
  exact (hgrid.cost c (List.mem_of_getElem? hc)).2

/-- The loop scores everything above minus one on both axes. -/
theorem OccupancyGrid.Valid.scored_eq_some_iff (hgrid : grid.Valid) {p : Position ℝ} {cost : ℤ} :
    grid.scored p = some cost ↔
      (-1 < (grid.info.offset p).x ∧ (grid.info.offset p).x < grid.info.width.toNat) ∧
      (-1 < (grid.info.offset p).y ∧ (grid.info.offset p).y < grid.info.height.toNat) ∧
      grid.costAt (truncate (grid.info.offset p).x) (truncate (grid.info.offset p).y) =
        some cost := by
  generalize hq : grid.info.offset p = q
  have hcell (h : grid.costAt (truncate q.x) (truncate q.y) = some cost) :
      ¬ grid.info.Skips (truncate q.x) (truncate q.y) ↔
        (-1 < q.x ∧ q.x < grid.info.width.toNat) ∧ (-1 < q.y ∧ q.y < grid.info.height.toNat) := by
    obtain ⟨hwidth, hheight⟩ := hgrid.pos_of_costAt h
    rw [hgrid.not_skips_iff, truncate_nonneg_iff, truncate_nonneg_iff, truncate_lt_iff hwidth,
      truncate_lt_iff hheight]
  simp only [scored, hq]
  constructor
  · intro h
    split_ifs at h with hskip
    obtain ⟨hx, hy⟩ := (hcell h).mp hskip
    exact ⟨hx, hy, h⟩
  · intro ⟨hx, hy, h⟩
    rw [if_neg ((hcell h).mpr ⟨hx, hy⟩), h]

/-- These are the poses on the map and those beside it. -/
theorem OccupancyGrid.Valid.scored_iff_on_or_beside (hgrid : grid.Valid) {p : Position ℝ}
    {cost : ℤ} : grid.scored p = some cost ↔ grid.On p cost ∨ grid.Beside p cost := by
  rw [hgrid.scored_eq_some_iff, On, Beside]
  by_cases hon : grid.info.Contains p
  · obtain ⟨⟨hx, hw⟩, ⟨hy, hh⟩⟩ := hgrid.contains_iff.mp hon
    rw [truncate_of_nonneg hx, truncate_of_nonneg hy]
    have hx' : -1 < (grid.info.offset p).x := by linarith
    have hy' : -1 < (grid.info.offset p).y := by linarith
    simp [hon, hx', hw, hy', hh]
  · simp [hon]

/-! ## The loop -/

theorem OccupancyGrid.Valid.costAt_eq (hgrid : grid.Valid) {mx my : ℤ}
    (h : ¬ grid.info.Skips mx my) :
    ∃ cost, grid.read (grid.info.index mx my) = some cost ∧
      grid.costAt mx my = if 0 ≤ cost then some cost else none := by
  obtain ⟨hx, hw, hy, hh⟩ := grid.info.cell_of_not_skips h
  have hlt : mx + my * grid.info.width.toNat < grid.data.length := by
    rw [hgrid.size]
    exact rowMajor_lt hw hh
  have hindex := (grid.info.index_eq_iff hx hy).mpr (hlt.trans (by exact_mod_cast hgrid.few))
  obtain ⟨c, -, hc⟩ := grid.read_of_lt (by positivity) hlt
  exact ⟨c.toInt, by rw [hindex, hc], by simp [costAt, hc, Option.filter_some]⟩

/-- What the body of the loop makes of a pose. -/
theorem OccupancyGrid.Valid.scorePose_eq (hgrid : grid.Valid) {p : Position ℝ}
    (hp : grid.info.Fits p) (m : ℝ) :
    grid.scorePose m p = some (((grid.scored p).map grid.clearance).elim m (min m)) := by
  have hcell : grid.info.toCell p =
      some (truncate (grid.info.offset p).x, truncate (grid.info.offset p).y) :=
    MapMetaData.toCell_eq_some_iff.mpr ⟨castInt_of_inRange hp.1, castInt_of_inRange hp.2⟩
  simp only [scorePose, hcell, scored, Option.bind_eq_bind, Option.bind_some]
  split_ifs with hskip
  · rfl
  · obtain ⟨cost, hread, hcost⟩ := hgrid.costAt_eq hskip
    rw [hread, hcost]
    have hclearance : mulFloat (100 - cost) grid.info.resolution = grid.clearance cost := by
      change ((100 - cost : ℤ) : ℝ) * _ = _
      simp [clearance]
    have hmin (c : ℝ) : (if lt c m then c else m) = min m c := by
      simp [lt, min_comm m, min_def_lt]
    by_cases h0 : 0 ≤ cost
    · simp [h0, hclearance, hmin]
    · simp [h0]

/-- A clearance is neither negative nor as large as the sentinel. -/
theorem OccupancyGrid.Valid.clearance_mem (hgrid : grid.Valid) {cost : ℤ} (h0 : 0 ≤ cost)
    (h100 : cost ≤ 100) : 0 ≤ grid.clearance cost ∧ grid.clearance cost < doubleMax := by
  have hpos := hgrid.resolution_pos
  have hle := hgrid.resolution_le
  have hmax : (100 * floatMax : ℝ) < doubleMax := by exact_mod_cast hundred_mul_floatMax_lt
  have h0' : (0 : ℝ) ≤ cost := by exact_mod_cast h0
  have h100' : (cost : ℝ) ≤ 100 := by exact_mod_cast h100
  unfold clearance
  constructor
  · exact mul_nonneg (by linarith) hpos.le
  · calc (100 - (cost : ℝ)) * grid.info.resolution
      _ ≤ 100 * floatMax := by apply mul_le_mul <;> linarith
      _ < doubleMax := hmax

theorem OccupancyGrid.Valid.scored_mem (hgrid : grid.Valid) {p : Position ℝ} {cost : ℤ}
    (h : grid.scored p = some cost) : 0 ≤ grid.clearance cost ∧ grid.clearance cost < doubleMax := by
  obtain ⟨-, -, hcost⟩ := hgrid.scored_eq_some_iff.mp h
  obtain ⟨h0, h100⟩ := hgrid.cost_mem hcost
  exact hgrid.clearance_mem h0 h100

variable {path : Path ℝ}

/-- The clearance is the least of the clearances scored. -/
theorem computeClearance_eq (hgrid : grid.Valid) (hfits : ∀ p ∈ path, grid.info.Fits p) :
    computeClearance grid path =
      some ((path.filterMap fun p => (grid.scored p).map grid.clearance).min?.getD (-1)) := by
  have hloop := foldlM_eq_foldl_min (fun p hp m => hgrid.scorePose_eq (hfits p hp) m) doubleMax
  have hbelow : ∀ r ∈ path.filterMap fun p => (grid.scored p).map grid.clearance,
      r < (doubleMax : ℝ) := by
    intro r hr
    obtain ⟨p, -, hp⟩ := List.mem_filterMap.mp hr
    obtain ⟨cost, hcost, rfl⟩ := Option.map_eq_some_iff.mp hp
    exact (hgrid.scored_mem hcost).2
  rw [← foldl_min_sentinel (-1) hbelow, computeClearance]
  change (path.foldlM grid.scorePose (doubleMax : ℝ)).bind
    (fun m => some (if decide (m = doubleMax) then (-1 : ℝ) else m)) = _
  rw [hloop, Option.bind_some]
  simp only [decide_eq_true_eq]

/-- The clearances scored are those of the poses on the map and those of the poses beside it. -/
theorem OccupancyGrid.Valid.mem_filterMap_scored (hgrid : grid.Valid) :
    {r | r ∈ path.filterMap fun p => (grid.scored p).map grid.clearance} =
      grid.clearances path ∪ grid.strayClearances path := by
  ext r
  simp only [Set.mem_ofPred_eq, List.mem_filterMap, Option.map_eq_some_iff,
    hgrid.scored_iff_on_or_beside, clearances, strayClearances, Set.mem_union]
  grind

theorem computeClearance_isLeastOr (hgrid : grid.Valid) (hfits : ∀ p ∈ path, grid.info.Fits p) :
    ∃ r, computeClearance grid path = some r ∧
      IsLeastOr (-1) (grid.clearances path ∪ grid.strayClearances path) r :=
  ⟨_, computeClearance_eq hgrid hfits, hgrid.mem_filterMap_scored ▸ isLeastOr_getD (-1) _⟩

/-! ## When the poses on the map decide -/

/-- The clearance is the least one of the poses on the map, and a pose off the map does not
change it. -/
def OccupancyGrid.ScoresOn (grid : OccupancyGrid ℝ) (path : Path ℝ) : Prop :=
  (∃ r, computeClearance grid path = some r ∧ IsLeastOr (-1) (grid.clearances path) r) ∧
  ∀ before p after, path = before ++ p :: after → ¬ grid.info.Contains p →
    computeClearance grid (before ++ after) = computeClearance grid path

/-- For every pose that is taken into the map from beside it, a pose on the map is in a cell that
costs as much. -/
def OccupancyGrid.Covered (grid : OccupancyGrid ℝ) (path : Path ℝ) : Prop :=
  ∀ p ∈ path, ∀ cost, grid.Beside p cost → ∃ p' ∈ path, ∃ cost', grid.On p' cost' ∧ cost ≤ cost'

theorem OccupancyGrid.Valid.covered_iff (hgrid : grid.Valid) :
    grid.Covered path ↔ ∀ b ∈ grid.strayClearances path, ∃ c ∈ grid.clearances path, c ≤ b := by
  constructor
  · rintro h _ ⟨p, hp, cost, hbeside, rfl⟩
    obtain ⟨p', hp', cost', hon, hle⟩ := h p hp cost hbeside
    exact ⟨_, ⟨p', hp', cost', hon, rfl⟩, (clearance_le_iff hgrid).mpr hle⟩
  · intro h p hp cost hbeside
    obtain ⟨_, ⟨p', hp', cost', hon, rfl⟩, hle⟩ := h _ ⟨p, hp, cost, hbeside, rfl⟩
    exact ⟨p', hp', cost', hon, (clearance_le_iff hgrid).mp hle⟩

/-- No clearance is the `-1` that stands for none. -/
theorem OccupancyGrid.Valid.negOne_notMem (hgrid : grid.Valid) :
    -1 ∉ grid.clearances path ∪ grid.strayClearances path := by
  rw [← hgrid.mem_filterMap_scored]
  intro h
  obtain ⟨p, -, hp⟩ := List.mem_filterMap.mp h
  obtain ⟨cost, hcost, heq⟩ := Option.map_eq_some_iff.mp hp
  have := (hgrid.scored_mem hcost).1
  linarith

/-- The result is right on a path exactly if the path is covered. -/
theorem OccupancyGrid.Valid.result_iff (hgrid : grid.Valid)
    (hfits : ∀ p ∈ path, grid.info.Fits p) :
    (∃ r, computeClearance grid path = some r ∧ IsLeastOr (-1) (grid.clearances path) r) ↔
      grid.Covered path := by
  obtain ⟨r, hr, hleast⟩ := computeClearance_isLeastOr hgrid hfits
  rw [hgrid.covered_iff, ← hleast.left_iff hgrid.negOne_notMem, hr]
  simp

/-- A pose off the map has no part in what the poses on the map come to. -/
theorem OccupancyGrid.clearances_remove {before after : Path ℝ} {p : Position ℝ}
    (hp : ¬ grid.info.Contains p) :
    grid.clearances (before ++ p :: after) = grid.clearances (before ++ after) := by
  have hoff (cost : ℤ) : ¬ grid.On p cost := fun h => hp h.1
  ext r
  simp only [clearances, Set.mem_ofPred_eq, List.mem_append, List.mem_cons]
  grind

theorem OccupancyGrid.Covered.remove {before after : Path ℝ} {p : Position ℝ}
    (h : grid.Covered (before ++ p :: after)) (hp : ¬ grid.info.Contains p) :
    grid.Covered (before ++ after) := by
  intro q hq cost hbeside
  obtain ⟨p', hp', cost', hon, hle⟩ := h q (by grind) cost hbeside
  have hne : p' ≠ p := fun heq => hp (heq ▸ hon.1)
  exact ⟨p', by grind, cost', hon, hle⟩

/-- When the clearance is that of the poses on the map: when each pose that is rounded into the map
from beside it is outdone by one that is on it. -/
theorem scoresOn_iff_covered (grid : OccupancyGrid ℝ) (hgrid : grid.Valid) (path : Path ℝ)
    (hfits : ∀ p ∈ path, grid.info.Fits p) : grid.ScoresOn path ↔ grid.Covered path := by
  constructor
  · intro h
    exact (hgrid.result_iff hfits).mp h.1
  · intro h
    obtain ⟨r, hr, hleast⟩ := (hgrid.result_iff hfits).mpr h
    refine ⟨⟨r, hr, hleast⟩, ?_⟩
    rintro before p after rfl hp
    obtain ⟨r', hr', hleast'⟩ := (hgrid.result_iff fun q hq => hfits q (by grind)).mpr (h.remove hp)
    rw [OccupancyGrid.clearances_remove hp] at hleast
    rw [hr, hr', hleast'.unique hleast]

end

/-- A map of one cell, a metre wide. -/
def metreCell : OccupancyGrid ℝ where
  info := ⟨1, 1, 1, ⟨0, 0⟩⟩
  data := [30]

theorem metreCell_valid : metreCell.Valid where
  resolution_pos := one_pos
  resolution_le := by
    have hone : 1 ≤ floatMax := by decide +kernel
    change (1 : ℝ) ≤ floatMax
    exact_mod_cast hone
  size := rfl
  few := by norm_num [metreCell]
  cost c hc := by
    obtain rfl := List.mem_singleton.mp hc
    decide

theorem metreCell_offset (p : Position ℝ) : metreCell.info.offset p = p := by
  simp [MapMetaData.offset, metreCell]

theorem metreCell_size :
    metreCell.info.width.toNat = 1 ∧ metreCell.info.height.toNat = 1 := ⟨rfl, rfl⟩

theorem truncate_half : truncate (1 / 2 : ℝ) = 0 ∧ truncate (-1 / 2 : ℝ) = 0 := by
  constructor <;> norm_num [truncate, Int.floor_eq_iff, Int.ceil_eq_iff]

theorem metreCell_on : metreCell.On ⟨1 / 2, 1 / 2⟩ 30 := by
  constructor
  · rw [metreCell_valid.contains_iff, metreCell_offset, metreCell_size.1, metreCell_size.2]
    norm_num
  · rw [metreCell_offset, ← truncate_of_nonneg (by norm_num), truncate_half.1]
    rfl

theorem metreCell_beside : metreCell.Beside ⟨-1 / 2, 1 / 2⟩ 30 := by
  rw [OccupancyGrid.Beside, metreCell_valid.contains_iff, metreCell_offset, metreCell_size.1,
    metreCell_size.2, truncate_half.1, truncate_half.2]
  refine ⟨?_, ?_, ?_, rfl⟩ <;> norm_num

theorem metreCell_fits {p : Position ℝ} (hx : |p.x| ≤ 1) (hy : |p.y| ≤ 1) :
    metreCell.info.Fits p := by
  rw [MapMetaData.Fits, metreCell_offset, InIntRange, InIntRange]
  push_cast
  grind

/-- A plan that comes to the cell from half a metre beside it. -/
theorem metreCell_scoresOn : metreCell.ScoresOn [⟨-1 / 2, 1 / 2⟩, ⟨1 / 2, 1 / 2⟩] := by
  apply (scoresOn_iff_covered metreCell metreCell_valid _ ?_).mpr
  · intro p hp cost hbeside
    simp only [List.mem_cons, List.not_mem_nil, or_false] at hp
    rcases hp with rfl | rfl
    · have hcost := metreCell_beside.2.2.2.symm.trans hbeside.2.2.2
      exact ⟨⟨1 / 2, 1 / 2⟩, by simp, 30, metreCell_on, by grind⟩
    · exact absurd metreCell_on.1 hbeside.1
  · intro p hp
    simp only [List.mem_cons, List.not_mem_nil, or_false] at hp
    rcases hp with rfl | rfl <;> apply metreCell_fits <;> norm_num [abs_le]

/-- A plan that ends beside the cell is scored with the cost of the cell. -/
theorem metreCell_stray :
    ¬ ∀ (grid : OccupancyGrid ℝ) (path : Path ℝ), grid.Valid → (∀ p ∈ path, grid.info.Fits p) →
      grid.ScoresOn path := by
  intro hall
  have hfits : ∀ p ∈ [(⟨-1 / 2, 1 / 2⟩ : Position ℝ)], metreCell.info.Fits p := by
    intro p hp
    obtain rfl := List.mem_singleton.mp hp
    apply metreCell_fits <;> norm_num [abs_le]
  have hcovered := (metreCell_valid.result_iff hfits).mp (hall _ _ metreCell_valid hfits).1
  obtain ⟨p', hp', cost', hon, -⟩ := hcovered _ List.mem_cons_self 30 metreCell_beside
  obtain rfl := List.mem_singleton.mp hp'
  exact metreCell_beside.1 hon.1

end TitanRobot.Metrics

import TitanRobot.Costmap.Rolling

/-!
# The map in the world

Points of the world and cells of the map, in exact arithmetic. A point keeps its place when the map
moves, so what is read at a point is what was last left there.
-/
namespace TitanRobot.Costmap
open Floating Arithmetic

namespace Costmap2D

section
variable {α : Type} [Arithmetic α] (m : Costmap2D α)

def mapToWorld (mx my : ℕ) : α × α :=
  (add m.originX (mul (add (ofInt mx) half) m.resolution),
    add m.originY (mul (add (ofInt my) half) m.resolution))

/-- Nothing inside stands for `false`. -/
def worldToMap (wx wy : α) : Option (Option (ℕ × ℕ)) := do
  if lt wx m.originX || lt wy m.originY then return none
  let mx ← toUnsigned (div (sub wx m.originX) m.resolution)
  let my ← toUnsigned (div (sub wy m.originY) m.resolution)
  if mx < m.sizeX ∧ my < m.sizeY then return some (mx, my) else return none

/-- One axis of `worldToMapEnforceBounds`. -/
def enforceBounds (w origin resolution : α) (size : ℕ) : Option ℤ :=
  if lt w origin then some 0
  else if lt (add (mul resolution (ofInt size)) origin) w then some (size - 1)
  else toInt (div (sub w origin) resolution)

def worldToMapEnforceBounds (wx wy : α) : Option (ℤ × ℤ) := do
  let mx ← enforceBounds wx m.originX m.resolution m.sizeX
  let my ← enforceBounds wy m.originY m.resolution m.sizeY
  return (mx, my)

def getSizeInMetersX : α := mul (add (ofInt (unsigned (m.sizeX - 1))) half) m.resolution

def getSizeInMetersY : α := mul (add (ofInt (unsigned (m.sizeY - 1))) half) m.resolution

/-- The new origin in `LayeredCostmap::updateMap`, for a rolling window. -/
def newOrigin (robotX robotY : α) : α × α :=
  (sub robotX (div m.getSizeInMetersX (ofInt 2)), sub robotY (div m.getSizeInMetersY (ofInt 2)))

/-- The map moves with the robot. -/
def follow (robotX robotY : α) : Option (Costmap2D α) :=
  m.updateOrigin (m.newOrigin robotX robotY).1 (m.newOrigin robotX robotY).2

end

/-! ## Cells -/

section
variable {m : Costmap2D ℚ} {wx wy : ℚ} {x y : ℕ}

/-- The place of a point, counted in cells from the corner of the map. -/
def place (m : Costmap2D ℚ) (p : ℚ × ℚ) : ℤ × ℤ :=
  (⌊(p.1 - m.originX) / m.resolution⌋, ⌊(p.2 - m.originY) / m.resolution⌋)

/-- Conversion to a number that is small enough. -/
theorem castUnsigned_eq_some_iff {q : ℚ} {n : ℕ} (h0 : 0 ≤ q) (hn : n < 2 ^ 32) :
    castUnsigned q = some n ↔ ⌊q⌋ = n := by
  have hfloor := Int.floor_nonneg.mpr h0
  rw [castUnsigned, truncate_of_nonneg h0]
  split_ifs with h
  · rw [Option.some.injEq]
    omega
  · refine iff_of_false (by simp) fun heq => h ⟨by linarith, ?_⟩
    have hlt : ⌊q⌋ < ((2 ^ 32 : ℕ) : ℤ) := by omega
    exact_mod_cast Int.floor_lt.mp hlt

theorem not_lt_origin_iff {w origin res : ℚ} (hres : 0 < res) :
    ¬ w < origin ↔ 0 ≤ ⌊(w - origin) / res⌋ := by
  rw [Int.floor_nonneg, le_div_iff₀ hres, zero_mul, sub_nonneg, not_lt]

theorem worldToMap_eq_some_iff (hres : 0 < m.resolution) :
    m.worldToMap wx wy = some (some (x, y)) ↔
      m.place (wx, wy) = (↑x, ↑y) ∧ x < m.sizeX ∧ y < m.sizeY := by
  have hlt : (lt wx m.originX || lt wy m.originY) = true ↔ wx < m.originX ∨ wy < m.originY := by
    simp [Floating.lt]
  by_cases hoff : wx < m.originX ∨ wy < m.originY
  · have hplace : m.place (wx, wy) ≠ (↑x, ↑y) := by
      intro heq
      obtain ⟨hx, hy⟩ := Prod.mk.inj heq
      rcases hoff with h | h
      · exact (not_lt_origin_iff hres).mpr (hx ▸ Int.natCast_nonneg x) h
      · exact (not_lt_origin_iff hres).mpr (hy ▸ Int.natCast_nonneg y) h
    simp [worldToMap, hlt.mpr hoff, hplace]
  · obtain ⟨hx, hy⟩ := not_or.mp hoff
    have hcx := Int.floor_nonneg.mp ((not_lt_origin_iff hres).mp hx)
    have hcy := Int.floor_nonneg.mp ((not_lt_origin_iff hres).mp hy)
    have hsx := m.sizeX_lt
    have hsy := m.sizeY_lt
    have hrun : m.worldToMap wx wy = some (some (x, y)) ↔
        castUnsigned ((wx - m.originX) / m.resolution) = some x ∧
          castUnsigned ((wy - m.originY) / m.resolution) = some y ∧
            x < m.sizeX ∧ y < m.sizeY := by
      unfold worldToMap
      rw [if_neg (hlt.not.mpr hoff)]
      simp only [toUnsigned, div, sub, Option.bind_eq_bind, Option.bind_eq_some_iff]
      constructor
      · rintro ⟨mx, hmx, my, hmy, h⟩
        split_ifs at h with hon
        · obtain ⟨rfl, rfl⟩ := Prod.mk.inj (Option.some.inj (Option.some.inj h))
          exact ⟨hmx, hmy, hon⟩
        · simp at h
      · rintro ⟨hmx, hmy, hon⟩
        exact ⟨x, hmx, y, hmy, if_pos hon⟩
    rw [hrun, place, Prod.mk.injEq]
    constructor
    · rintro ⟨hmx, hmy, hxs, hys⟩
      exact ⟨⟨(castUnsigned_eq_some_iff hcx (by omega)).mp hmx,
        (castUnsigned_eq_some_iff hcy (by omega)).mp hmy⟩, hxs, hys⟩
    · rintro ⟨⟨hmx, hmy⟩, hxs, hys⟩
      exact ⟨(castUnsigned_eq_some_iff hcx (by omega)).mpr hmx,
        (castUnsigned_eq_some_iff hcy (by omega)).mpr hmy, hxs, hys⟩

/-- The middle of a cell is in the cell. -/
theorem worldToMap_mapToWorld (hres : 0 < m.resolution) (hx : x < m.sizeX) (hy : y < m.sizeY) :
    m.worldToMap (m.mapToWorld x y).1 (m.mapToWorld x y).2 = some (some (x, y)) := by
  have hmiddle : ∀ (origin : ℚ) (n : ℕ), ⌊(origin + (n + 1 / 2) * m.resolution - origin) /
      m.resolution⌋ = n := by
    intro origin n
    rw [add_sub_cancel_left, mul_div_cancel_right₀ _ hres.ne']
    rw [Int.floor_eq_iff]
    constructor <;> push_cast <;> linarith
  refine (worldToMap_eq_some_iff hres).mpr ⟨?_, hx, hy⟩
  exact Prod.ext (hmiddle m.originX x) (hmiddle m.originY y)

/-! ## The border -/

/-- On one axis, the cell is on the map unless the point is exactly on the upper border. -/
theorem enforceBounds_spec {w origin res : ℚ} {size : ℕ} (hres : 0 < res) (hsize : 0 < size)
    (hlt : size < 2 ^ 31) :
    ∃ c, enforceBounds w origin res size = some c ∧
      (0 ≤ c ∧ c < size ↔ w ≠ origin + size * res) := by
  have hlen : 0 < size * res := mul_pos (by exact_mod_cast hsize) hres
  unfold enforceBounds
  by_cases hlow : w < origin
  · refine ⟨0, if_pos (by simpa [Floating.lt] using hlow), ?_⟩
    exact iff_of_true (by omega) (by linarith)
  · rw [if_neg (by simpa [Floating.lt] using hlow)]
    by_cases hhigh : res * size + origin < w
    · refine ⟨size - 1, if_pos (by simpa [Floating.lt, add, mul, ofInt] using hhigh), ?_⟩
      exact iff_of_true (by omega) (by linarith)
    · rw [if_neg (by simpa [Floating.lt, add, mul, ofInt] using hhigh)]
      have hq : 0 ≤ (w - origin) / res := div_nonneg (by linarith) hres.le
      have hqle : (w - origin) / res ≤ size := by
        rw [div_le_iff₀ hres]
        linarith
      have hrange : InIntRange ((w - origin) / res) := by
        have hsz : (size : ℚ) < (2 ^ 31 : ℕ) := by exact_mod_cast hlt
        refine ⟨?_, hqle.trans_lt hsz⟩
        have hpos : (0 : ℚ) ≤ (2 ^ 31 : ℕ) := Nat.cast_nonneg _
        linarith
      refine ⟨truncate ((w - origin) / res), castInt_of_inRange hrange, ?_⟩
      rw [truncate_nonneg_iff, truncate_lt_iff hsize, and_iff_right (by linarith),
        div_lt_iff₀ hres]
      constructor
      · intro hlt' heq
        linarith
      · intro hne
        exact lt_of_le_of_ne (by linarith) fun heq => hne (by linarith)

/-- A map of four by three cells, half a metre wide. -/
def freshMap : Costmap2D ℚ where
  sizeX := 4
  sizeY := 3
  resolution := 1 / 2
  originX := 0
  originY := 0
  costmap := List.replicate 12 0
  defaultValue := 0
  length_costmap := rfl
  sizeX_lt := by decide
  sizeY_lt := by decide
  cells_lt := by decide

theorem place_of_moved {m' : Costmap2D ℚ} {k : ℤ × ℤ} (hres : 0 < m.resolution)
    (h : Moved m m' k) (p : ℚ × ℚ) : m'.place p = m.place p - k := by
  have haxis : ∀ (w o : ℚ) (n : ℤ),
      ⌊(w - (o + n * m.resolution)) / m.resolution⌋ = ⌊(w - o) / m.resolution⌋ - n := by
    intro w o n
    rw [← Int.floor_sub_intCast, ← sub_sub, sub_div, mul_div_cancel_right₀ _ hres.ne']
  unfold place
  rw [h.originX, h.originY, h.resolution]
  exact Prod.ext (haxis p.1 m.originX k.1) (haxis p.2 m.originY k.2)

/-! ## Following the robot -/

theorem abs_sub_truncate_lt (q : ℚ) : |q - truncate q| < 1 := by
  have hfloor := Int.floor_le q
  have hfloor' := Int.lt_floor_add_one q
  have hceil := Int.le_ceil q
  have hceil' := Int.ceil_lt_add_one q
  unfold truncate
  rw [abs_lt]
  split_ifs <;> constructor <;> linarith

/-- Half the size of the map before the robot, cut to whole cells, leaves it near the middle. -/
theorem follow_axis {w origin res : ℚ} {size : ℕ} {c : ℤ} (hres : 0 < res) (hsize : 0 < size)
    (hlt : size < 2 ^ 31)
    (hc : truncate ((w - (((unsigned ((size : ℤ) - 1) : ℤ) : ℚ) + 1 / 2) * res / 2 - origin) / res) =
      c) :
    -3 ≤ 2 * (⌊(w - origin) / res⌋ - c) + 1 - size ∧
      2 * (⌊(w - origin) / res⌋ - c) + 1 - size ≤ 2 := by
  have hun : ((unsigned ((size : ℤ) - 1) : ℤ) : ℚ) = size - 1 := by
    have hnat : (unsigned ((size : ℤ) - 1) : ℤ) = size - 1 := by
      unfold unsigned
      omega
    rw [hnat]
    push_cast
    rfl
  have hq : (w - (((unsigned ((size : ℤ) - 1) : ℤ) : ℚ) + 1 / 2) * res / 2 - origin) / res =
      (w - origin) / res - (size / 2 - 1 / 4) := by
    rw [hun]
    field_simp
    ring
  obtain ⟨hlo, hhi⟩ := abs_lt.mp (abs_sub_truncate_lt ((w - origin) / res - (size / 2 - 1 / 4)))
  rw [← hq, hc, hq] at hlo hhi
  have hfloor := Int.floor_le ((w - origin) / res)
  have hfloor' := Int.lt_floor_add_one ((w - origin) / res)
  generalize ⌊(w - origin) / res⌋ = f at *
  have hlow : ((-4 : ℤ) : ℚ) < ((2 * (f - c) + 1 - size : ℤ) : ℚ) := by
    push_cast
    linarith
  have hhigh : ((2 * (f - c) + 1 - size : ℤ) : ℚ) < ((3 : ℤ) : ℚ) := by
    push_cast
    linarith
  have hlow' := Int.cast_lt.mp hlow
  have hhigh' := Int.cast_lt.mp hhigh
  omega

/-- A rolling map of at least three cells each way has the robot on it, within a cell and a half of
its middle. -/
theorem follow_spec {robotX robotY : ℚ} {m' : Costmap2D ℚ} (hres : 0 < m.resolution)
    (hx : 3 ≤ m.sizeX) (hy : 3 ≤ m.sizeY) (h : m.follow robotX robotY = some m') :
    ∃ x y : ℕ, m'.worldToMap robotX robotY = some (some (x, y)) ∧
      |2 * (x : ℤ) + 1 - m.sizeX| ≤ 3 ∧ |2 * (y : ℤ) + 1 - m.sizeY| ≤ 3 := by
  obtain ⟨k, hk, hmoved⟩ := moved_of_updateOrigin h
  obtain ⟨hxlo, hxhi⟩ := @follow_axis robotX m.originX m.resolution _ _ hres (by omega) m.sizeX_lt
    (castInt_eq_some_iff.mp hk.cellX).2
  obtain ⟨hylo, hyhi⟩ := @follow_axis robotY m.originY m.resolution _ _ hres (by omega) m.sizeY_lt
    (castInt_eq_some_iff.mp hk.cellY).2
  have hplace := place_of_moved hres hmoved (robotX, robotY)
  have hx0 : 0 ≤ ⌊(robotX - m.originX) / m.resolution⌋ - k.1 := by omega
  have hy0 : 0 ≤ ⌊(robotY - m.originY) / m.resolution⌋ - k.2 := by omega
  refine ⟨(⌊(robotX - m.originX) / m.resolution⌋ - k.1).toNat,
    (⌊(robotY - m.originY) / m.resolution⌋ - k.2).toNat, ?_, ?_, ?_⟩
  · rw [worldToMap_eq_some_iff (hmoved.resolution ▸ hres), hplace, hmoved.sizeX, hmoved.sizeY]
    refine ⟨Prod.ext ?_ ?_, by omega, by omega⟩
    · exact (Int.toNat_of_nonneg hx0).symm
    · exact (Int.toNat_of_nonneg hy0).symm
  · rw [Int.toNat_of_nonneg hx0, abs_le]
    omega
  · rw [Int.toNat_of_nonneg hy0, abs_le]
    omega

theorem freshMap_follow :
    ((freshMap.follow 10 (-7)).bind fun m' => m'.worldToMap 10 (-7)).isSome ∧
      (freshMap.follow 10 (-7)).isSome := by
  have hsome : (freshMap.follow 10 (-7)).isSome := by decide +kernel
  obtain ⟨m', hm'⟩ := Option.isSome_iff_exists.mp hsome
  obtain ⟨x, y, hxy, -⟩ := follow_spec (m := freshMap) (by decide +kernel) (by decide) (by decide) hm'
  exact ⟨by simp [hm', hxy], hsome⟩

end

end Costmap2D

namespace MapOp
open Costmap2D
variable {m m' : Costmap2D ℚ}

/-- A point keeps its place over an operation. -/
theorem place_step {op : MapOp ℚ} (hres : 0 < m.resolution) (h : op.step m = some m')
    (p : ℚ × ℚ) : m'.resolution = m.resolution ∧ m'.place p = m.place p - op.shift m := by
  have hsame : ∀ {f : Option (List UInt8)} {hl}, f.pmap m.withCostmap hl = some m' →
      m'.resolution = m.resolution ∧ m'.place p = m.place p - 0 := by
    intro f hl hm'
    obtain ⟨l, _, -, rfl⟩ := Option.pmap_eq_some_iff.mp hm'
    exact ⟨rfl, (sub_zero _).symm⟩
  cases op with
  | updateOrigin x y =>
    obtain ⟨k, hk, hmoved⟩ := moved_of_updateOrigin h
    exact ⟨hmoved.resolution, shift_eq hk ▸ place_of_moved hres hmoved p⟩
  | resetMapToValue x0 y0 xn yn value => exact hsame h
  | setCost mx my value => exact hsame h
  | resetMaps =>
    obtain rfl := Option.some.inj h
    exact ⟨rfl, (sub_zero _).symm⟩

theorem place_run {ops : List (MapOp ℚ)} (hres : 0 < m.resolution)
    (h : ops.foldlM step m = some m') (p : ℚ × ℚ) :
    m'.resolution = m.resolution ∧ m'.place p = m.place p - travel ops m := by
  induction ops generalizing m with
  | nil =>
    obtain rfl := Option.some.inj h
    exact ⟨rfl, (sub_zero _).symm⟩
  | cons op ops ih =>
    obtain ⟨m₁, hm₁, hrest⟩ := Option.bind_eq_some_iff.mp (List.foldlM_cons.symm.trans h)
    obtain ⟨hres₁, hplace⟩ := place_step hres hm₁ p
    obtain ⟨hres', hplace'⟩ := ih (hres₁ ▸ hres) hrest
    refine ⟨hres'.trans hres₁, ?_⟩
    rw [hplace', hplace, travel, hm₁, Option.elim_some, sub_sub]

end MapOp

end TitanRobot.Costmap

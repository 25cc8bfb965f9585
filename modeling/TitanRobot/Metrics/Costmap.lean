import TitanRobot.Lib.Floating
import TitanRobot.Metrics.Path

/-!
# The costmap

`computeClearance` over any floating-point arithmetic, with the `int` and `uint32_t` arithmetic
of its index. It returns nothing where the C++ program has no defined behaviour: a conversion to
`int` out of range, or an element of `data` that is not there.
-/
namespace TitanRobot.Metrics
open Floating

/-- `nav_msgs/MapMetaData`; of the pose of the origin, its position is read. -/
structure MapMetaData (α : Type) where
  resolution : α
  width : UInt32
  height : UInt32
  origin : Position α

/-- `nav_msgs/OccupancyGrid` -/
structure OccupancyGrid (α : Type) where
  info : MapMetaData α
  data : List Int8

section
variable {α : Type} [Floating α]

/-- The two conversions to `int`. -/
def MapMetaData.toCell (info : MapMetaData α) (p : Position α) : Option (ℤ × ℤ) := do
  let mx ← toInt (div (sub p.x info.origin.x) info.resolution)
  let my ← toInt (div (sub p.y info.origin.y) info.resolution)
  return (mx, my)

/-- `static_cast<int>` of a `uint32_t`. -/
def castUInt (n : UInt32) : ℤ := n.toBitVec.toInt

/-- The guard of the loop. -/
def MapMetaData.Skips (info : MapMetaData α) (mx my : ℤ) : Prop :=
  mx < 0 ∨ my < 0 ∨ castUInt info.width ≤ mx ∨ castUInt info.height ≤ my

instance (info : MapMetaData α) (mx my : ℤ) : Decidable (info.Skips mx my) :=
  inferInstanceAs (Decidable (_ ∨ _))

/-- `my * info.width + mx`, in `uint32_t`, and then converted to `int`. -/
def MapMetaData.index (info : MapMetaData α) (mx my : ℤ) : ℤ :=
  (BitVec.ofInt 32 my * info.width.toBitVec + BitVec.ofInt 32 mx).toInt

/-- `data[index]` -/
def OccupancyGrid.read (grid : OccupancyGrid α) (index : ℤ) : Option ℤ :=
  if 0 ≤ index then grid.data[index.toNat]?.map Int8.toInt else none

/-- The body of the loop. -/
def OccupancyGrid.scorePose (grid : OccupancyGrid α) (minClearance : α) (p : Position α) :
    Option α := do
  let (mx, my) ← grid.info.toCell p
  if grid.info.Skips mx my then return minClearance
  let cost ← grid.read (grid.info.index mx my)
  if 0 ≤ cost then
    let clearance := mulFloat (100 - cost) grid.info.resolution
    return if lt clearance minClearance then clearance else minClearance
  return minClearance

def computeClearance (grid : OccupancyGrid α) (path : Path α) : Option α := do
  let minClearance ← path.foldlM grid.scorePose maxValue
  return if eq minClearance maxValue then negOne else minClearance

end

/-! ## The index -/

theorem castUInt_of_lt {n : UInt32} (h : n.toNat < 2 ^ 31) : castUInt n = n.toNat := by
  simp only [castUInt, BitVec.toInt_eq_toNat_cond, UInt32.toNat_toBitVec]
  omega

theorem castUInt_le (n : UInt32) : castUInt n ≤ n.toNat := by
  simp only [castUInt, BitVec.toInt_eq_toNat_cond, UInt32.toNat_toBitVec]
  omega

section
variable {α : Type} (info : MapMetaData α) {mx my : ℤ}

theorem MapMetaData.lt_of_not_skips (h : ¬ info.Skips mx my) : mx < 2 ^ 31 ∧ my < 2 ^ 31 := by
  simp only [Skips, castUInt, not_or, not_lt, not_le] at h
  obtain ⟨-, -, hw, hh⟩ := h
  exact ⟨hw.trans BitVec.toInt_lt, hh.trans BitVec.toInt_lt⟩

/-- What the guard lets through is a cell of the map. -/
theorem MapMetaData.cell_of_not_skips (h : ¬ info.Skips mx my) :
    0 ≤ mx ∧ mx < info.width.toNat ∧ 0 ≤ my ∧ my < info.height.toNat := by
  simp only [Skips, not_or, not_lt, not_le] at h
  obtain ⟨hx, hy, hw, hh⟩ := h
  have hwidth := castUInt_le info.width
  have hheight := castUInt_le info.height
  omega

/-- The index is exact as long as it is an `int`. -/
theorem MapMetaData.index_eq_iff (hx : 0 ≤ mx) (hy : 0 ≤ my) :
    info.index mx my = mx + my * info.width.toNat ↔ mx + my * info.width.toNat < 2 ^ 31 := by
  have hval : info.index mx my = (mx + my * info.width.toNat : ℤ).bmod (2 ^ 32) := by
    have hwidth : info.width.toBitVec = BitVec.ofInt 32 info.width.toNat := by
      apply BitVec.eq_of_toNat_eq
      simp
    rw [index, hwidth, ← BitVec.ofInt_mul, ← BitVec.ofInt_add, BitVec.toInt_ofInt, add_comm]
  have hpos : 0 ≤ mx + my * info.width.toNat := by positivity
  rw [hval]
  generalize mx + my * (info.width.toNat : ℤ) = n at *
  constructor
  · intro heq
    have hlt := @Int.bmod_lt n (2 ^ 32) (by norm_num)
    omega
  · intro hlt
    rw [Int.bmod_eq_of_le] <;> omega

/-- A cell of the map has a row-major number below the number of cells. -/
theorem rowMajor_lt {w h : ℕ} (hx : mx < w) (hy : my < h) :
    mx + my * w < (w * h : ℕ) := by
  have hrows : (my + 1) * w ≤ h * w := mul_le_mul_of_nonneg_right (by omega) (by omega)
  push_cast
  linarith

/-- For a cell of the map, the index is right exactly if it is an `int`. -/
theorem OccupancyGrid.index_right_iff (grid : OccupancyGrid α)
    (hsize : grid.data.length = grid.info.width.toNat * grid.info.height.toNat)
    (h : ¬ grid.info.Skips mx my) :
    (grid.info.index mx my = mx + my * grid.info.width.toNat ∧
        mx + my * grid.info.width.toNat < grid.data.length) ↔
      mx + my * grid.info.width.toNat < 2 ^ 31 := by
  obtain ⟨hx, hw, hy, hh⟩ := grid.info.cell_of_not_skips h
  rw [← grid.info.index_eq_iff hx hy, hsize]
  exact and_iff_left (rowMajor_lt hw hh)

/-- Reading an element that is there. -/
theorem OccupancyGrid.read_of_lt (grid : OccupancyGrid α) {n : ℤ} (h0 : 0 ≤ n)
    (h : n < grid.data.length) : ∃ c ∈ grid.data, grid.read n = some c.toInt := by
  have hlt : n.toNat < grid.data.length := by omega
  exact ⟨grid.data[n.toNat], List.getElem_mem hlt, by simp [read, h0, hlt]⟩

end

end TitanRobot.Metrics

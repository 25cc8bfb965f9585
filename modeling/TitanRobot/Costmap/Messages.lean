import TitanRobot.Lib.Grid
import TitanRobot.Metrics.Costmap

/-!
# Grids and updates as messages

A map is sent as a whole, or as the rectangle of its cells that has changed.
-/
namespace TitanRobot.Costmap
open Grid
open Metrics (OccupancyGrid MapMetaData)

/-- `map_msgs/OccupancyGridUpdate` -/
structure OccupancyGridUpdate where
  frameId : String
  x : Int32
  y : Int32
  width : UInt32
  height : UInt32
  data : List Int8

inductive Message (α : Type) where
  | grid (frameId : String) (grid : OccupancyGrid α)
  | update (update : OccupancyGridUpdate)

theorem toNat_ofNat_of_lt {n : ℕ} (h : n < 2 ^ 31) : (UInt32.ofNat n).toNat = n := by
  rw [UInt32.toNat_ofNat']
  exact Nat.mod_eq_of_lt (by omega)

/-- The corner and the size of the rectangle. -/
def OccupancyGridUpdate.Covers (u : OccupancyGridUpdate) (x y w h : ℕ) : Prop :=
  u.x.toInt = x ∧ u.y.toInt = y ∧ u.width.toNat = w ∧ u.height.toNat = h

/-- What a receiver should make of an update: the rectangle is put into the grid. -/
def put (u : OccupancyGridUpdate) (w : ℕ) (data : List Int8) : List Int8 :=
  data.mapIdx fun j v =>
    if Rect w u.x.toInt.toNat u.y.toInt.toNat u.width.toNat u.height.toNat j then
      (u.data[(j / w - u.y.toInt.toNat) * u.width.toNat + (j % w - u.x.toInt.toNat)]?).getD v
    else v

theorem put_eq {u : OccupancyGridUpdate} {x y w h width : ℕ} (hu : u.Covers x y w h)
    (data : List Int8) : put u width data = data.mapIdx fun j v =>
      if Rect width x y w h j then (u.data[(j / width - y) * w + (j % width - x)]?).getD v
      else v := by
  obtain ⟨hx, hy, hw, hh⟩ := hu
  simp only [put, hx, hy, hw, hh, Int.toNat_natCast]

def OccupancyGridUpdate.apply {α : Type} (u : OccupancyGridUpdate) (g : OccupancyGrid α) :
    OccupancyGrid α :=
  { g with data := put u g.info.width.toNat g.data }

/-- The grid that a receiver has after a message. -/
def receive {α : Type} (view : Option (OccupancyGrid α)) : Message α → Option (OccupancyGrid α)
  | .grid _ g => some g
  | .update u => view.map u.apply

end TitanRobot.Costmap

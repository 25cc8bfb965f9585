import TitanRobot.Costmap.Map

/-!
# Layers

The four ways in which a layer writes its costs into the master map: loops over the same window
that differ in what they make of the layer's cost and the one in the master.
-/
namespace TitanRobot.Costmap
open Grid Costmap2D

/-! ## Two costs of a cell -/

/-- The body of the loop of `updateWithMax`. -/
def maxCost (own old : UInt8) : UInt8 :=
  if own = noInformation then old
  else if old = noInformation ∨ old < own then own else old

def trueOverwriteCost (own _old : UInt8) : UInt8 := own

def overwriteCost (own old : UInt8) : UInt8 := if own ≠ noInformation then own else old

/-- The sum is an `int`. -/
def additionCost (own old : UInt8) : UInt8 :=
  if own = noInformation then old
  else if old = noInformation then own
  else if inscribedInflatedObstacle.toNat ≤ old.toNat + own.toNat then inscribedInflatedObstacle - 1
  else (old.toNat + own.toNat).toUInt8

/-! ## The loops -/

/-- `CostmapLayer`: a costmap of its own, and whether it is enabled. -/
structure CostmapLayer (α : Type) extends Costmap2D α where
  enabled : Bool

namespace CostmapLayer
variable {α : Type} (layer : CostmapLayer α) (master : Costmap2D α)

/-- The assignment in the loops; the own cost is read at the number of the master's cell. -/
def writeCell (combine : UInt8 → UInt8 → UInt8) (array : List UInt8) (it : ℕ) :
    Option (List UInt8) := do
  let own ← layer.costmap[it]?
  assign array it (combine own)

theorem length_writeCell {combine : UInt8 → UInt8 → UInt8} {array l : List UInt8} {it : ℕ}
    (h : layer.writeCell combine array it = some l) : l.length = array.length := by
  obtain ⟨own, -, hassign⟩ := Option.bind_eq_some_iff.mp h
  exact length_assign hassign

/-- The loops over the window. -/
def updateWith (combine : UInt8 → UInt8 → UInt8) (minI minJ maxI maxJ : ℤ) :
    Option (Costmap2D α) :=
  if layer.enabled then
    ((List.range (maxJ - minJ).toNat).foldlM (fun array (j : ℕ) =>
      (List.range (maxI - minI).toNat).foldlM (fun array (i : ℕ) =>
        layer.writeCell combine array (unsigned ((minJ + j) * master.sizeX + minI) + i)) array)
      master.costmap).pmap master.withCostmap fun _ =>
        length_foldlM fun _ _ _ => length_foldlM fun _ _ _ => layer.length_writeCell
  else some master

def updateWithMax := layer.updateWith master maxCost

def updateWithTrueOverwrite := layer.updateWith master trueOverwriteCost

def updateWithOverwrite := layer.updateWith master overwriteCost

def updateWithAddition := layer.updateWith master additionCost

variable {layer master}

theorem writeCell_eq {combine : UInt8 → UInt8 → UInt8} {array : List UInt8} {it : ℕ}
    (hown : it < layer.costmap.length) (h : it < array.length) :
    layer.writeCell combine array it = some (array.mapIdx fun j a =>
      if j = it then combine (layer.costmap[j]?.getD 0) a else a) := by
  rw [writeCell, List.getElem?_eq_getElem hown]
  refine (assign_eq h).trans ?_
  congr 2
  funext j a
  refine ite_congr rfl (fun hj => ?_) fun _ => rfl
  subst hj
  rw [List.getElem?_eq_getElem hown]
  rfl

/-- On a layer of the size of the master, each cell of the window has the combined cost, and all
others are kept. -/
theorem updateWith_eq {combine : UInt8 → UInt8 → UInt8} {x0 y0 xn yn : ℕ}
    (hsx : layer.sizeX = master.sizeX) (hsy : layer.sizeY = master.sizeY) (hx : x0 ≤ xn)
    (hxn : xn ≤ master.sizeX) (hy : y0 ≤ yn) (hyn : yn ≤ master.sizeY) :
    ∃ m', layer.updateWith master combine x0 y0 xn yn = some m' ∧
      Repainted master m' fun c => if layer.enabled ∧ InWindow x0 y0 xn yn c then
        combine (layer.cost c) (master.cost c) else master.cost c := by
  by_cases hen : layer.enabled
  · have hlen : layer.costmap.length = master.costmap.length := by
      rw [layer.length_costmap, master.length_costmap, hsx, hsy]
    have hcols : x0 + (xn - x0) ≤ master.sizeX := by omega
    have hmem : (y0 + (yn - y0)) * master.sizeX ≤ master.costmap.length := by
      rw [master.length_costmap, Nat.add_sub_cancel' hy, mul_comm]
      exact Nat.mul_le_mul_left _ hyn
    have hloop : (List.range ((yn : ℤ) - y0).toNat).foldlM (fun array (j : ℕ) =>
        (List.range ((xn : ℤ) - x0).toNat).foldlM (fun array (i : ℕ) => layer.writeCell combine array
          (unsigned ((y0 + j) * master.sizeX + x0) + i)) array) master.costmap =
        some (master.costmap.mapIdx fun j a => if Rect master.sizeX x0 y0 (xn - x0) (yn - y0) j
          then combine (layer.costmap[j]?.getD 0) a else a) := by
      rw [show ((yn : ℤ) - y0).toNat = yn - y0 by omega,
        show ((xn : ℤ) - x0).toNat = xn - x0 by omega]
      refine foldlM_rows (v := fun _ j a => combine (layer.costmap[j]?.getD 0) a) hcols ?_
      intro j hj l hl
      have hrow := row_le hcols hmem j hj
      have hcells := master.cells_lt
      have hmaster := master.length_costmap
      have hit : unsigned (((y0 : ℤ) + j) * master.sizeX + x0) = (y0 + j) * master.sizeX + x0 := by
        rw [← unsigned_of_lt (n := (y0 + j) * master.sizeX + x0) (by omega)]
        push_cast
        rfl
      rw [hit]
      refine foldlM_span (v := fun _ j a => combine (layer.costmap[j]?.getD 0) a) ?_
      intro i hi l' hl'
      exact layer.writeCell_eq (by omega) (by omega)
    obtain ⟨m', hm', hpaint⟩ := repainted_of_mapIdx hloop fun _ =>
      length_foldlM fun _ _ _ => length_foldlM fun _ _ _ => layer.length_writeCell
    refine ⟨m', (if_pos hen).trans hm', hpaint.same, fun c hc => ?_⟩
    have hc' : layer.Inside c := by
      unfold Inside at *
      omega
    have hown := hc'.getElem?_number
    rw [show layer.number c = master.number c by simp [number, getIndex, hsx]] at hown
    rw [hpaint.cost_eq c hc, hown, Option.getD_some]
    exact if_congr ((hc.rect_iff hx hy).trans (and_iff_right hen).symm) rfl rfl
  · refine ⟨master, if_neg hen, ⟨master.costmap, rfl, rfl⟩, fun c _ => ?_⟩
    rw [if_neg fun h => hen h.1]

end CostmapLayer

end TitanRobot.Costmap

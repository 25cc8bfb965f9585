import TitanRobot.Costmap.Layers
import TitanRobot.Costmap.World

/-!
# The layered costmap

`LayeredCostmap::updateMap` recomputes only the window that the layers report as changed. If every
layer acts on each cell alone and reports what it changes, the master map is after every update what
recomputing all of it would give.
-/
namespace TitanRobot.Costmap
open Floating Arithmetic Costmap2D

structure Bounds (α : Type) where
  minX : α
  minY : α
  maxX : α
  maxY : α

/-- The virtual functions of `Layer`, at one update: a layer widens the bounds by what it has
changed, and writes its costs into a window of the master map. -/
structure Layer (α : Type) where
  updateBounds : Bounds α → Bounds α
  updateCosts : Costmap2D α → ℤ → ℤ → ℤ → ℤ → Option (Costmap2D α)

structure LayeredCostmap (α : Type) where
  primary : Costmap2D α
  combined : Costmap2D α
  rollingWindow : Bool
  /-- The window of the last update. -/
  bx0 : ℕ
  by0 : ℕ
  bxn : ℕ
  byn : ℕ
  initialized : Bool

namespace LayeredCostmap
variable {α : Type} [Arithmetic α] (lc : LayeredCostmap α)

/-- The window moves with the robot. -/
def roll (robotX robotY : α) : Option (LayeredCostmap α) :=
  if lc.rollingWindow then do
    let (newOriginX, newOriginY) := lc.combined.newOrigin robotX robotY
    let primary ← lc.primary.updateOrigin newOriginX newOriginY
    let combined ← lc.combined.follow robotX robotY
    return { lc with primary, combined }
  else some lc

/-- The bounds that all layers report, starting from none. -/
def bounds (layers : List (Layer α)) : Bounds α :=
  layers.foldl (fun b layer => layer.updateBounds b)
    ⟨maxValue, maxValue, sub (ofInt 0) maxValue, sub (ofInt 0) maxValue⟩

/-- The window of cells to recompute: `x0`, `y0`, `xn` and `yn`. -/
def window (map : Costmap2D α) (b : Bounds α) : Option (ℤ × ℤ × ℤ × ℤ) := do
  let (x0, y0) ← map.worldToMapEnforceBounds b.minX b.minY
  let (xn, yn) ← map.worldToMapEnforceBounds b.maxX b.maxY
  let xn ← signed (xn + 1)
  let yn ← signed (yn + 1)
  return (max 0 x0, max 0 y0, min map.sizeX xn, min map.sizeY yn)

/-- Reset the window and let every layer write into it. -/
def recompute (map : Costmap2D α) (plugins : List (Layer α)) (x0 y0 xn yn : ℤ) :
    Option (Costmap2D α) := do
  let map ← map.resetMap (unsigned x0) (unsigned y0) (unsigned xn) (unsigned yn)
  plugins.foldlM (fun map layer => layer.updateCosts map x0 y0 xn yn) map

/-- The window is noted for the publisher. -/
def updated (x0 y0 xn yn : ℤ) : LayeredCostmap α :=
  { lc with
    bx0 := unsigned x0
    by0 := unsigned y0
    bxn := unsigned xn
    byn := unsigned yn
    initialized := true }

/-- A window that does not fit is an exception. -/
def updateMap (plugins filters : List (Layer α)) (robotX robotY : α) :
    Option (LayeredCostmap α) := do
  let lc ← lc.roll robotX robotY
  -- the robot may be out of bounds
  let _ ← lc.combined.worldToMap robotX robotY
  if plugins.isEmpty && filters.isEmpty then return lc
  let (x0, y0, xn, yn) ← window lc.combined (bounds (plugins ++ filters))
  if xn < x0 ∨ yn < y0 then return lc
  if filters.isEmpty then
    let combined ← recompute lc.combined plugins x0 y0 xn yn
    return { lc.updated x0 y0 xn yn with combined }
  else
    let primary ← recompute lc.primary plugins x0 y0 xn yn
    let copied ← lc.combined.copyWindow primary (unsigned x0) (unsigned y0) (unsigned xn)
      (unsigned yn) (unsigned x0) (unsigned y0)
    let combined ← copied
    let combined ← filters.foldlM (fun map layer => layer.updateCosts map x0 y0 xn yn) combined
    return { lc.updated x0 y0 xn yn with primary, combined }

end LayeredCostmap

/-! ## Layers that paint cells -/

instance : LE (Bounds ℚ) where
  le b b' := b'.minX ≤ b.minX ∧ b'.minY ≤ b.minY ∧ b.maxX ≤ b'.maxX ∧ b.maxY ≤ b'.maxY

/-- A point within the bounds. -/
def Bounds.Has (b : Bounds ℚ) (p : ℚ × ℚ) : Prop :=
  b.minX ≤ p.1 ∧ p.1 ≤ b.maxX ∧ b.minY ≤ p.2 ∧ p.2 ≤ b.maxY

instance (b : Bounds ℚ) (p : ℚ × ℚ) : Decidable (b.Has p) := inferInstanceAs (Decidable (_ ∧ _))

/-- `CostmapLayer::touch` -/
def Bounds.touch (x y : ℚ) (b : Bounds ℚ) : Bounds ℚ where
  minX := min x b.minX
  minY := min y b.minY
  maxX := max x b.maxX
  maxY := max y b.maxY

/-- A layer for maps of one size that makes of the cost of each cell in the window another one,
whatever the other cells have. So do the loops of a `CostmapLayer`; inflation, which goes by the
neighbours of a cell, does not. -/
structure CellLayer (width height : ℕ) extends Layer ℚ where
  paint : ℤ × ℤ → UInt8 → UInt8
  paints : ∀ {map : Costmap2D ℚ} {x0 y0 xn yn : ℕ}, map.sizeX = width → map.sizeY = height →
    x0 ≤ xn → xn ≤ width → y0 ≤ yn → yn ≤ height →
    ∃ m', updateCosts map x0 y0 xn yn = some m' ∧ Repainted map m' fun c =>
      if InWindow x0 y0 xn yn c then paint c (map.cost c) else map.cost c

/-- A `CostmapLayer` with one of the four loops. -/
def CostmapLayer.cellLayer (layer : CostmapLayer ℚ) (combine : UInt8 → UInt8 → UInt8)
    (updateBounds : Bounds ℚ → Bounds ℚ) : CellLayer layer.sizeX layer.sizeY where
  updateBounds := updateBounds
  updateCosts map := layer.updateWith map combine
  paint c old := if layer.enabled then combine (layer.cost c) old else old
  paints hsx hsy hx hxn hy hyn := by
    obtain ⟨m', hm', hpaint⟩ := @layer.updateWith_eq ℚ _ combine _ _ _ _ hsx.symm hsy.symm hx
      (hsx ▸ hxn) hy (hsy ▸ hyn)
    refine ⟨m', hm', hpaint.same, fun c hc => (hpaint.cost_eq c hc).trans ?_⟩
    split_ifs <;> simp_all

section
variable {w h : ℕ}

/-- What a list of layers makes of the cost of a cell. -/
def layered (layers : List (CellLayer w h)) (c : ℤ × ℤ) (cost : UInt8) : UInt8 :=
  layers.foldl (fun cost layer => layer.paint c cost) cost

variable {map : Costmap2D ℚ} {layers : List (CellLayer w h)} {x0 y0 xn yn : ℕ}

theorem foldlM_updateCosts (hw : map.sizeX = w) (hh : map.sizeY = h) (hx : x0 ≤ xn) (hxn : xn ≤ w)
    (hy : y0 ≤ yn) (hyn : yn ≤ h) :
    ∃ m', (layers.map (·.toLayer)).foldlM (fun map layer => layer.updateCosts map x0 y0 xn yn) map =
        some m' ∧
      Repainted map m' fun c =>
        if InWindow x0 y0 xn yn c then layered layers c (map.cost c) else map.cost c := by
  induction layers generalizing map with
  | nil => exact ⟨map, rfl, ⟨_, rfl, rfl⟩, fun c _ => by simp [layered]⟩
  | cons layer layers ih =>
    obtain ⟨m₁, hm₁, hpaint₁⟩ := layer.paints hw hh hx hxn hy hyn
    obtain ⟨m₂, hm₂, hpaint₂⟩ := ih (hpaint₁.sizeX_eq.trans hw) (hpaint₁.sizeY_eq.trans hh)
    refine ⟨m₂, ?_, (hpaint₁.trans hpaint₂).same, fun c hc => ?_⟩
    · rw [List.map_cons, List.foldlM_cons, hm₁]
      exact hm₂
    · rw [(hpaint₁.trans hpaint₂).cost_eq c hc, hpaint₁.cost_eq c hc]
      split_ifs <;> rfl

theorem recompute_eq (hw : map.sizeX = w) (hh : map.sizeY = h) {x0 y0 xn yn : ℤ} (hx0 : 0 ≤ x0)
    (hx : x0 ≤ xn) (hxn : xn ≤ w) (hy0 : 0 ≤ y0) (hy : y0 ≤ yn) (hyn : yn ≤ h) :
    ∃ m', LayeredCostmap.recompute map (layers.map (·.toLayer)) x0 y0 xn yn = some m' ∧
      Repainted map m' fun c => if x0 ≤ c.1 ∧ c.1 < xn ∧ y0 ≤ c.2 ∧ c.2 < yn then
        layered layers c map.defaultValue else map.cost c := by
  have hwlt := map.sizeX_lt
  have hhlt := map.sizeY_lt
  lift x0 to ℕ using hx0
  lift y0 to ℕ using hy0
  lift xn to ℕ using (by omega)
  lift yn to ℕ using (by omega)
  simp only [Nat.cast_le] at hx hxn hy hyn
  obtain ⟨m₁, hm₁, hpaint₁⟩ := resetMapToValue_eq (m := map) hx (hw ▸ hxn) hy (hh ▸ hyn)
    map.defaultValue
  obtain ⟨m₂, hm₂, hpaint₂⟩ := @foldlM_updateCosts w h m₁ layers _ _ _ _
    (hpaint₁.sizeX_eq.trans hw) (hpaint₁.sizeY_eq.trans hh) hx hxn hy hyn
  refine ⟨m₂, ?_, (hpaint₁.trans hpaint₂).same, fun c hc => ?_⟩
  · rw [LayeredCostmap.recompute, unsigned_of_lt (by omega), unsigned_of_lt (by omega),
      unsigned_of_lt (by omega), unsigned_of_lt (by omega), resetMap, hm₁]
    exact hm₂
  · rw [(hpaint₁.trans hpaint₂).cost_eq c hc, hpaint₁.cost_eq c hc]
    by_cases hwin : InWindow x0 y0 xn yn c
    · simp only [if_pos hwin]
      exact (if_pos hwin).symm
    · simp only [if_neg hwin]
      exact (if_neg hwin).symm

end

/-! ## The window -/

section
variable {p v origin res : ℚ} {size : ℕ} {c : ℤ}

/-- The cases of the bound, with the cell that it is given. -/
theorem enforceBounds_cases (hres : 0 < res) (h : enforceBounds v origin res size = some c) :
    v < origin ∧ c = 0 ∨ origin + size * res < v ∧ c = size - 1 ∨
      origin ≤ v ∧ c = ⌊(v - origin) / res⌋ := by
  unfold enforceBounds at h
  split_ifs at h with hlow hhigh
  · exact Or.inl ⟨by simpa [Floating.lt] using hlow, (Option.some.inj h).symm⟩
  · refine Or.inr (Or.inl ⟨?_, (Option.some.inj h).symm⟩)
    have hlt : res * size + origin < v := by simpa [Floating.lt, add, mul, ofInt] using hhigh
    linarith
  · have hge : origin ≤ v := by simpa [Floating.lt] using hlow
    refine Or.inr (Or.inr ⟨hge, ?_⟩)
    rw [← (castInt_eq_some_iff.mp h).2]
    have hq : 0 ≤ (v - origin) / res := div_nonneg (by linarith) hres.le
    exact truncate_of_nonneg hq

theorem floor_nonneg_iff (hres : 0 < res) : 0 ≤ ⌊(p - origin) / res⌋ ↔ origin ≤ p := by
  rw [← not_lt_origin_iff hres, not_lt]

theorem floor_lt_size_iff (hres : 0 < res) :
    ⌊(p - origin) / res⌋ < size ↔ p < origin + size * res := by
  rw [Int.floor_lt, div_lt_iff₀ hres, Int.cast_natCast]
  constructor <;> intro h <;> linarith

theorem floor_mono (hres : 0 < res) (h : v ≤ p) :
    ⌊(v - origin) / res⌋ ≤ ⌊(p - origin) / res⌋ :=
  Int.floor_le_floor (div_le_div_of_nonneg_right (by linarith) hres.le)

/-- A point not below the bound has no smaller cell. -/
theorem enforceBounds_le (hres : 0 < res) (h : enforceBounds v origin res size = some c)
    (hvp : v ≤ p) (h0 : 0 ≤ ⌊(p - origin) / res⌋) (hsize : ⌊(p - origin) / res⌋ < size) :
    c ≤ ⌊(p - origin) / res⌋ := by
  rcases enforceBounds_cases hres h with ⟨-, rfl⟩ | ⟨hhigh, rfl⟩ | ⟨-, rfl⟩
  · exact h0
  · rw [floor_lt_size_iff hres] at hsize
    linarith
  · exact floor_mono hres hvp

/-- A point not above the bound has no larger cell. -/
theorem le_enforceBounds (hres : 0 < res) (h : enforceBounds v origin res size = some c)
    (hpv : p ≤ v) (h0 : 0 ≤ ⌊(p - origin) / res⌋) (hsize : ⌊(p - origin) / res⌋ < size) :
    ⌊(p - origin) / res⌋ ≤ c := by
  rcases enforceBounds_cases hres h with ⟨hlow, rfl⟩ | ⟨-, rfl⟩ | ⟨-, rfl⟩
  · rw [floor_nonneg_iff hres] at h0
    linarith
  · omega
  · exact floor_mono hres hpv

theorem eq_of_signed {n k : ℤ} (h : signed n = some k) : n = k := by
  unfold signed at h
  split_ifs at h
  exact Option.some.inj h

theorem enforceBounds_of_world {map : Costmap2D ℚ} {wx wy : ℚ} {mx my : ℤ}
    (h : map.worldToMapEnforceBounds wx wy = some (mx, my)) :
    enforceBounds wx map.originX map.resolution map.sizeX = some mx ∧
      enforceBounds wy map.originY map.resolution map.sizeY = some my := by
  simpa [worldToMapEnforceBounds, Option.bind_eq_some_iff] using h

/-- The window is on the map and has the cell of every point within the bounds. -/
theorem window_spec {map : Costmap2D ℚ} {b : Bounds ℚ} {x0 y0 xn yn : ℤ}
    (hres : 0 < map.resolution)
    (h : LayeredCostmap.window map b = some (x0, y0, xn, yn)) :
    0 ≤ x0 ∧ xn ≤ map.sizeX ∧ 0 ≤ y0 ∧ yn ≤ map.sizeY ∧
      ∀ p, b.Has p → map.Inside (map.place p) →
        x0 ≤ (map.place p).1 ∧ (map.place p).1 < xn ∧
          y0 ≤ (map.place p).2 ∧ (map.place p).2 < yn := by
  unfold LayeredCostmap.window at h
  obtain ⟨⟨ax, ay⟩, hlow, h⟩ := Option.bind_eq_some_iff.mp h
  obtain ⟨⟨ux, uy⟩, hhigh, h⟩ := Option.bind_eq_some_iff.mp h
  obtain ⟨sx, hsx, h⟩ := Option.bind_eq_some_iff.mp h
  obtain ⟨sy, hsy, h⟩ := Option.bind_eq_some_iff.mp h
  obtain ⟨rfl, rfl, rfl, rfl⟩ : max 0 ax = x0 ∧ max 0 ay = y0 ∧ min (map.sizeX : ℤ) sx = xn ∧
      min (map.sizeY : ℤ) sy = yn := by simpa using h
  have hsx' : sx = ux + 1 := (eq_of_signed hsx).symm
  have hsy' : sy = uy + 1 := (eq_of_signed hsy).symm
  obtain ⟨hax, hay⟩ := enforceBounds_of_world hlow
  obtain ⟨hux, huy⟩ := enforceBounds_of_world hhigh
  refine ⟨by omega, by omega, by omega, by omega, ?_⟩
  rintro p ⟨hminx, hmaxx, hminy, hmaxy⟩ ⟨hx0, hx, hy0, hy⟩
  have hlx := enforceBounds_le hres hax hminx hx0 hx
  have hly := enforceBounds_le hres hay hminy hy0 hy
  have hgx := le_enforceBounds hres hux hmaxx hx0 hx
  have hgy := le_enforceBounds hres huy hmaxy hy0 hy
  change 0 ≤ ⌊(p.1 - map.originX) / map.resolution⌋ at hx0
  change 0 ≤ ⌊(p.2 - map.originY) / map.resolution⌋ at hy0
  change ⌊(p.1 - map.originX) / map.resolution⌋ < map.sizeX at hx
  change ⌊(p.2 - map.originY) / map.resolution⌋ < map.sizeY at hy
  simp only [place]
  omega

end

/-! ## One update -/

namespace LayeredCostmap

/-- Both maps are the same but for their costs. -/
structure Aligned (lc : LayeredCostmap ℚ) (w h : ℕ) : Prop where
  resolution_pos : 0 < lc.combined.resolution
  sizeX : lc.combined.sizeX = w
  sizeY : lc.combined.sizeY = h
  sizeX_eq : lc.primary.sizeX = lc.combined.sizeX
  sizeY_eq : lc.primary.sizeY = lc.combined.sizeY
  resolution_eq : lc.primary.resolution = lc.combined.resolution
  originX_eq : lc.primary.originX = lc.combined.originX
  originY_eq : lc.primary.originY = lc.combined.originY
  defaultValue_eq : lc.primary.defaultValue = lc.combined.defaultValue

/-- The cells that the maps move by before an update. -/
def shift (lc : LayeredCostmap ℚ) (robotX robotY : ℚ) : ℤ × ℤ :=
  if lc.rollingWindow then
    (MapOp.updateOrigin (robotX - lc.combined.getSizeInMetersX / 2)
      (robotY - lc.combined.getSizeInMetersY / 2)).shift lc.combined
  else 0

section
variable {w h : ℕ} {lc lc' : LayeredCostmap ℚ} {robotX robotY : ℚ}

theorem roll_spec (ha : lc.Aligned w h) (hroll : lc.roll robotX robotY = some lc') :
    lc'.Aligned w h ∧ lc'.combined.defaultValue = lc.combined.defaultValue ∧
      ∀ c, lc'.combined.Inside c →
        lc'.combined.cost c = lc.combined.cost (c + lc.shift robotX robotY) ∧
          lc'.primary.cost c = lc.primary.cost (c + lc.shift robotX robotY) := by
  by_cases hrolling : lc.rollingWindow
  · rw [roll, if_pos hrolling] at hroll
    obtain ⟨primary, hprimary, hroll⟩ := Option.bind_eq_some_iff.mp hroll
    obtain ⟨combined, hcombined, hroll⟩ := Option.bind_eq_some_iff.mp hroll
    obtain rfl := Option.some.inj hroll
    obtain ⟨k, hk, hmoved⟩ := moved_of_updateOrigin hcombined
    obtain ⟨k', hk', hmoved'⟩ := moved_of_updateOrigin hprimary
    have hcellX := hk'.cellX
    have hcellY := hk'.cellY
    rw [ha.originX_eq, ha.resolution_eq] at hcellX
    rw [ha.originY_eq, ha.resolution_eq] at hcellY
    obtain rfl : k' = k := Prod.ext (Option.some.inj (hcellX.symm.trans hk.cellX))
      (Option.some.inj (hcellY.symm.trans hk.cellY))
    have hshift : lc.shift robotX robotY = k' := (if_pos hrolling).trans (MapOp.shift_eq hk)
    refine ⟨⟨?_, hmoved.sizeX.trans ha.sizeX, hmoved.sizeY.trans ha.sizeY, ?_, ?_, ?_, ?_, ?_, ?_⟩,
      hmoved.defaultValue, fun c hc => ⟨?_, ?_⟩⟩
    · exact hmoved.resolution ▸ ha.resolution_pos
    · exact hmoved'.sizeX.trans (ha.sizeX_eq.trans hmoved.sizeX.symm)
    · exact hmoved'.sizeY.trans (ha.sizeY_eq.trans hmoved.sizeY.symm)
    · exact hmoved'.resolution.trans (ha.resolution_eq.trans hmoved.resolution.symm)
    · rw [hmoved'.originX, hmoved.originX, ha.originX_eq, ha.resolution_eq]
    · rw [hmoved'.originY, hmoved.originY, ha.originY_eq, ha.resolution_eq]
    · exact hmoved'.defaultValue.trans (ha.defaultValue_eq.trans hmoved.defaultValue.symm)
    · rw [hshift]
      exact hmoved.cost_eq c hc
    · rw [hshift]
      refine hmoved'.cost_eq c ?_
      simpa [Inside, hmoved.sizeX, hmoved.sizeY, hmoved'.sizeX, hmoved'.sizeY, ha.sizeX_eq,
        ha.sizeY_eq] using hc
  · rw [roll, if_neg hrolling] at hroll
    obtain rfl := Option.some.inj hroll
    have hshift : lc.shift robotX robotY = 0 := if_neg hrolling
    exact ⟨ha, rfl, fun c _ => by simp [hshift]⟩

/-- The master map follows the robot. -/
theorem follow_of_roll (hrolling : lc.rollingWindow = true)
    (hroll : lc.roll robotX robotY = some lc') :
    lc.combined.follow robotX robotY = some lc'.combined := by
  rw [roll, if_pos hrolling] at hroll
  obtain ⟨primary, -, hroll⟩ := Option.bind_eq_some_iff.mp hroll
  obtain ⟨combined, hcombined, hroll⟩ := Option.bind_eq_some_iff.mp hroll
  obtain rfl := Option.some.inj hroll
  exact hcombined

/-- The maps roll by the shift, and nothing else of the costmap changes. -/
theorem roll_place (hroll : lc.roll robotX robotY = some lc') :
    lc'.combined.originX =
        lc.combined.originX + (lc.shift robotX robotY).1 * lc.combined.resolution ∧
      lc'.combined.originY = lc.combined.originY +
        (lc.shift robotX robotY).2 * lc.combined.resolution ∧
      lc'.combined.resolution = lc.combined.resolution ∧
      lc' = { lc with primary := lc'.primary, combined := lc'.combined } := by
  by_cases hrolling : lc.rollingWindow
  · obtain ⟨k, hk, hmoved⟩ := moved_of_updateOrigin (follow_of_roll hrolling hroll)
    have hshift : lc.shift robotX robotY = k := (if_pos hrolling).trans (MapOp.shift_eq hk)
    rw [hshift]
    refine ⟨hmoved.originX, hmoved.originY, hmoved.resolution, ?_⟩
    rw [roll, if_pos hrolling] at hroll
    obtain ⟨primary, -, hroll⟩ := Option.bind_eq_some_iff.mp hroll
    obtain ⟨combined, -, hroll⟩ := Option.bind_eq_some_iff.mp hroll
    obtain rfl := Option.some.inj hroll
    rfl
  · rw [roll, if_neg hrolling] at hroll
    obtain rfl := Option.some.inj hroll
    have hshift : lc.shift robotX robotY = 0 := if_neg hrolling
    simp [hshift]

/-- What an update can do. -/
theorem updateMap_cases {plugins filters : List (Layer ℚ)}
    (hupdate : lc.updateMap plugins filters robotX robotY = some lc') :
    ∃ lc₁, lc.roll robotX robotY = some lc₁ ∧
      (plugins = [] ∧ filters = [] ∧ lc' = lc₁ ∨
        ∃ x0 y0 xn yn, window lc₁.combined (bounds (plugins ++ filters)) = some (x0, y0, xn, yn) ∧
          ((xn < x0 ∨ yn < y0) ∧ lc' = lc₁ ∨
            x0 ≤ xn ∧ y0 ≤ yn ∧ filters = [] ∧
              (∃ combined, recompute lc₁.combined plugins x0 y0 xn yn = some combined ∧
                lc' = { lc₁.updated x0 y0 xn yn with combined }) ∨
            x0 ≤ xn ∧ y0 ≤ yn ∧ filters ≠ [] ∧
              ∃ primary copied combined, recompute lc₁.primary plugins x0 y0 xn yn = some primary ∧
                lc₁.combined.copyWindow primary (unsigned x0) (unsigned y0) (unsigned xn)
                  (unsigned yn) (unsigned x0) (unsigned y0) = some (some copied) ∧
                filters.foldlM (fun map layer => layer.updateCosts map x0 y0 xn yn) copied =
                  some combined ∧
                lc' = { lc₁.updated x0 y0 xn yn with primary, combined })) := by
  unfold updateMap at hupdate
  obtain ⟨lc₁, hroll, hupdate⟩ := Option.bind_eq_some_iff.mp hupdate
  obtain ⟨_, -, hupdate⟩ := Option.bind_eq_some_iff.mp hupdate
  refine ⟨lc₁, hroll, ?_⟩
  by_cases hempty : (plugins.isEmpty && filters.isEmpty) = true
  · left
    rw [if_pos hempty] at hupdate
    simp only [Bool.and_eq_true, List.isEmpty_iff] at hempty
    exact ⟨hempty.1, hempty.2, (Option.some.inj hupdate).symm⟩
  · right
    rw [if_neg hempty] at hupdate
    obtain ⟨⟨x0, y0, xn, yn⟩, hwindow, hupdate⟩ := Option.bind_eq_some_iff.mp hupdate
    refine ⟨x0, y0, xn, yn, hwindow, ?_⟩
    by_cases hnone : xn < x0 ∨ yn < y0
    · simp only [if_pos hnone] at hupdate
      exact Or.inl ⟨hnone, (Option.some.inj hupdate).symm⟩
    simp only [if_neg hnone] at hupdate
    by_cases hfilters : filters.isEmpty = true
    · rw [if_pos hfilters] at hupdate
      obtain ⟨combined, hcombined, hupdate⟩ := Option.bind_eq_some_iff.mp hupdate
      exact Or.inr (Or.inl ⟨by omega, by omega, List.isEmpty_iff.mp hfilters, combined, hcombined,
        (Option.some.inj hupdate).symm⟩)
    · rw [if_neg hfilters] at hupdate
      obtain ⟨primary, hprimary, hupdate⟩ := Option.bind_eq_some_iff.mp hupdate
      obtain ⟨copied, hcopied, hupdate⟩ := Option.bind_eq_some_iff.mp hupdate
      obtain ⟨map, hmap, hupdate⟩ := Option.bind_eq_some_iff.mp hupdate
      obtain ⟨combined, hcombined, hupdate⟩ := Option.bind_eq_some_iff.mp hupdate
      exact Or.inr (Or.inr ⟨by omega, by omega, fun h => hfilters (List.isEmpty_iff.mpr h), primary,
        map, combined, hprimary, hmap ▸ hcopied, hcombined, (Option.some.inj hupdate).symm⟩)

theorem Aligned.repainted (ha : lc.Aligned w h) {primary combined : Costmap2D ℚ}
    {f g : ℤ × ℤ → UInt8} (hp : Repainted lc.primary primary f)
    (hc : Repainted lc.combined combined g) (x0 y0 xn yn : ℤ) :
    { lc.updated x0 y0 xn yn with primary, combined : LayeredCostmap ℚ }.Aligned w h := by
  obtain ⟨l, hl, rfl⟩ := hp.same
  obtain ⟨l', hl', rfl⟩ := hc.same
  exact ⟨ha.resolution_pos, ha.sizeX, ha.sizeY, ha.sizeX_eq, ha.sizeY_eq, ha.resolution_eq,
    ha.originX_eq, ha.originY_eq, ha.defaultValue_eq⟩

/-- Without layers the bounds are those of nothing. -/
theorem not_has_bounds_nil (p : ℚ × ℚ) : ¬ (bounds ([] : List (Layer ℚ))).Has p := by
  rintro ⟨hmin, hmax, -⟩
  have hpos : (0 : ℚ) < doubleMax := by exact_mod_cast (by decide +kernel : 0 < doubleMax)
  change (doubleMax : ℚ) ≤ p.1 at hmin
  change p.1 ≤ ((0 : ℤ) : ℚ) - doubleMax at hmax
  push_cast at hmax
  linarith

/-- The same, for the windows that come about: what is reported is in the window, or off the map if
nothing is written. -/
theorem updateMap_window {plugins filters : List (Layer ℚ)} (ha : lc.Aligned w h)
    (hupdate : lc.updateMap plugins filters robotX robotY = some lc') :
    ∃ lc₁, lc.roll robotX robotY = some lc₁ ∧ lc₁.Aligned w h ∧
      (lc' = lc₁ ∧ (∀ p, (bounds (plugins ++ filters)).Has p →
          ¬ lc₁.combined.Inside (lc₁.combined.place p)) ∨
        ∃ x0 y0 xn yn : ℕ, (x0 ≤ xn ∧ xn ≤ w ∧ y0 ≤ yn ∧ yn ≤ h) ∧
          (unsigned x0 = x0 ∧ unsigned y0 = y0 ∧ unsigned xn = xn ∧ unsigned yn = yn) ∧
          (∀ p, (bounds (plugins ++ filters)).Has p → lc₁.combined.Inside (lc₁.combined.place p) →
            InWindow x0 y0 xn yn (lc₁.combined.place p)) ∧
          (filters = [] ∧ (∃ combined, recompute lc₁.combined plugins x0 y0 xn yn = some combined ∧
              lc' = { lc₁.updated x0 y0 xn yn with combined }) ∨
            filters ≠ [] ∧ ∃ primary copied combined,
              recompute lc₁.primary plugins x0 y0 xn yn = some primary ∧
              lc₁.combined.copyWindow primary x0 y0 xn yn x0 y0 = some (some copied) ∧
              filters.foldlM (fun map layer => layer.updateCosts map x0 y0 xn yn) copied =
                some combined ∧
              lc' = { lc₁.updated x0 y0 xn yn with primary, combined })) := by
  obtain ⟨lc₁, hroll, hcases⟩ := updateMap_cases hupdate
  have ha₁ := (roll_spec ha hroll).1
  refine ⟨lc₁, hroll, ha₁, ?_⟩
  rcases hcases with ⟨rfl, rfl, rfl⟩ | ⟨x0, y0, xn, yn, hwindow, hcases⟩
  · exact Or.inl ⟨rfl, fun p hhas => absurd hhas (not_has_bounds_nil p)⟩
  obtain ⟨hx0, hxn, hy0, hyn, hin⟩ := window_spec ha₁.resolution_pos hwindow
  rcases hcases with ⟨hnone, rfl⟩ | hcases
  · refine Or.inl ⟨rfl, fun p hhas hinside => ?_⟩
    have hwin := hin p hhas hinside
    omega
  have hw := lc₁.combined.sizeX_lt
  have hh := lc₁.combined.sizeY_lt
  rw [ha₁.sizeX] at hxn hw
  rw [ha₁.sizeY] at hyn hh
  obtain ⟨hx, hy⟩ : x0 ≤ xn ∧ y0 ≤ yn := by
    rcases hcases with ⟨hx, hy, -⟩ | ⟨hx, hy, -⟩ <;> exact ⟨hx, hy⟩
  lift x0 to ℕ using hx0
  lift y0 to ℕ using hy0
  lift xn to ℕ using (by omega)
  lift yn to ℕ using (by omega)
  have hux0 := unsigned_of_lt (n := x0) (by omega)
  have huy0 := unsigned_of_lt (n := y0) (by omega)
  have huxn := unsigned_of_lt (n := xn) (by omega)
  have huyn := unsigned_of_lt (n := yn) (by omega)
  refine Or.inr ⟨x0, y0, xn, yn, by omega, ⟨hux0, huy0, huxn, huyn⟩, hin, ?_⟩
  rcases hcases with ⟨-, -, hfilters, hcombined⟩ |
    ⟨-, -, hfilters, primary, copied, combined, hprimary, hcopied, hcombined, hlast⟩
  · exact Or.inl ⟨hfilters, hcombined⟩
  · rw [hux0, huy0, huxn, huyn] at hcopied
    exact Or.inr ⟨hfilters, primary, copied, combined, hprimary, hcopied, hcombined, hlast⟩

end

end LayeredCostmap

/-! ## Runs of updates -/

/-- The input of one update: the layers as they are then, and the pose of the robot. -/
structure UpdateInput (w h : ℕ) where
  plugins : List (CellLayer w h)
  filters : List (CellLayer w h)
  robotX : ℚ
  robotY : ℚ

/-- Every cell has what the layers make of the default. -/
structure Current {w h : ℕ} (lc : LayeredCostmap ℚ) (plugins filters : List (CellLayer w h)) :
    Prop where
  combined : ∀ c, lc.combined.Inside c → lc.combined.cost c =
    layered filters c (layered plugins c lc.combined.defaultValue)
  primary : filters ≠ [] → ∀ c, lc.combined.Inside c →
    lc.primary.cost c = layered plugins c lc.combined.defaultValue

namespace UpdateInput
variable {w h : ℕ} (input : UpdateInput w h)

def layers : List (Layer ℚ) :=
  input.plugins.map (·.toLayer) ++ input.filters.map (·.toLayer)

/-- Nothing changes at the place of a cell: each layer paints as it did, or keeps the default where
the map had no place before. -/
def Keeps (lc : LayeredCostmap ℚ) (plugins filters : List (CellLayer w h)) (c : ℤ × ℤ) : Prop :=
  if lc.combined.Inside (c + lc.shift input.robotX input.robotY) then
    List.Forall₂ (fun old new => new.paint c = old.paint (c + lc.shift input.robotX input.robotY))
        plugins input.plugins ∧
      List.Forall₂ (fun old new => new.paint c = old.paint (c + lc.shift input.robotX input.robotY))
        filters input.filters
  else ∀ layer ∈ input.plugins ++ input.filters,
    layer.paint c lc.combined.defaultValue = lc.combined.defaultValue

/-- Every cell at which something changes has a point within the bounds that the layers report. -/
def Reported (lc : LayeredCostmap ℚ) (plugins filters : List (CellLayer w h)) : Prop :=
  ∀ lc₁, lc.roll input.robotX input.robotY = some lc₁ → ∀ c, lc₁.combined.Inside c →
    (∃ p, lc₁.combined.place p = c ∧ (LayeredCostmap.bounds input.layers).Has p) ∨
      input.Keeps lc plugins filters c

def update (lc : LayeredCostmap ℚ) : Option (LayeredCostmap ℚ) :=
  lc.updateMap (input.plugins.map (·.toLayer)) (input.filters.map (·.toLayer)) input.robotX
    input.robotY

variable {input} {lc lc₁ lc' : LayeredCostmap ℚ} {plugins filters : List (CellLayer w h)}

theorem layered_congr {old new : List (CellLayer w h)} {c d : ℤ × ℤ}
    (h : List.Forall₂ (fun l l' => l'.paint c = l.paint d) old new) (cost : UInt8) :
    layered new c cost = layered old d cost := by
  induction h generalizing cost with
  | nil => rfl
  | cons hl _ ih =>
    simp only [layered, List.foldl_cons, hl] at ih ⊢
    exact ih _

theorem layered_default {layers : List (CellLayer w h)} {c : ℤ × ℤ} {d : UInt8}
    (h : ∀ layer ∈ layers, layer.paint c d = d) : layered layers c d = d := by
  induction layers with
  | nil => rfl
  | cons layer layers ih =>
    obtain ⟨hl, hls⟩ := List.forall_mem_cons.mp h
    simp only [layered, List.foldl_cons, hl] at ih ⊢
    exact ih hls

/-- A cell at which nothing changes is current once the maps have moved. -/
theorem Keeps.current {c : ℤ × ℤ} (hkeeps : input.Keeps lc plugins filters c)
    (ha : lc.Aligned w h) (hcur : Current lc plugins filters)
    (hroll : lc.roll input.robotX input.robotY = some lc₁) (hc : lc₁.combined.Inside c) :
    lc₁.combined.cost c =
        layered input.filters c (layered input.plugins c lc₁.combined.defaultValue) ∧
      (input.filters ≠ [] →
        lc₁.primary.cost c = layered input.plugins c lc₁.combined.defaultValue) := by
  obtain ⟨-, hdefault, hcost⟩ := LayeredCostmap.roll_spec ha hroll
  obtain ⟨hcombined, hprimary⟩ := hcost c hc
  rw [hcombined, hprimary, hdefault]
  unfold Keeps at hkeeps
  split_ifs at hkeeps with hin
  · obtain ⟨hplugins, hfilters⟩ := hkeeps
    rw [layered_congr hplugins, layered_congr hfilters, hcur.combined _ hin]
    refine ⟨rfl, fun hne => hcur.primary ?_ _ hin⟩
    rintro rfl
    exact hne (List.forall₂_nil_left_iff.mp hfilters)
  · obtain ⟨hplugins, hfilters⟩ := List.forall_mem_append.mp hkeeps
    rw [layered_default hplugins, layered_default hfilters, cost_of_not_inside hin]
    refine ⟨rfl, fun _ => ?_⟩
    rw [cost_of_not_inside, ha.defaultValue_eq]
    simpa [Inside, ha.sizeX_eq, ha.sizeY_eq] using hin

/-- What an update does to the maps that have moved: nothing if no layer reports anything, and else
the window that is noted, which has every point reported, is painted. -/
theorem update_spec (ha : lc.Aligned w h) (hupdate : input.update lc = some lc') :
    ∃ lc₁, lc.roll input.robotX input.robotY = some lc₁ ∧ lc₁.Aligned w h ∧ lc'.Aligned w h ∧
      (lc' = lc₁ ∧ (∀ p, (LayeredCostmap.bounds input.layers).Has p →
          ¬ lc₁.combined.Inside (lc₁.combined.place p)) ∨
        ∃ x0 y0 xn yn : ℕ, (x0 ≤ xn ∧ xn ≤ w ∧ y0 ≤ yn ∧ yn ≤ h) ∧
          (lc'.bx0 = x0 ∧ lc'.by0 = y0 ∧ lc'.bxn = xn ∧ lc'.byn = yn ∧ lc'.initialized = true) ∧
          (∀ p, (LayeredCostmap.bounds input.layers).Has p →
            lc₁.combined.Inside (lc₁.combined.place p) →
            InWindow x0 y0 xn yn (lc₁.combined.place p)) ∧
          Repainted lc₁.combined lc'.combined (fun c => if InWindow x0 y0 xn yn c then
            layered input.filters c (layered input.plugins c lc₁.combined.defaultValue)
            else lc₁.combined.cost c) ∧
          (input.filters ≠ [] → Repainted lc₁.primary lc'.primary (fun c =>
            if InWindow x0 y0 xn yn c then layered input.plugins c lc₁.combined.defaultValue
            else lc₁.primary.cost c))) := by
  obtain ⟨lc₁, hroll, ha₁, hcases⟩ := LayeredCostmap.updateMap_window ha hupdate
  refine ⟨lc₁, hroll, ha₁, ?_⟩
  rcases hcases with ⟨rfl, hnone⟩ |
    ⟨x0, y0, xn, yn, ⟨hx, hxn, hy, hyn⟩, ⟨hux0, huy0, huxn, huyn⟩, hin, hcases⟩
  · exact ⟨ha₁, Or.inl ⟨rfl, hnone⟩⟩
  rcases hcases with ⟨hfilters, combined, hcombined, rfl⟩ |
    ⟨hfilters, primary, copied, combined, hprimary, hcopied, hcombined, rfl⟩
  · obtain ⟨m', hm', hpaint⟩ := @recompute_eq w h lc₁.combined input.plugins
      ha₁.sizeX ha₁.sizeY _ _ _ _ (Int.natCast_nonneg x0) (Int.ofNat_le.mpr hx)
      (Int.ofNat_le.mpr hxn) (Int.natCast_nonneg y0) (Int.ofNat_le.mpr hy) (Int.ofNat_le.mpr hyn)
    obtain rfl := Option.some.inj (hm'.symm.trans hcombined)
    have hnil : input.filters = [] := List.map_eq_nil_iff.mp hfilters
    refine ⟨ha₁.repainted (.refl lc₁.primary) hpaint _ _ _ _, Or.inr ⟨x0, y0, xn, yn,
      ⟨hx, hxn, hy, hyn⟩, ⟨hux0, huy0, huxn, huyn, rfl⟩, hin, ⟨hpaint.same, fun c hc => ?_⟩,
      fun hne => absurd hnil hne⟩⟩
    rw [hnil]
    exact hpaint.cost_eq c hc
  · obtain ⟨m₁, hm₁, hpaint₁⟩ := @recompute_eq w h lc₁.primary input.plugins
      (ha₁.sizeX_eq.trans ha₁.sizeX) (ha₁.sizeY_eq.trans ha₁.sizeY) _ _ _ _
      (Int.natCast_nonneg x0) (Int.ofNat_le.mpr hx) (Int.ofNat_le.mpr hxn) (Int.natCast_nonneg y0)
      (Int.ofNat_le.mpr hy) (Int.ofNat_le.mpr hyn)
    obtain rfl := Option.some.inj (hm₁.symm.trans hprimary)
    rw [ha₁.defaultValue_eq] at hpaint₁
    obtain ⟨m₂, hm₂, hpaint₂⟩ := @copyWindow_eq ℚ lc₁.combined m₁ _ _ _ _
      (hpaint₁.sizeX_eq.trans ha₁.sizeX_eq) (hpaint₁.sizeY_eq.trans ha₁.sizeY_eq) hx
      (ha₁.sizeX ▸ hxn) hy (ha₁.sizeY ▸ hyn)
    obtain rfl := Option.some.inj (Option.some.inj (hm₂.symm.trans hcopied))
    obtain ⟨m₃, hm₃, hpaint₃⟩ := @foldlM_updateCosts w h m₂ input.filters _ _ _ _
      (hpaint₂.sizeX_eq.trans ha₁.sizeX) (hpaint₂.sizeY_eq.trans ha₁.sizeY) hx hxn hy hyn
    obtain rfl := Option.some.inj (hm₃.symm.trans hcombined)
    have hpaint := hpaint₂.trans hpaint₃
    refine ⟨ha₁.repainted hpaint₁ hpaint _ _ _ _, Or.inr ⟨x0, y0, xn, yn,
      ⟨hx, hxn, hy, hyn⟩, ⟨hux0, huy0, huxn, huyn, rfl⟩, hin, ⟨hpaint.same, fun c hc => ?_⟩,
      fun _ => hpaint₁⟩⟩
    have hc' : lc₁.primary.Inside c := by simpa [Inside, ha₁.sizeX_eq, ha₁.sizeY_eq] using hc
    rw [hpaint.cost_eq c hc, hpaint₂.cost_eq c hc, hpaint₁.cost_eq c hc']
    by_cases hwin : InWindow x0 y0 xn yn c
    · simp only [if_pos hwin]
      exact congrArg (layered input.filters c) (if_pos hwin)
    · simp only [if_neg hwin]

/-- One update keeps the master map current. -/
theorem update_current (ha : lc.Aligned w h) (hcur : Current lc plugins filters)
    (hrep : input.Reported lc plugins filters) (hupdate : input.update lc = some lc') :
    lc'.Aligned w h ∧ Current lc' input.plugins input.filters := by
  obtain ⟨lc₁, hroll, ha₁, ha', hcases⟩ := update_spec ha hupdate
  have hkept : ∀ c, lc₁.combined.Inside c →
      (∀ p, lc₁.combined.place p = c → ¬ (LayeredCostmap.bounds input.layers).Has p) →
      lc₁.combined.cost c =
          layered input.filters c (layered input.plugins c lc₁.combined.defaultValue) ∧
        (input.filters ≠ [] →
          lc₁.primary.cost c = layered input.plugins c lc₁.combined.defaultValue) := by
    intro c hc hout
    rcases hrep lc₁ hroll c hc with ⟨p, hp, hhas⟩ | hkeeps
    · exact absurd hhas (hout p hp)
    · exact hkeeps.current ha hcur hroll hc
  refine ⟨ha', ?_⟩
  rcases hcases with ⟨rfl, hnone⟩ | ⟨x0, y0, xn, yn, -, -, hin, hpaint, hprimary⟩
  · have hall : ∀ c, lc'.combined.Inside c → _ := fun c hc =>
      hkept c hc fun p hp hhas => hnone p hhas (hp ▸ hc)
    exact ⟨fun c hc => (hall c hc).1, fun hne c hc => (hall c hc).2 hne⟩
  · have hout : ∀ c, lc₁.combined.Inside c → ¬ InWindow x0 y0 xn yn c →
        ∀ p, lc₁.combined.place p = c → ¬ (LayeredCostmap.bounds input.layers).Has p := by
      rintro c hc hwin p rfl hhas
      exact hwin (hin p hhas hc)
    refine ⟨fun c hc => ?_, fun hne c hc => ?_⟩
    · have hc₁ := hpaint.inside_iff.mp hc
      rw [hpaint.cost_eq c hc₁, hpaint.defaultValue_eq]
      split_ifs with hwin
      · rfl
      · exact (hkept c hc₁ (hout c hc₁ hwin)).1
    · have hc₁ := hpaint.inside_iff.mp hc
      have hc' : lc₁.primary.Inside c := by simpa [Inside, ha₁.sizeX_eq, ha₁.sizeY_eq] using hc₁
      rw [(hprimary hne).cost_eq c hc', hpaint.defaultValue_eq]
      split_ifs with hwin
      · rfl
      · exact (hkept c hc₁ (hout c hc₁ hwin)).2 hne

def run (inputs : List (UpdateInput w h)) (lc : LayeredCostmap ℚ) : Option (LayeredCostmap ℚ) :=
  inputs.foldlM (fun lc input => input.update lc) lc

/-- Along a run every layer reports what it changes. -/
def AllReported : List (UpdateInput w h) → LayeredCostmap ℚ → List (CellLayer w h) →
    List (CellLayer w h) → Prop
  | [], _, _, _ => True
  | input :: inputs, lc, plugins, filters => input.Reported lc plugins filters ∧
    ∀ lc', input.update lc = some lc' → AllReported inputs lc' input.plugins input.filters

end UpdateInput

/-- Two cells of a metre. -/
def twoCells (costs : List UInt8) (hlen : costs.length = 2) : Costmap2D ℚ where
  sizeX := 2
  sizeY := 1
  resolution := 1
  originX := 0
  originY := 0
  costmap := costs
  defaultValue := freeSpace
  length_costmap := hlen
  sizeX_lt := by decide
  sizeY_lt := by decide
  cells_lt := by decide

def freshCells : LayeredCostmap ℚ where
  primary := twoCells [0, 0] rfl
  combined := twoCells [0, 0] rfl
  rollingWindow := false
  bx0 := 0
  by0 := 0
  bxn := 0
  byn := 0
  initialized := false

/-- A layer that knows of nothing. -/
def blankLayer : CellLayer 2 1 :=
  CostmapLayer.cellLayer ⟨twoCells [noInformation, noInformation] rfl, true⟩ maxCost
    (Bounds.touch 0 0)

/-- The layer once it has seen an obstacle in the second cell, which it reports. -/
def markedLayer : CellLayer 2 1 :=
  CostmapLayer.cellLayer ⟨twoCells [noInformation, lethalObstacle] rfl, true⟩ maxCost
    (Bounds.touch (3 / 2) (1 / 2))

/-- The first update: the robot has just seen the obstacle. -/
def markedInput : UpdateInput 2 1 := ⟨[markedLayer], [], 0, 0⟩

end TitanRobot.Costmap

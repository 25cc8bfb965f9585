import TitanRobot.Costmap.Publisher

/-!
# The static layer

`StaticLayer` keeps the map that it is sent. The first map is loaded at once, a later one waits for
the next `updateBounds`; an update is written into the map that is loaded. So an update that
arrives while a newer map waits is lost, and nothing else is.
-/
namespace TitanRobot.Costmap
open Floating Arithmetic Grid Costmap2D
open Metrics (OccupancyGrid MapMetaData)

/-- The parameters that say what a value of the map costs. -/
structure StaticParameters where
  trackUnknownSpace : Bool
  lethalThreshold : UInt8
  unknownCostValue : UInt8
  trinaryCostmap : Bool

def StaticParameters.interpretValue (p : StaticParameters) (value : UInt8) : UInt8 :=
  if p.trackUnknownSpace && value == p.unknownCostValue then noInformation
  else if !p.trackUnknownSpace && value == p.unknownCostValue then freeSpace
  else if p.lethalThreshold ≤ value then lethalObstacle
  else if p.trinaryCostmap then freeSpace
  -- the threshold is positive here; the scaled value is cut to an integer
  else UInt8.ofNat (value.toNat * lethalObstacle.toNat / p.lethalThreshold.toNat)

structure StaticLayer extends CostmapLayer ℚ where
  parameters : StaticParameters
  useMaximum : Bool
  mapFrame : String
  x : ℕ
  y : ℕ
  width : ℕ
  height : ℕ
  hasUpdatedData : Bool
  mapReceived : Bool
  mapReceivedInUpdateBounds : Bool
  mapBuffer : Option (String × OccupancyGrid ℚ)
  /-- `has_extra_bounds_` -/
  extraBounds : Option (Bounds ℚ)

/-- The layer in its layered costmap, of which it resizes the maps. -/
structure StaticNode where
  layer : StaticLayer
  lc : LayeredCostmap ℚ
  sizeLocked : Bool

/-- The map has the size, the resolution and the origin of the message. -/
def Costmap2D.Like (m : Costmap2D ℚ) (info : MapMetaData ℚ) : Prop :=
  m.sizeX = info.width.toNat ∧ m.sizeY = info.height.toNat ∧ m.resolution = info.resolution ∧
    m.originX = info.origin.x ∧ m.originY = info.origin.y

instance (m : Costmap2D ℚ) (info : MapMetaData ℚ) : Decidable (m.Like info) :=
  inferInstanceAs (Decidable (_ ∧ _))

/-- A map too large for the numbers of its cells is not followed. -/
def Costmap2D.resizeMap {α : Type} (m : Costmap2D α) (sizeX sizeY : ℕ)
    (resolution originX originY : α) : Option (Costmap2D α) :=
  if h : sizeX < 2 ^ 31 ∧ sizeY < 2 ^ 31 ∧ sizeX * sizeY + sizeX < 2 ^ 32 then
    some
      { sizeX, sizeY, resolution, originX, originY
        costmap := List.replicate (sizeX * sizeY) m.defaultValue
        defaultValue := m.defaultValue
        length_costmap := List.length_replicate
        sizeX_lt := h.1
        sizeY_lt := h.2.1
        cells_lt := h.2.2 }
  else none

def LayeredCostmap.resizeMap {α : Type} (lc : LayeredCostmap α) (sizeX sizeY : ℕ)
    (resolution originX originY : α) : Option (LayeredCostmap α) := do
  let primary ← lc.primary.resizeMap sizeX sizeY resolution originX originY
  let combined ← lc.combined.resizeMap sizeX sizeY resolution originX originY
  return { lc with primary, combined }

/-- Of the header, the frame is checked; exact numbers are neither infinite nor NaN. The product of
the sizes is an `unsigned int`. -/
def validateMsg (frameId : String) (msg : OccupancyGrid ℚ) : Bool :=
  frameId != "" && msg.info.height != 0 && msg.info.width != 0 &&
    msg.data.length == (msg.info.width * msg.info.height).toNat

namespace StaticLayer
variable (layer : StaticLayer)

/-- A map that does not roll has the size of the master. -/
def matchSize (lc : LayeredCostmap ℚ) : Option StaticLayer :=
  if !lc.rollingWindow then do
    let map ← layer.toCostmap2D.resizeMap lc.combined.sizeX lc.combined.sizeY
      lc.combined.resolution lc.combined.originX lc.combined.originY
    return { layer with toCostmap2D := map }
  else some layer

/-- The conditions under which `incomingUpdate` does not ignore an update. -/
def accepts (u : OccupancyGridUpdate) : Bool :=
  !(u.y.toInt < layer.y || (layer.y + layer.height) % 2 ^ 32 < unsigned (u.y.toInt + u.height.toNat)
    || u.x.toInt < layer.x
    || (layer.x + layer.width) % 2 ^ 32 < unsigned (u.x.toInt + u.width.toNat))
    && u.frameId == layer.mapFrame

def incomingUpdate (u : OccupancyGridUpdate) : Option StaticLayer :=
  if layer.accepts u then do
    let map ← (fill (fun i j => (u.data[(i * u.width.toNat + j) % 2 ^ 32]?).map fun value =>
        layer.parameters.interpretValue value.toUInt8)
      (fun i j => unsigned ((u.y.toInt + i) * layer.sizeX + j + u.x.toInt)) u.width.toNat
      u.height.toNat layer.costmap).pmap layer.withCostmap fun _ => length_fill
    return { layer with toCostmap2D := map, hasUpdatedData := true }
  else some layer

def useExtraBounds (b : Bounds ℚ) : Bounds ℚ :=
  layer.extraBounds.elim b fun extra =>
    { minX := min extra.minX b.minX
      minY := min extra.minY b.minY
      maxX := max extra.maxX b.maxX
      maxY := max extra.maxY b.maxY }

/-- In a costmap that does not roll. -/
def updateCosts (master : Costmap2D ℚ) (minI minJ maxI maxJ : ℤ) : Option (Costmap2D ℚ) :=
  if !layer.enabled then some master
  else if !layer.mapReceivedInUpdateBounds then some master
  else if !layer.useMaximum then layer.updateWithTrueOverwrite master minI minJ maxI maxJ
  else layer.updateWithMax master minI minJ maxI maxJ

end StaticLayer

namespace StaticNode
variable (s : StaticNode)

/-- The maps take the size of the message. -/
def resized (info : MapMetaData ℚ) : Option StaticNode :=
  if s.lc.rollingWindow = false ∧ ¬ (s.lc.combined.Like info ∧ s.sizeLocked) then do
    let lc ← s.lc.resizeMap info.width.toNat info.height.toNat info.resolution info.origin.x
      info.origin.y
    let layer ← s.layer.matchSize lc
    return { layer, lc, sizeLocked := true }
  else if ¬ s.layer.Like info then do
    let map ← s.layer.resizeMap info.width.toNat info.height.toNat info.resolution info.origin.x
      info.origin.y
    return { s with layer := { s.layer with toCostmap2D := map } }
  else some s

def processMap (frameId : String) (newMap : OccupancyGrid ℚ) : Option StaticNode := do
  let s ← s.resized newMap.info
  let w := newMap.info.width.toNat
  let map ← (fill (fun i j => (newMap.data[i * w + j]?).map fun value =>
      s.layer.parameters.interpretValue value.toUInt8) (fun i j => i * w + j) w
    newMap.info.height.toNat s.layer.costmap).pmap s.layer.withCostmap fun _ => length_fill
  return { s with layer := { s.layer with
    toCostmap2D := map
    mapFrame := frameId
    x := 0
    y := 0
    width := map.sizeX
    height := map.sizeY
    hasUpdatedData := true } }

def incomingMap (frameId : String) (newMap : OccupancyGrid ℚ) : Option StaticNode :=
  if !validateMsg frameId newMap then some s
  else if !s.layer.mapReceived then do
    let s ← s.processMap frameId newMap
    return { s with layer := { s.layer with mapReceived := true } }
  else some { s with layer := { s.layer with mapBuffer := some (frameId, newMap) } }

/-- Without a footprint to clear. -/
def updateBounds (b : Bounds ℚ) : Option (StaticNode × Bounds ℚ) :=
  if !s.layer.mapReceived then
    some ({ s with layer := { s.layer with mapReceivedInUpdateBounds := false } }, b)
  else do
    let s : StaticNode :=
      { s with layer := { s.layer with mapReceivedInUpdateBounds := true } }
    let s ← s.layer.mapBuffer.elim (some s) fun newMap => do
      let s ← s.processMap newMap.1 newMap.2
      return { s with layer := { s.layer with mapBuffer := none } }
    if !s.lc.rollingWindow && !(s.layer.hasUpdatedData || s.layer.extraBounds.isSome) then
      return (s, b)
    let b := s.layer.useExtraBounds b
    let low := s.layer.mapToWorld s.layer.x s.layer.y
    let high := s.layer.mapToWorld (s.layer.x + s.layer.width) (s.layer.y + s.layer.height)
    return ({ s with layer := { s.layer with hasUpdatedData := false, extraBounds := none } },
      { minX := min low.1 b.minX
        minY := min low.2 b.minY
        maxX := max high.1 b.maxX
        maxY := max high.2 b.maxY })

end StaticNode

/-! ## Updates -/

namespace StaticLayer
variable {layer : StaticLayer} {u : OccupancyGridUpdate}

/-- The members that `processMap` sets from the map. -/
structure Loaded (layer : StaticLayer) : Prop where
  x : layer.x = 0
  y : layer.y = 0
  width : layer.width = layer.sizeX
  height : layer.height = layer.sizeY

theorem accepts_iff (h : layer.Loaded) : layer.accepts u = true ↔
    0 ≤ u.y.toInt ∧ unsigned (u.y.toInt + u.height.toNat) ≤ layer.sizeY ∧ 0 ≤ u.x.toInt ∧
      unsigned (u.x.toInt + u.width.toNat) ≤ layer.sizeX ∧ u.frameId = layer.mapFrame := by
  have hw := layer.sizeX_lt
  have hh := layer.sizeY_lt
  simp only [accepts, h.x, h.y, h.width, h.height, Nat.zero_add, Nat.cast_zero, Bool.and_eq_true,
    Bool.not_eq_true', Bool.or_eq_false_iff, decide_eq_false_iff_not, not_lt, beq_iff_eq, and_assoc]
  rw [Nat.mod_eq_of_lt (by omega), Nat.mod_eq_of_lt (by omega)]

/-- What the loops of `incomingUpdate` read and write is there. -/
theorem update_cells_iff {x y w h sizeX sizeY len : ℕ} (hcells : sizeX * sizeY < 2 ^ 31)
    (hw : 0 < w) (hh : 0 < h) (hwlt : w < 2 ^ 32) (hhlt : h < 2 ^ 32) (hx : x < 2 ^ 31)
    (hy : y < 2 ^ 31) (hxw : unsigned ((x : ℤ) + w) ≤ sizeX) (hyh : unsigned ((y : ℤ) + h) ≤ sizeY) :
    (∀ i < h, ∀ j < w, (i * w + j) % 2 ^ 32 < len ∧
        unsigned (((y : ℤ) + i) * sizeX + j + x) < sizeX * sizeY) ↔
      x + w < 2 ^ 32 ∧ y + h < 2 ^ 32 ∧ w * h ≤ len := by
  unfold unsigned at *
  constructor
  · intro hall
    -- the cell after the last one of the map, counted from the first of the update
    have hfirst := (hall 0 hh 0 hw).2
    have hcolumn := fun hlt => (hall 0 hh (sizeX * sizeY) hlt).2
    have hrow := fun hlt => (hall sizeY hlt 0 hw).2
    have hpos : 0 < sizeX := Nat.pos_of_mul_pos_right (Nat.zero_lt_of_lt hfirst)
    have hle : sizeY ≤ sizeX * sizeY := Nat.le_mul_of_pos_left sizeY hpos
    push_cast at hfirst hcolumn hrow
    rw [add_mul, mul_comm (sizeY : ℤ)] at hrow
    rw [add_zero] at hcolumn
    rw [add_zero, add_zero] at hfirst
    have hcast : ((sizeX * sizeY : ℕ) : ℤ) = sizeX * sizeY := by push_cast; rfl
    have hxw' : x + w < 2 ^ 32 := by
      by_contra hge
      have hbad := hcolumn (by omega)
      generalize sizeX * sizeY = cells at *
      generalize (sizeX : ℤ) * sizeY = cells' at *
      omega
    have hyh' : y + h < 2 ^ 32 := by
      by_contra hge
      have hbad := hrow (by omega)
      generalize sizeX * sizeY = cells at *
      generalize (sizeX : ℤ) * sizeY = cells' at *
      omega
    refine ⟨hxw', hyh', ?_⟩
    have hlast := (hall (h - 1) (by omega) (w - 1) (by omega)).1
    have harea : w * h ≤ sizeX * sizeY := Nat.mul_le_mul (by omega) (by omega)
    have hnumber : (h - 1) * w + (w - 1) + 1 = w * h := by
      obtain ⟨k, rfl⟩ := Nat.exists_eq_succ_of_ne_zero hh.ne'
      rw [Nat.succ_sub_one, mul_comm w, Nat.succ_mul]
      omega
    omega
  · rintro ⟨hx', hy', hlen⟩ i hi j hj
    have hdata := number_lt hj hi
    have hcell := number_lt (w := sizeX) (h := sizeY) (x := x + j) (y := y + i) (by omega) (by omega)
    have hcast : ((y : ℤ) + i) * sizeX + j + x = (((y + i) * sizeX + (x + j) : ℕ) : ℤ) := by
      push_cast
      ring
    refine ⟨(Nat.mod_le _ _).trans_lt (hdata.trans_le hlen), ?_⟩
    rw [hcast]
    omega

/-- An update that is not ignored leaves its own memory or that of the map exactly if it has too
little data for its size, or if its far corner is beyond the range of `unsigned int`. -/
theorem incomingUpdate_isSome_iff (hloaded : layer.Loaded)
    (hcells : layer.sizeX * layer.sizeY < 2 ^ 31) :
    (layer.incomingUpdate u).isSome ↔ (layer.accepts u = true →
      u.width.toNat = 0 ∨ u.height.toNat = 0 ∨ u.x.toInt + u.width.toNat < 2 ^ 32 ∧
        u.y.toInt + u.height.toNat < 2 ^ 32 ∧ u.width.toNat * u.height.toNat ≤ u.data.length) := by
  unfold incomingUpdate
  by_cases hacc : layer.accepts u = true
  · rw [if_pos hacc]
    obtain ⟨hy, hyh, hx, hxw, -⟩ := (accepts_iff hloaded).mp hacc
    obtain ⟨x, hx⟩ := Int.eq_ofNat_of_zero_le hx
    obtain ⟨y, hy⟩ := Int.eq_ofNat_of_zero_le hy
    have hxlt := Int32.toInt_lt u.x
    have hylt := Int32.toInt_lt u.y
    have hwlt := UInt32.toNat_lt u.width
    have hhlt := UInt32.toNat_lt u.height
    rw [hx] at hxw hxlt
    rw [hy] at hyh hylt
    have hfill : (fill (fun i j => (u.data[(i * u.width.toNat + j) % 2 ^ 32]?).map fun value =>
          layer.parameters.interpretValue value.toUInt8)
        (fun i j => unsigned ((u.y.toInt + i) * layer.sizeX + j + u.x.toInt)) u.width.toNat
        u.height.toNat layer.costmap).isSome ↔
          ∀ i < u.height.toNat, ∀ j < u.width.toNat,
            (i * u.width.toNat + j) % 2 ^ 32 < u.data.length ∧
              unsigned (((y : ℤ) + i) * layer.sizeX + j + x) < layer.sizeX * layer.sizeY := by
      have hread : ∀ n, (u.data[n]?).isSome ↔ n < u.data.length := fun n => by simp
      simp only [fill_isSome_iff, hx, hy, layer.length_costmap, Option.isSome_map, hread]
    simp only [Option.bind_eq_bind, Option.isSome_bind, Option.pure_def, Option.isSome_some,
      Option.any_true, Option.isSome_pmap]
    rw [hfill, hx, hy, forall_prop_of_true hacc]
    rcases Nat.eq_zero_or_pos u.width.toNat with hw | hw
    · exact iff_of_true (fun i _ j hj => by omega) (Or.inl hw)
    · rcases Nat.eq_zero_or_pos u.height.toNat with hh | hh
      · exact iff_of_true (fun i hi => by omega) (Or.inr (Or.inl hh))
      · rw [update_cells_iff hcells hw hh hwlt hhlt (by omega) (by omega) hxw hyh]
        omega
  · simp [hacc]

/-- The layer has the map of a message, interpreted. -/
structure Holds (layer : StaticLayer) (m : String × OccupancyGrid ℚ) : Prop extends Loaded layer where
  frame : layer.mapFrame = m.1
  like : layer.Like m.2.info
  costmap : layer.costmap = m.2.data.map fun v => layer.parameters.interpretValue v.toUInt8

end StaticLayer

/-- The update is for the map of a message, and its rectangle is on it. -/
def OccupancyGridUpdate.Fits (u : OccupancyGridUpdate) (m : String × OccupancyGrid ℚ) : Prop :=
  u.frameId = m.1 ∧ 0 ≤ u.x.toInt ∧ u.x.toInt + u.width.toNat ≤ m.2.info.width.toNat ∧
    0 ≤ u.y.toInt ∧ u.y.toInt + u.height.toNat ≤ m.2.info.height.toNat

instance (u : OccupancyGridUpdate) (m : String × OccupancyGrid ℚ) : Decidable (u.Fits m) :=
  inferInstanceAs (Decidable (_ ∧ _))

/-- What a message with an update makes of a map. -/
def OccupancyGridUpdate.onto (u : OccupancyGridUpdate) (m : String × OccupancyGrid ℚ) :
    String × OccupancyGrid ℚ :=
  if u.Fits m then (m.1, u.apply m.2) else m

theorem put_empty {u : OccupancyGridUpdate} (h : u.width.toNat = 0 ∨ u.height.toNat = 0) (w : ℕ)
    (data : List Int8) : put u w data = data := by
  apply List.ext_getElem?
  intro k
  have hrect : ¬ Rect w u.x.toInt.toNat u.y.toInt.toNat u.width.toNat u.height.toNat k := by
    unfold Rect Span
    omega
  simp only [put, List.getElem?_mapIdx, if_neg hrect, Option.map_id_fun', id]

theorem OccupancyGridUpdate.onto_fst (u : OccupancyGridUpdate) (m : String × OccupancyGrid ℚ) :
    (u.onto m).1 = m.1 := by
  unfold onto
  split_ifs <;> rfl

theorem OccupancyGridUpdate.onto_info (u : OccupancyGridUpdate) (m : String × OccupancyGrid ℚ) :
    (u.onto m).2.info = m.2.info := by
  unfold onto
  split_ifs <;> rfl

theorem OccupancyGridUpdate.onto_empty {u : OccupancyGridUpdate}
    (h : u.width.toNat = 0 ∨ u.height.toNat = 0) (m : String × OccupancyGrid ℚ) : u.onto m = m := by
  unfold onto
  split_ifs
  · rw [apply, put_empty h]
  · rfl

namespace StaticLayer
variable {layer layer' : StaticLayer} {u : OccupancyGridUpdate} {m : String × OccupancyGrid ℚ}

/-- The cells of the rectangle, read from the message and interpreted. -/
theorem fill_update {f : Int8 → UInt8} {data : List Int8} {x y w h sizeX sizeY : ℕ}
    (hu : u.Covers x y w h) (hlength : data.length = sizeX * sizeY)
    (hcells : sizeX * sizeY < 2 ^ 32) (hx : x + w ≤ sizeX) (hy : y + h ≤ sizeY)
    (hdata : w * h ≤ u.data.length) :
    fill (fun i j => (u.data[(i * w + j) % 2 ^ 32]?).map f)
        (fun i j => unsigned (((y : ℤ) + i) * sizeX + j + x)) w h (data.map f) =
      some ((put u sizeX data).map f) := by
  have harea : w * h ≤ sizeX * sizeY := Nat.mul_le_mul (by omega) (by omega)
  have hrows : (y + h) * sizeX ≤ data.length := by
    rw [hlength, mul_comm]
    exact Nat.mul_le_mul_left _ hy
  rw [fill_eq (x := x) (y := y) (w := sizeX)
    (v := fun i j => f ((u.data[i * w + j]?).getD 0)) hx (by simpa using hrows), put_eq hu]
  · congr 1
    apply List.ext_getElem?
    intro k
    simp only [List.getElem?_mapIdx, List.getElem?_map]
    rcases lt_or_ge k data.length with hk | hk
    · rw [List.getElem?_eq_getElem hk]
      simp only [Option.map_some]
      split_ifs with hrect
      · obtain ⟨⟨hlo, hhi⟩, hlo', hhi'⟩ := hrect
        have hread := number_lt (w := w) (h := h) (x := k % sizeX - x) (y := k / sizeX - y)
          (by omega) (by omega)
        rw [List.getElem?_eq_getElem (by omega)]
        rfl
      · rfl
    · rw [List.getElem?_eq_none hk]
      rfl
  · intro i hi j hj
    have hread := number_lt hj hi
    rw [Nat.mod_eq_of_lt (by omega), List.getElem?_eq_getElem (by omega)]
    rfl
  · intro i hi j hj
    have hcell := number_lt (w := sizeX) (h := sizeY) (x := x + j) (y := y + i) (by omega) (by omega)
    rw [show ((y : ℤ) + i) * sizeX + j + x = (((y + i) * sizeX + x + j : ℕ) : ℤ) by
      push_cast
      ring]
    exact unsigned_of_lt (by omega)

/-- An update on the map is accepted, and one that is accepted is on the map, unless its far corner
is beyond the range of `unsigned int`. -/
theorem Holds.accepts_iff (h : layer.Holds m) (hx : u.x.toInt + u.width.toNat < 2 ^ 32)
    (hy : u.y.toInt + u.height.toNat < 2 ^ 32) : layer.accepts u = true ↔ u.Fits m := by
  obtain ⟨hsx, hsy, -⟩ := h.like
  rw [StaticLayer.accepts_iff h.toLoaded, OccupancyGridUpdate.Fits, h.frame, ← hsx, ← hsy]
  unfold unsigned
  constructor
  · rintro ⟨hy0, hyh, hx0, hxw, hframe⟩
    exact ⟨hframe, hx0, by omega, hy0, by omega⟩
  · rintro ⟨hframe, hx0, hxw, hy0, hyh⟩
    exact ⟨hy0, by omega, hx0, by omega, hframe⟩

theorem Holds.fits_lt (h : layer.Holds m) (hfits : u.Fits m) :
    u.x.toInt + u.width.toNat < 2 ^ 32 ∧ u.y.toInt + u.height.toNat < 2 ^ 32 := by
  have hw := layer.sizeX_lt
  have hh := layer.sizeY_lt
  obtain ⟨hsx, hsy, -⟩ := h.like
  obtain ⟨-, -, hxw, -, hyh⟩ := hfits
  omega

/-- What an update changes. -/
theorem incomingUpdate_same (hupdate : layer.incomingUpdate u = some layer') :
    layer' = { layer with
      toCostmap2D := layer'.toCostmap2D
      hasUpdatedData := layer'.hasUpdatedData } := by
  unfold incomingUpdate at hupdate
  split_ifs at hupdate
  · obtain ⟨map, -, hlast⟩ := Option.bind_eq_some_iff.mp hupdate
    obtain rfl := Option.some.inj hlast
    rfl
  · obtain rfl := Option.some.inj hupdate
    rfl

theorem incomingUpdate_unchanged (hupdate : layer.incomingUpdate u = some layer')
    (hfalse : layer'.hasUpdatedData = false) : layer' = layer := by
  unfold incomingUpdate at hupdate
  split_ifs at hupdate
  · obtain ⟨map, -, hlast⟩ := Option.bind_eq_some_iff.mp hupdate
    obtain rfl := Option.some.inj hlast
    exact absurd hfalse (by simp)
  · exact (Option.some.inj hupdate).symm

/-- An update is put into the map that the layer has. -/
theorem Holds.incomingUpdate (h : layer.Holds m)
    (hcells : m.2.info.width.toNat * m.2.info.height.toNat < 2 ^ 31)
    (hupdate : layer.incomingUpdate u = some layer') : layer'.Holds (u.onto m) := by
  obtain ⟨hsx, hsy, hinfo⟩ := h.like
  rw [← hsx, ← hsy] at hcells
  have hsafe := (incomingUpdate_isSome_iff h.toLoaded hcells).mp (Option.isSome_of_eq_some hupdate)
  unfold StaticLayer.incomingUpdate at hupdate
  by_cases hacc : layer.accepts u = true
  · rw [if_pos hacc] at hupdate
    obtain ⟨map, hmap, hlast⟩ := Option.bind_eq_some_iff.mp hupdate
    obtain ⟨l, hl, hfill, rfl⟩ := Option.pmap_eq_some_iff.mp hmap
    obtain rfl := Option.some.inj hlast
    refine ⟨⟨h.x, h.y, h.width, h.height⟩, h.frame.trans (u.onto_fst m).symm, ?_, ?_⟩
    · rw [u.onto_info]
      exact h.like
    · change l = (u.onto m).2.data.map fun v => layer.parameters.interpretValue v.toUInt8
      rw [h.costmap] at hfill
      rcases or_assoc.mpr (hsafe hacc) with hempty | ⟨hxlt, hylt, hdata⟩
      · rw [fill_empty hempty] at hfill
        rw [OccupancyGridUpdate.onto_empty hempty, Option.some.inj hfill]
      · have hfits := (h.accepts_iff hxlt hylt).mp hacc
        obtain ⟨-, hx0, hxw, hy0, hyh⟩ := id hfits
        obtain ⟨x, hx⟩ := Int.eq_ofNat_of_zero_le hx0
        obtain ⟨y, hy⟩ := Int.eq_ofNat_of_zero_le hy0
        have hlength : m.2.data.length = layer.sizeX * layer.sizeY := by
          rw [← layer.length_costmap, h.costmap, List.length_map]
        have hput := fill_update (f := fun v => layer.parameters.interpretValue v.toUInt8)
          ⟨hx, hy, rfl, rfl⟩ hlength (by omega) (by omega) (by omega) hdata
        rw [hx, hy, hput] at hfill
        rw [OccupancyGridUpdate.onto, if_pos hfits, ← Option.some.inj hfill]
        simp only [OccupancyGridUpdate.apply, hsx]
  · rw [if_neg hacc] at hupdate
    obtain rfl := Option.some.inj hupdate
    have hfits : ¬ u.Fits m := fun hfits =>
      hacc ((h.accepts_iff (h.fits_lt hfits).1 (h.fits_lt hfits).2).mpr hfits)
    rw [OccupancyGridUpdate.onto, if_neg hfits]
    exact h

end StaticLayer

/-! ## Maps -/

theorem resizeMap_like {m m' : Costmap2D ℚ} {info : MapMetaData ℚ}
    (h : m.resizeMap info.width.toNat info.height.toNat info.resolution info.origin.x
      info.origin.y = some m') : m'.Like info := by
  unfold Costmap2D.resizeMap at h
  split_ifs at h
  obtain rfl := Option.some.inj h
  exact ⟨rfl, rfl, rfl, rfl, rfl⟩

namespace StaticNode
variable {s s' : StaticNode} {frameId : String} {newMap : OccupancyGrid ℚ}

/-- The maps of a layered costmap that does not roll are those of the message, once and for all. -/
def Locked (s : StaticNode) (info : MapMetaData ℚ) : Prop :=
  s.lc.rollingWindow = false → s.lc.combined.Like info ∧ s.sizeLocked = true

theorem resized_spec {info : MapMetaData ℚ} (h : s.resized info = some s') :
    s'.layer = { s.layer with toCostmap2D := s'.layer.toCostmap2D } ∧ s'.layer.Like info ∧
      s'.lc.rollingWindow = s.lc.rollingWindow ∧ s'.Locked info := by
  unfold resized at h
  by_cases hlayered : s.lc.rollingWindow = false ∧ ¬ (s.lc.combined.Like info ∧ s.sizeLocked)
  · rw [if_pos hlayered] at h
    obtain ⟨lc, hlc, h⟩ := Option.bind_eq_some_iff.mp h
    obtain ⟨layer, hlayer, h⟩ := Option.bind_eq_some_iff.mp h
    obtain rfl := Option.some.inj h
    obtain ⟨primary, -, hlc⟩ := Option.bind_eq_some_iff.mp hlc
    obtain ⟨combined, hcombined, hlc⟩ := Option.bind_eq_some_iff.mp hlc
    obtain rfl := Option.some.inj hlc
    have hlike := resizeMap_like hcombined
    obtain ⟨hw, hh, hres, hx, hy⟩ := hlike
    rw [StaticLayer.matchSize, if_pos (by simp [hlayered.1]), hw, hh, hres, hx, hy] at hlayer
    obtain ⟨map, hmap, hlayer⟩ := Option.bind_eq_some_iff.mp hlayer
    obtain rfl := Option.some.inj hlayer
    exact ⟨rfl, resizeMap_like hmap, rfl, fun _ => ⟨⟨hw, hh, hres, hx, hy⟩, rfl⟩⟩
  · rw [if_neg hlayered] at h
    have hlocked : s.Locked info := fun hstatic => by
      by_contra hnot
      exact hlayered ⟨hstatic, hnot⟩
    by_cases hlike : s.layer.Like info
    · rw [if_neg (not_not.mpr hlike)] at h
      obtain rfl := Option.some.inj h
      exact ⟨rfl, hlike, rfl, hlocked⟩
    · rw [if_pos hlike] at h
      obtain ⟨map, hmap, h⟩ := Option.bind_eq_some_iff.mp h
      obtain rfl := Option.some.inj h
      exact ⟨rfl, resizeMap_like hmap, rfl, hlocked⟩

theorem processMap_spec (hvalid : validateMsg frameId newMap = true)
    (h : s.processMap frameId newMap = some s') :
    s'.layer.Holds (frameId, newMap) ∧ s'.Locked newMap.info ∧
      s'.lc.rollingWindow = s.lc.rollingWindow ∧ s'.layer.hasUpdatedData = true ∧
      s'.layer.parameters = s.layer.parameters ∧ s'.layer.mapReceived = s.layer.mapReceived ∧
      s'.layer.mapBuffer = s.layer.mapBuffer := by
  unfold processMap at h
  obtain ⟨s₁, hs₁, h⟩ := Option.bind_eq_some_iff.mp h
  obtain ⟨map, hmap, h⟩ := Option.bind_eq_some_iff.mp h
  obtain ⟨l, hl, hfill, rfl⟩ := Option.pmap_eq_some_iff.mp hmap
  obtain rfl := Option.some.inj h
  obtain ⟨hlayer, hlike, hrolling, hlocked⟩ := resized_spec hs₁
  refine ⟨⟨⟨rfl, rfl, rfl, rfl⟩, rfl, hlike, ?_⟩, hlocked, hrolling, rfl, ?_, ?_, ?_⟩
  · change l = newMap.data.map fun v => s₁.layer.parameters.interpretValue v.toUInt8
    obtain ⟨hw, hh, -⟩ := hlike
    have hcells := s₁.layer.cells_lt
    have hlength : newMap.data.length = s₁.layer.sizeX * s₁.layer.sizeY := by
      simp only [validateMsg, Bool.and_eq_true, beq_iff_eq] at hvalid
      rw [hvalid.2, UInt32.toNat_mul, ← hw, ← hh]
      exact Nat.mod_eq_of_lt (by omega)
    rw [← hw, ← hh, fill_grid hlength s₁.layer.length_costmap] at hfill
    exact (Option.some.inj hfill).symm
  · exact congrArg (·.parameters) hlayer
  · exact congrArg (·.mapReceived) hlayer
  · exact congrArg (·.mapBuffer) hlayer

end StaticNode

/-! ## Runs -/

inductive StaticEvent where
  | incomingMap (frameId : String) (newMap : OccupancyGrid ℚ)
  | incomingUpdate (update : OccupancyGridUpdate)
  | updateBounds (bounds : Bounds ℚ)

def StaticEvent.step (s : StaticNode) : StaticEvent → Option StaticNode
  | incomingMap frameId newMap => s.incomingMap frameId newMap
  | incomingUpdate u => (s.layer.incomingUpdate u).map fun layer => { s with layer }
  | updateBounds b => (s.updateBounds b).map (·.1)

/-- The map in use and the one that waits. -/
structure MapView where
  shown : Option (String × OccupancyGrid ℚ)
  waiting : Option (String × OccupancyGrid ℚ)

namespace MapView
variable (v : MapView)

def step : StaticEvent → MapView
  | .incomingMap frameId newMap =>
    if !validateMsg frameId newMap then v
    else if v.shown.isNone then { v with shown := some (frameId, newMap) }
    else { v with waiting := some (frameId, newMap) }
  | .incomingUpdate u => { v with shown := v.shown.map u.onto }
  | .updateBounds _ => ⟨v.waiting.or v.shown, none⟩

/-- The map that will be in use after the next `updateBounds`. -/
def latest : Option (String × OccupancyGrid ℚ) := v.waiting.or v.shown

/-- What a receiver has after a message, that starts with none. -/
def tell (view : Option (String × OccupancyGrid ℚ)) : StaticEvent → Option (String × OccupancyGrid ℚ)
  | .incomingMap frameId newMap => if validateMsg frameId newMap then some (frameId, newMap) else view
  | .incomingUpdate u => view.map u.onto
  | .updateBounds _ => view

/-- An update that arrives while a map waits. -/
def Loses (v : MapView) : StaticEvent → Prop
  | .incomingUpdate _ => v.waiting.isSome
  | _ => False

instance (e : StaticEvent) : Decidable (v.Loses e) := by
  cases e <;> simp only [Loses] <;> infer_instance

/-- The events of a run without the updates that are lost. -/
def kept : MapView → List StaticEvent → List StaticEvent
  | _, [] => []
  | v, e :: es => if v.Loses e then kept (v.step e) es else e :: kept (v.step e) es

theorem latest_step (hfirst : v.shown = none → v.waiting = none) (e : StaticEvent) :
    (v.step e).latest = if v.Loses e then v.latest else tell v.latest e := by
  obtain ⟨shown, waiting⟩ := v
  cases e with
  | incomingMap frameId newMap =>
    by_cases hvalid : validateMsg frameId newMap = true
    · cases shown with
      | none =>
        obtain rfl : waiting = none := hfirst rfl
        simp [step, latest, Loses, tell, hvalid]
      | some m => simp [step, latest, Loses, tell, hvalid]
    · simp [step, latest, Loses, tell, hvalid]
  | incomingUpdate u =>
    cases waiting with
    | none => simp [step, latest, Loses, tell]
    | some m => simp [step, latest, Loses]
  | updateBounds b => simp [step, latest, Loses, tell]

theorem first_step (hfirst : v.shown = none → v.waiting = none) (e : StaticEvent) :
    (v.step e).shown = none → (v.step e).waiting = none := by
  cases e with
  | incomingMap frameId newMap =>
    simp only [step]
    split_ifs with hvalid hnone
    · exact hfirst
    · exact fun h => absurd h (by simp)
    · exact fun h => absurd (Option.isNone_iff_eq_none.mpr h) hnone
  | incomingUpdate u => exact fun h => hfirst (Option.map_eq_none_iff.mp h)
  | updateBounds b => exact fun _ => rfl

/-- All that is lost in a run are the updates that arrive while a map waits. -/
theorem latest_run (hfirst : v.shown = none → v.waiting = none) (es : List StaticEvent) :
    (es.foldl step v).latest = (kept v es).foldl tell v.latest := by
  induction es generalizing v with
  | nil => rfl
  | cons e es ih =>
    rw [List.foldl_cons, ih (v.step e) (v.first_step hfirst e), latest_step v hfirst e, kept]
    split_ifs <;> rfl

end MapView

namespace StaticNode
variable {s s' : StaticNode} {v : MapView}

/-- The map has fewer cells than there are `int` numbers. -/
def Small (m : String × OccupancyGrid ℚ) : Prop :=
  m.2.info.width.toNat * m.2.info.height.toNat < 2 ^ 31

/-- The layer has the map in use, and the maps of a layered costmap that does not roll are as large;
the map that waits is in its buffer. -/
structure Represents (s : StaticNode) (v : MapView) : Prop where
  received : s.layer.mapReceived = v.shown.isSome
  buffer : s.layer.mapBuffer = v.waiting
  waiting : ∀ m, v.waiting = some m → validateMsg m.1 m.2 = true ∧ Small m
  shown : ∀ m, v.shown = some m → s.layer.Holds m ∧ s.Locked m.2.info ∧ Small m
  first : v.shown = none → v.waiting = none

end StaticNode

def StaticEvent.Small : StaticEvent → Prop
  | incomingMap frameId newMap => StaticNode.Small (frameId, newMap)
  | _ => True

/-- The callbacks of the subscriptions. -/
def StaticEvent.IsCallback : StaticEvent → Prop
  | updateBounds _ => False
  | _ => True

namespace StaticNode
variable {s s' : StaticNode} {v : MapView} {e : StaticEvent}

/-- The members that say what is to be reported do not matter. -/
theorem Represents.flags (h : s.Represents v) (reported updated : Bool)
    (extra : Option (Bounds ℚ)) :
    { s with layer := { s.layer with
      mapReceivedInUpdateBounds := reported
      hasUpdatedData := updated
      extraBounds := extra } }.Represents v := by
  refine ⟨h.received, h.buffer, h.waiting, fun m hm => ?_, h.first⟩
  obtain ⟨hholds, hrest⟩ := h.shown m hm
  exact ⟨⟨⟨hholds.x, hholds.y, hholds.width, hholds.height⟩, hholds.frame, hholds.like,
    hholds.costmap⟩, hrest⟩

/-- The map that is loaded is in use, and none waits. -/
theorem represents_of_processMap {m : String × OccupancyGrid ℚ} {mapReceived : Bool}
    {mapBuffer : Option (String × OccupancyGrid ℚ)} (hvalid : validateMsg m.1 m.2 = true)
    (hsmall : Small m) (hs' : s.processMap m.1 m.2 = some s') (hreceived : mapReceived = true)
    (hbuffer : mapBuffer = none) :
    { s' with layer := { s'.layer with mapReceived, mapBuffer } }.Represents ⟨some m, none⟩ := by
  obtain ⟨hholds, hlocked, -⟩ := processMap_spec hvalid hs'
  refine ⟨hreceived, hbuffer, fun m hm => absurd hm (by simp), ?_, fun _ => rfl⟩
  rintro _ hm
  obtain rfl := Option.some.inj hm
  exact ⟨⟨⟨hholds.x, hholds.y, hholds.width, hholds.height⟩, hholds.frame, hholds.like,
    hholds.costmap⟩, hlocked, hsmall⟩

theorem Represents.incomingMap {frameId : String} {newMap : OccupancyGrid ℚ}
    (h : s.Represents v) (hsmall : Small (frameId, newMap))
    (hstep : s.incomingMap frameId newMap = some s') :
    s'.Represents (v.step (.incomingMap frameId newMap)) ∧
      s'.layer.parameters = s.layer.parameters := by
  obtain ⟨shown, waiting⟩ := v
  unfold StaticNode.incomingMap at hstep
  simp only [MapView.step]
  by_cases hvalid : validateMsg frameId newMap = true
  · rw [if_neg (by simp [hvalid])] at hstep ⊢
    cases shown with
    | none =>
      obtain rfl : waiting = none := h.first rfl
      rw [if_pos (by simp [h.received])] at hstep
      obtain ⟨s₁, hs₁, hlast⟩ := Option.bind_eq_some_iff.mp hstep
      obtain rfl := Option.some.inj hlast
      obtain ⟨-, -, -, -, hparameters, -, hbuffer⟩ := processMap_spec hvalid hs₁
      exact ⟨represents_of_processMap (m := (frameId, newMap)) hvalid hsmall hs₁ rfl
        (hbuffer.trans h.buffer), hparameters⟩
    | some m =>
      rw [if_neg (by simp [h.received])] at hstep
      obtain rfl := Option.some.inj hstep
      refine ⟨⟨h.received, rfl, ?_, ?_, fun hnone => absurd hnone (by simp)⟩, rfl⟩
      · rintro _ hm
        obtain rfl := Option.some.inj hm
        exact ⟨hvalid, hsmall⟩
      · intro m' hm'
        obtain ⟨hholds, hrest⟩ := h.shown m' hm'
        exact ⟨⟨⟨hholds.x, hholds.y, hholds.width, hholds.height⟩, hholds.frame, hholds.like,
          hholds.costmap⟩, hrest⟩
  · rw [if_pos (by simp [hvalid])] at hstep ⊢
    obtain rfl := Option.some.inj hstep
    exact ⟨h, rfl⟩

theorem Represents.incomingUpdate {u : OccupancyGridUpdate} {layer : StaticLayer}
    (h : s.Represents v) (hstep : s.layer.incomingUpdate u = some layer) :
    { s with layer }.Represents (v.step (.incomingUpdate u)) ∧
      layer.parameters = s.layer.parameters := by
  have hsame := StaticLayer.incomingUpdate_same hstep
  refine ⟨⟨?_, ?_, h.waiting, ?_, (v.first_step h.first (.incomingUpdate u))⟩, ?_⟩
  · rw [hsame]
    exact h.received.trans (Option.isSome_map).symm
  · rw [hsame]
    exact h.buffer
  · intro m' hm'
    obtain ⟨m, hm, rfl⟩ := Option.map_eq_some_iff.mp hm'
    obtain ⟨hholds, hlocked, hsmall⟩ := h.shown m hm
    refine ⟨(hholds.incomingUpdate hsmall hstep), ?_, ?_⟩
    · unfold Locked
      rw [u.onto_info]
      exact hlocked
    · unfold Small
      rw [u.onto_info]
      exact hsmall
  · rw [hsame]

/-- The map that waits is loaded. -/
theorem Represents.loaded {s₁ : StaticNode} {shown : String × OccupancyGrid ℚ}
    {waiting : Option (String × OccupancyGrid ℚ)} (h : s.Represents ⟨some shown, waiting⟩)
    (hs₁ : (s.layer.mapBuffer.elim (some s) fun newMap => do
      let s ← s.processMap newMap.1 newMap.2
      return { s with layer := { s.layer with mapBuffer := none } }) = some s₁) :
    s₁.Represents ⟨waiting.or (some shown), none⟩ ∧ s₁.layer.parameters = s.layer.parameters := by
  rw [h.buffer] at hs₁
  cases waiting with
  | none =>
    obtain rfl := Option.some.inj hs₁
    exact ⟨h, rfl⟩
  | some m =>
    obtain ⟨s₂, hs₂, hlast⟩ := Option.bind_eq_some_iff.mp hs₁
    obtain rfl := Option.some.inj hlast
    obtain ⟨hvalid, hsmall⟩ := h.waiting m rfl
    obtain ⟨-, -, -, -, hparameters, hreceived, -⟩ := processMap_spec hvalid hs₂
    exact ⟨represents_of_processMap hvalid hsmall hs₂ (hreceived.trans h.received) rfl,
      hparameters⟩

theorem Represents.updateBounds {b b' : Bounds ℚ} (h : s.Represents v)
    (hstep : s.updateBounds b = some (s', b')) :
    s'.Represents (v.step (.updateBounds b)) ∧ s'.layer.parameters = s.layer.parameters := by
  obtain ⟨shown, waiting⟩ := v
  unfold StaticNode.updateBounds at hstep
  cases shown with
  | none =>
    obtain rfl : waiting = none := h.first rfl
    rw [if_pos (by simp [h.received])] at hstep
    obtain ⟨rfl, -⟩ := Prod.mk.inj (Option.some.inj hstep)
    exact ⟨h.flags false s.layer.hasUpdatedData s.layer.extraBounds, rfl⟩
  | some shown =>
    rw [if_neg (by simp [h.received])] at hstep
    obtain ⟨s₁, hs₁, hstep⟩ := Option.bind_eq_some_iff.mp hstep
    have hloaded := (h.flags true s.layer.hasUpdatedData s.layer.extraBounds).loaded hs₁
    split_ifs at hstep
    · obtain ⟨rfl, -⟩ := Prod.mk.inj (Option.some.inj hstep)
      exact hloaded
    · obtain ⟨rfl, -⟩ := Prod.mk.inj (Option.some.inj hstep)
      exact ⟨hloaded.1.flags _ _ _, hloaded.2⟩

theorem Represents.step (h : s.Represents v) (hsmall : e.Small) (hstep : e.step s = some s') :
    s'.Represents (v.step e) ∧ s'.layer.parameters = s.layer.parameters := by
  cases e with
  | incomingMap frameId newMap => exact h.incomingMap hsmall hstep
  | incomingUpdate u =>
    obtain ⟨layer, hlayer, rfl⟩ := Option.map_eq_some_iff.mp hstep
    exact h.incomingUpdate hlayer
  | updateBounds b =>
    obtain ⟨⟨s₁, b'⟩, hs₁, rfl⟩ := Option.map_eq_some_iff.mp hstep
    exact h.updateBounds hs₁

def run (es : List StaticEvent) (s : StaticNode) : Option StaticNode :=
  es.foldlM StaticEvent.step s

theorem Represents.run {es : List StaticEvent} (h : s.Represents v) (hsmall : ∀ e ∈ es, e.Small)
    (hrun : run es s = some s') :
    s'.Represents (es.foldl MapView.step v) ∧ s'.layer.parameters = s.layer.parameters := by
  induction es generalizing s v with
  | nil =>
    obtain rfl := Option.some.inj hrun
    exact ⟨h, rfl⟩
  | cons e es ih =>
    obtain ⟨s₁, hs₁, hrest⟩ := Option.bind_eq_some_iff.mp (List.foldlM_cons.symm.trans hrun)
    obtain ⟨he, hes⟩ := List.forall_mem_cons.mp hsmall
    obtain ⟨h₁, hparameters⟩ := h.step he hs₁
    obtain ⟨h', hparameters'⟩ := ih h₁ hes hrest
    exact ⟨h', hparameters'.trans hparameters⟩

theorem represents_of_new (hnew : s.layer.mapReceived = false) (hempty : s.layer.mapBuffer = none) :
    s.Represents ⟨none, none⟩ :=
  ⟨hnew, hempty, fun m hm => absurd hm (by simp), fun m hm => absurd hm (by simp), fun _ => rfl⟩

/-- After `updateBounds`, whatever came before it, the layer has the map that a receiver has who is
told everything but the updates that arrived while a newer map waited. -/
theorem run_holds {es : List StaticEvent} {s₁ : StaticNode} {b b' : Bounds ℚ}
    (hnew : s.layer.mapReceived = false) (hempty : s.layer.mapBuffer = none)
    (hsmall : ∀ e ∈ es, e.Small) (hrun : run es s = some s₁)
    (hlast : s₁.updateBounds b = some (s', b')) {m : String × OccupancyGrid ℚ}
    (hm : (MapView.kept ⟨none, none⟩ es).foldl MapView.tell none = some m) :
    s'.layer.Holds m ∧ s'.Locked m.2.info ∧ s'.layer.parameters = s.layer.parameters := by
  obtain ⟨h₁, hparameters₁⟩ := (represents_of_new hnew hempty).run hsmall hrun
  obtain ⟨h', hparameters⟩ := h₁.updateBounds hlast
  have hlatest := MapView.latest_run ⟨none, none⟩ (fun _ => rfl) es
  obtain ⟨hholds, hlocked, -⟩ := h'.shown m (hlatest.trans hm)
  exact ⟨hholds, hlocked, hparameters.trans hparameters₁⟩

/-- A node that has received nothing, with maps of no cells. -/
def newNode : StaticNode :=
  let map : Costmap2D ℚ :=
    { sizeX := 0
      sizeY := 0
      resolution := 1
      originX := 0
      originY := 0
      costmap := []
      defaultValue := 0
      length_costmap := rfl
      sizeX_lt := by decide
      sizeY_lt := by decide
      cells_lt := by decide }
  { layer :=
      { toCostmap2D := map
        enabled := true
        parameters := ⟨true, 100, 255, true⟩
        useMaximum := false
        mapFrame := ""
        x := 0
        y := 0
        width := 0
        height := 0
        hasUpdatedData := false
        mapReceived := false
        mapReceivedInUpdateBounds := false
        mapBuffer := none
        extraBounds := none }
    lc := ⟨map, map, false, 0, 0, 0, 0, false⟩
    sizeLocked := false }

/-- Two cells of a metre. -/
def twoCellGrid (data : List Int8) : OccupancyGrid ℚ := ⟨⟨1, 2, 1, ⟨0, 0⟩⟩, data⟩

/-- An obstacle that is sent after the second map is lost. -/
theorem newNode_update_lost :
    ((run [.incomingMap "map" (twoCellGrid [0, 0]), .incomingMap "map" (twoCellGrid [0, -1]),
      .incomingUpdate ⟨"map", 1, 0, 1, 1, [100]⟩] newNode).bind fun s =>
        s.updateBounds ⟨0, 0, 0, 0⟩).map (fun r => r.1.layer.costmap) = some [0, 255] := by
  have hsome : ((run [.incomingMap "map" (twoCellGrid [0, 0]),
      .incomingMap "map" (twoCellGrid [0, -1]), .incomingUpdate ⟨"map", 1, 0, 1, 1, [100]⟩]
        newNode).bind fun s => s.updateBounds ⟨0, 0, 0, 0⟩).isSome := by decide +kernel
  obtain ⟨⟨s', b'⟩, hs'⟩ := Option.isSome_iff_exists.mp hsome
  obtain ⟨s₁, hs₁, hlast⟩ := Option.bind_eq_some_iff.mp hs'
  have hsmall : ∀ e ∈ [StaticEvent.incomingMap "map" (twoCellGrid [0, 0]),
      .incomingMap "map" (twoCellGrid [0, -1]), .incomingUpdate ⟨"map", 1, 0, 1, 1, [100]⟩],
      e.Small := by
    simp [StaticEvent.Small, Small, twoCellGrid]
  obtain ⟨hholds, -, hparameters⟩ := run_holds (m := ("map", twoCellGrid [0, -1])) rfl rfl hsmall
    hs₁ hlast rfl
  rw [hs', Option.map_some, hholds.costmap, hparameters]
  rfl

/-- Exactly the updates that are accepted with cells and have too little data for them, or a far
corner beyond the range of `unsigned int`, leave the memory of the message or of the map. -/
theorem incomingUpdate_eq_none_iff {layer : StaticLayer} {m : String × OccupancyGrid ℚ}
    {u : OccupancyGridUpdate} (h : layer.Holds m)
    (hcells : m.2.info.width.toNat * m.2.info.height.toNat < 2 ^ 31) :
    layer.incomingUpdate u = none ↔ layer.accepts u = true ∧ 0 < u.width.toNat ∧
      0 < u.height.toNat ∧ (2 ^ 32 ≤ u.x.toInt + u.width.toNat ∨
        2 ^ 32 ≤ u.y.toInt + u.height.toNat ∨
        u.data.length < u.width.toNat * u.height.toNat) := by
  obtain ⟨hsx, hsy, -⟩ := h.like
  rw [← hsx, ← hsy] at hcells
  have hdefined := StaticLayer.incomingUpdate_isSome_iff (u := u) h.toLoaded hcells
  rw [← not_iff_not, ← ne_eq, Option.ne_none_iff_isSome, hdefined]
  by_cases hacc : layer.accepts u = true
  · simp only [hacc, true_implies, true_and]
    omega
  · simp [hacc]

/-- An update of two cells with the data of one. -/
theorem newNode_short_update :
    ((run [.incomingMap "map" (twoCellGrid [0, 0])] newNode).bind fun s =>
      s.layer.incomingUpdate ⟨"map", 0, 0, 2, 1, [100]⟩) = none := by
  have hfirst : newNode.Represents ⟨none, none⟩ := represents_of_new rfl rfl
  have haccepts : (run [.incomingMap "map" (twoCellGrid [0, 0])] newNode).map (fun s =>
      s.layer.accepts ⟨"map", 0, 0, 2, 1, [100]⟩) = some true := by decide +kernel
  obtain ⟨s', hs', hacc⟩ := Option.map_eq_some_iff.mp haccepts
  obtain ⟨hrep, -⟩ := hfirst.run (by simp [StaticEvent.Small, Small, twoCellGrid]) hs'
  obtain ⟨hholds, -⟩ := hrep.shown ("map", twoCellGrid [0, 0]) rfl
  rw [hs', Option.bind_some]
  exact (incomingUpdate_eq_none_iff hholds (by decide)).mpr
    ⟨hacc, by decide, by decide, Or.inr (Or.inr (by decide))⟩

/-! ## What is reported -/

/-- A callback that changes the map says so. -/
theorem callback_unchanged (hcallback : e.IsCallback) (hstep : e.step s = some s')
    (hfalse : s'.layer.hasUpdatedData = false) :
    s'.layer.toCostmap2D = s.layer.toCostmap2D ∧ s.layer.hasUpdatedData = false := by
  cases e with
  | incomingMap frameId newMap =>
    simp only [StaticEvent.step, StaticNode.incomingMap] at hstep
    by_cases hvalid : validateMsg frameId newMap = true
    · rw [if_neg (by simp [hvalid])] at hstep
      split_ifs at hstep
      · obtain ⟨s₁, hs₁, hlast⟩ := Option.bind_eq_some_iff.mp hstep
        obtain rfl := Option.some.inj hlast
        obtain ⟨-, -, -, hupdated, -⟩ := processMap_spec hvalid hs₁
        exact absurd (hupdated.symm.trans hfalse) (by decide)
      · obtain rfl := Option.some.inj hstep
        exact ⟨rfl, hfalse⟩
    · rw [if_pos (by simp [hvalid])] at hstep
      obtain rfl := Option.some.inj hstep
      exact ⟨rfl, hfalse⟩
  | incomingUpdate u =>
    obtain ⟨layer, hlayer, rfl⟩ := Option.map_eq_some_iff.mp hstep
    obtain rfl := StaticLayer.incomingUpdate_unchanged hlayer hfalse
    exact ⟨rfl, hfalse⟩
  | updateBounds b => exact hcallback.elim

theorem callbacks_unchanged {es : List StaticEvent} (hcallbacks : ∀ e ∈ es, e.IsCallback)
    (hrun : run es s = some s') (hfalse : s'.layer.hasUpdatedData = false) :
    s'.layer.toCostmap2D = s.layer.toCostmap2D ∧ s.layer.hasUpdatedData = false := by
  induction es generalizing s with
  | nil =>
    obtain rfl := Option.some.inj hrun
    exact ⟨rfl, hfalse⟩
  | cons e es ih =>
    obtain ⟨s₁, hs₁, hrest⟩ := Option.bind_eq_some_iff.mp (List.foldlM_cons.symm.trans hrun)
    obtain ⟨he, hes⟩ := List.forall_mem_cons.mp hcallbacks
    obtain ⟨hmap, hfalse₁⟩ := ih hes hrest
    obtain ⟨hmap₁, hfalse₀⟩ := callback_unchanged he hs₁ hfalse₁
    exact ⟨hmap.trans hmap₁, hfalse₀⟩

theorem mapToWorld_mono {m : Costmap2D ℚ} (hres : 0 < m.resolution) {x y x' y' : ℕ} (hx : x ≤ x')
    (hy : y ≤ y') : (m.mapToWorld x y).1 ≤ (m.mapToWorld x' y').1 ∧
      (m.mapToWorld x y).2 ≤ (m.mapToWorld x' y').2 := by
  have haxis : ∀ (origin : ℚ) {n n' : ℕ}, n ≤ n' →
      origin + (((n : ℤ) : ℚ) + 1 / 2) * m.resolution ≤
        origin + (((n' : ℤ) : ℚ) + 1 / 2) * m.resolution := by
    intro origin n n' hn
    have hcast : ((n : ℤ) : ℚ) ≤ ((n' : ℤ) : ℚ) := by exact_mod_cast hn
    gcongr
  exact ⟨haxis m.originX hx, haxis m.originY hy⟩

/-- The bounds from the middle of the first cell to that of the one beyond the last have the middle
of every cell. -/
theorem has_middle {m : Costmap2D ℚ} {c : ℤ × ℤ} (hres : 0 < m.resolution) (hc : m.Inside c)
    (b : Bounds ℚ) : ∃ p, m.place p = c ∧
      Bounds.Has
        { minX := min (m.mapToWorld 0 0).1 b.minX
          minY := min (m.mapToWorld 0 0).2 b.minY
          maxX := max (m.mapToWorld m.sizeX m.sizeY).1 b.maxX
          maxY := max (m.mapToWorld m.sizeX m.sizeY).2 b.maxY } p := by
  obtain ⟨hx0, hx, hy0, hy⟩ := hc
  have hcell := (worldToMap_eq_some_iff hres).mp
    (worldToMap_mapToWorld hres (x := c.1.toNat) (y := c.2.toNat) (by omega) (by omega))
  have hlow := mapToWorld_mono hres (Nat.zero_le c.1.toNat) (Nat.zero_le c.2.toNat)
  have hhigh := mapToWorld_mono hres (show c.1.toNat ≤ m.sizeX by omega)
    (show c.2.toNat ≤ m.sizeY by omega)
  refine ⟨m.mapToWorld c.1.toNat c.2.toNat, ?_, ?_⟩
  · rw [hcell.1]
    exact Prod.ext (Int.toNat_of_nonneg hx0) (Int.toNat_of_nonneg hy0)
  · exact ⟨min_le_of_left_le hlow.1, le_max_of_le_left hhigh.1, min_le_of_left_le hlow.2,
      le_max_of_le_left hhigh.2⟩

/-- Loading the map that waits says so. -/
theorem Represents.loaded_unchanged {s₁ : StaticNode} (h : s.Represents v)
    (hs₁ : (s.layer.mapBuffer.elim (some s) fun newMap => do
      let s ← s.processMap newMap.1 newMap.2
      return { s with layer := { s.layer with mapBuffer := none } }) = some s₁)
    (hfalse : s₁.layer.hasUpdatedData = false) : s₁ = s := by
  rw [h.buffer] at hs₁
  cases hwaiting : v.waiting with
  | none =>
    rw [hwaiting] at hs₁
    exact (Option.some.inj hs₁).symm
  | some m =>
    rw [hwaiting] at hs₁
    obtain ⟨s₂, hs₂, hlast⟩ := Option.bind_eq_some_iff.mp hs₁
    obtain rfl := Option.some.inj hlast
    obtain ⟨-, -, -, hupdated, -⟩ := processMap_spec (h.waiting m hwaiting).1 hs₂
    exact absurd (hupdated.symm.trans hfalse) (by decide)

theorem le_useExtraBounds (layer : StaticLayer) (b : Bounds ℚ) : b ≤ layer.useExtraBounds b := by
  unfold StaticLayer.useExtraBounds
  cases layer.extraBounds with
  | none => exact ⟨le_rfl, le_rfl, le_rfl, le_rfl⟩
  | some extra => exact ⟨min_le_right _ _, min_le_right _ _, le_max_right _ _, le_max_right _ _⟩

/-- Over any run of callbacks and the `updateBounds` that follows, the layer keeps its map or has
the middle of every cell of the new one reported; bounds never shrink. -/
theorem reported {es : List StaticEvent} {s₁ : StaticNode} {b b' : Bounds ℚ}
    (h : s.Represents v) (hsmall : ∀ e ∈ es, e.Small) (hcallbacks : ∀ e ∈ es, e.IsCallback)
    (hrun : run es s = some s₁) (hlast : s₁.updateBounds b = some (s', b'))
    (hused : s'.layer.mapReceivedInUpdateBounds = true) (hres : 0 < s'.layer.resolution) :
    b ≤ b' ∧ (s'.layer.toCostmap2D = s.layer.toCostmap2D ∨
      ∀ c, s'.layer.Inside c → ∃ p, s'.layer.place p = c ∧ b'.Has p) := by
  obtain ⟨h₁, -⟩ := h.run hsmall hrun
  unfold StaticNode.updateBounds at hlast
  by_cases hreceived : s₁.layer.mapReceived = true
  · rw [if_neg (by simp [hreceived])] at hlast
    obtain ⟨s₂, hs₂, hlast⟩ := Option.bind_eq_some_iff.mp hlast
    have hflags := h₁.flags true s₁.layer.hasUpdatedData s₁.layer.extraBounds
    have hunchanged := hflags.loaded_unchanged hs₂
    have hshown := h₁.received.symm.trans hreceived
    generalize es.foldl MapView.step v = v₁ at hflags hshown
    obtain ⟨shown, waiting⟩ := v₁
    obtain ⟨m, rfl⟩ := Option.isSome_iff_exists.mp hshown
    obtain ⟨hloaded, -⟩ := hflags.loaded hs₂
    obtain ⟨m', hm'⟩ : ∃ m', waiting.or (some m) = some m' := by cases waiting <;> simp
    obtain ⟨hholds, -⟩ := hloaded.shown m' hm'
    split_ifs at hlast with hquiet
    · obtain ⟨rfl, rfl⟩ := Prod.mk.inj (Option.some.inj hlast)
      refine ⟨⟨le_rfl, le_rfl, le_rfl, le_rfl⟩, Or.inl ?_⟩
      have hfalse : s₂.layer.hasUpdatedData = false := by
        simp only [Bool.and_eq_true, Bool.not_eq_true', Bool.or_eq_false_iff] at hquiet
        exact hquiet.2.1
      obtain rfl := hunchanged hfalse
      exact (callbacks_unchanged hcallbacks hrun hfalse).1
    · obtain ⟨rfl, rfl⟩ := Prod.mk.inj (Option.some.inj hlast)
      refine ⟨?_, Or.inr fun c hc => ?_⟩
      · obtain ⟨hx, hy, hx', hy'⟩ := le_useExtraBounds s₂.layer b
        exact ⟨min_le_of_right_le hx, min_le_of_right_le hy, le_max_of_le_right hx',
          le_max_of_le_right hy'⟩
      · have hmiddle := has_middle hres hc (s₂.layer.useExtraBounds b)
        rw [hholds.x, hholds.y, hholds.width, hholds.height, Nat.zero_add, Nat.zero_add]
        exact hmiddle
  · rw [if_pos (by simp [hreceived])] at hlast
    obtain ⟨rfl, -⟩ := Prod.mk.inj (Option.some.inj hlast)
    exact absurd hused (by simp)

theorem newNode_reported : ∃ s' b', ((run [.incomingMap "map" (twoCellGrid [0, 0])] newNode).bind
    fun s => s.updateBounds ⟨0, 0, 0, 0⟩) = some (s', b') ∧
      ∀ c, s'.layer.Inside c → ∃ p, s'.layer.place p = c ∧ b'.Has p := by
  have hfirst : newNode.Represents ⟨none, none⟩ := represents_of_new rfl rfl
  have hfacts : ((run [.incomingMap "map" (twoCellGrid [0, 0])] newNode).bind fun s =>
      s.updateBounds ⟨0, 0, 0, 0⟩).map (fun r => (r.1.layer.mapReceivedInUpdateBounds,
        r.1.layer.resolution, r.1.layer.sizeX)) = some (true, 1, 2) := by decide +kernel
  obtain ⟨⟨s', b'⟩, hs', hr⟩ := Option.map_eq_some_iff.mp hfacts
  obtain ⟨s₁, hs₁, hlast⟩ := Option.bind_eq_some_iff.mp hs'
  obtain ⟨hused, hres, hsize⟩ : s'.layer.mapReceivedInUpdateBounds = true ∧
      s'.layer.resolution = 1 ∧ s'.layer.sizeX = 2 := by simpa using hr
  obtain ⟨-, hkept | hmiddle⟩ := reported hfirst (by simp [StaticEvent.Small, Small, twoCellGrid])
    (by simp [StaticEvent.IsCallback]) hs₁ hlast hused (by rw [hres]; exact one_pos)
  · exact absurd ((congrArg (·.sizeX) hkept).symm.trans hsize) (by decide)
  · exact ⟨s', b', hs', hmiddle⟩

end StaticNode

end TitanRobot.Costmap

import TitanRobot.Costmap.Messages
import TitanRobot.Costmap.Window

/-!
# Publishing the costmap

`Costmap2DPublisher` sends the whole grid when the map has changed its place since the last time,
and otherwise the bounding box of what was updated. A receiver that puts the boxes into the grid it
has is in step with the map after every publication, unless the map went away and came back between
two of them, or updates were made while nothing was published.
-/
namespace TitanRobot.Costmap
open Floating Arithmetic Grid Costmap2D
open Metrics (OccupancyGrid)

/-- `cost_translation_table_` -/
def translate (cost : UInt8) : Int8 :=
  if cost = freeSpace then 0
  else if cost = inscribedInflatedObstacle then 99
  else if cost = lethalObstacle then 100
  else if cost = noInformation then -1
  else Int8.ofNat (1 + 97 * (cost.toNat - 1) / 251)

/-- `Costmap2DPublisher`; before the first grid the saved members have any values. The resolution is
a `float`. -/
structure Publisher (α : Type) where
  globalFrame : String
  x0 : ℕ
  xn : ℕ
  y0 : ℕ
  yn : ℕ
  savedOriginX : α
  savedOriginY : α
  gridResolution : α
  gridWidth : ℕ
  gridHeight : ℕ
  alwaysSendFullCostmap : Bool

section
variable {α : Type} [Arithmetic α] (map : Costmap2D α)

/-- The translated costs; the middle of the first cell gives the origin, half a cell of the `float`
resolution away. -/
def prepareGrid : OccupancyGrid α where
  info :=
    { resolution := toFloat map.resolution
      width := UInt32.ofNat map.sizeX
      height := UInt32.ofNat map.sizeY
      origin := ⟨sub (map.mapToWorld 0 0).1 (toFloat (div (toFloat map.resolution) (ofInt 2))),
        sub (map.mapToWorld 0 0).2 (toFloat (div (toFloat map.resolution) (ofInt 2)))⟩ }
  data := map.costmap.map translate

namespace Publisher
variable (p : Publisher α)

def updateBounds (x0 xn y0 yn : ℕ) : Publisher α :=
  { p with x0 := min x0 p.x0, xn := max xn p.xn, y0 := min y0 p.y0, yn := max yn p.yn }

/-- The costs in the changed rectangle, row by row. -/
def prepareUpdate : Option OccupancyGridUpdate := do
  let rows ← (List.range (p.yn - p.y0)).mapM fun j =>
    (List.range (p.xn - p.x0)).mapM fun i => map.getCost (p.x0 + i) (p.y0 + j)
  return ⟨p.globalFrame, Int32.ofNat p.x0, Int32.ofNat p.y0, UInt32.ofInt (p.xn - p.x0),
    UInt32.ofInt (p.yn - p.y0), rows.flatten.map translate⟩

def moved : Bool :=
  !eq p.gridResolution (toFloat map.resolution) || p.gridWidth != map.sizeX ||
    p.gridHeight != map.sizeY || !eq p.savedOriginX map.originX || !eq p.savedOriginY map.originY

/-- The changed rectangle is empty again. -/
def cleared : Publisher α :=
  { p with x0 := map.sizeX, xn := 0, y0 := map.sizeY, yn := 0 }

/-- With a subscriber to the grids and one to the updates, or without. -/
def publishCostmap (gridSubscribed updateSubscribed : Bool) :
    Option (Publisher α × Option (Message α)) := do
  if p.alwaysSendFullCostmap || p.moved map then
    if gridSubscribed then
      let saved := { p with
        savedOriginX := map.originX
        savedOriginY := map.originY
        gridResolution := toFloat map.resolution
        gridWidth := map.sizeX
        gridHeight := map.sizeY }
      return (saved.cleared map, some (.grid p.globalFrame (prepareGrid map)))
    else return (p.cleared map, none)
  else if p.x0 < p.xn ∧ updateSubscribed then
    let update ← p.prepareUpdate map
    return (p.cleared map, some (.update update))
  else return (p.cleared map, none)

end Publisher

end

/-! ## The update loop -/

/-- `Costmap2DROS`: the costmap and its publisher. -/
structure MapNode where
  lc : LayeredCostmap ℚ
  publisher : Publisher ℚ

/-- One turn of `mapUpdateLoop`: there may be no pose to update at, the publish cycle may not be
positive, and the publication may not be due. -/
structure Turn (w h : ℕ) where
  input : Option (WindowInput w h)
  cyclePositive : Bool
  due : Bool

section
variable {w h : ℕ}

def Turn.updateMap (turn : Turn w h) (lc : LayeredCostmap ℚ) : Option (LayeredCostmap ℚ) :=
  turn.input.elim (some lc) fun input => input.update lc

def Turn.iterate (turn : Turn w h) (n : MapNode) : Option (MapNode × Option (Message ℚ)) := do
  let lc ← turn.updateMap n.lc
  if turn.cyclePositive && lc.initialized then
    let publisher := n.publisher.updateBounds lc.bx0 lc.bxn lc.by0 lc.byn
    if turn.due then
      let (publisher, message) ← publisher.publishCostmap lc.combined true true
      return (⟨lc, publisher⟩, message)
    else return (⟨lc, publisher⟩, none)
  else return (⟨lc, n.publisher⟩, none)

/-- The node and its receiver. -/
def Turn.step (s : MapNode × Option (OccupancyGrid ℚ)) (turn : Turn w h) :
    Option (MapNode × Option (OccupancyGrid ℚ)) := do
  let (n, message) ← turn.iterate s.1
  return (n, message.elim s.2 (receive s.2))

def Turn.run (turns : List (Turn w h)) (s : MapNode × Option (OccupancyGrid ℚ)) :
    Option (MapNode × Option (OccupancyGrid ℚ)) :=
  turns.foldlM Turn.step s

end

/-! ## What a message leaves -/

section
variable {m : Costmap2D ℚ} {g : OccupancyGrid ℚ} {p : Publisher ℚ}

/-- A grid shows the map but for the cells of a window. -/
structure Shows (g : OccupancyGrid ℚ) (m : Costmap2D ℚ) (x0 y0 xn yn : ℕ) : Prop where
  info : g.info = (prepareGrid m).info
  length : g.data.length = m.costmap.length
  data : ∀ c, m.Inside c → ¬ InWindow x0 y0 xn yn c →
    g.data[m.number c]? = some (translate (m.cost c))

theorem Shows.eq_prepareGrid {x0 y0 xn yn : ℕ} (h : Shows g m x0 y0 xn yn) (hempty : xn ≤ x0) :
    g = prepareGrid m := by
  obtain ⟨info, data⟩ := g
  obtain ⟨hinfo, hlength, hdata⟩ := h
  simp only at hinfo hlength hdata
  rw [prepareGrid, OccupancyGrid.mk.injEq]
  refine ⟨hinfo, List.ext_getElem? fun j => ?_⟩
  rcases lt_or_ge j m.costmap.length with hj | hj
  · obtain ⟨c, hc, rfl⟩ := Costmap2D.exists_number hj
    rw [hdata c hc (by unfold InWindow; omega), List.getElem?_map, hc.getElem?_number]
    rfl
  · rw [List.getElem?_eq_none (by omega), List.getElem?_eq_none (by simpa using hj)]

theorem prepareUpdate_eq (hx : p.x0 ≤ p.xn) (hxn : p.xn ≤ m.sizeX) (hy : p.y0 ≤ p.yn)
    (hyn : p.yn ≤ m.sizeY) :
    ∃ u, p.prepareUpdate m = some u ∧ u.frameId = p.globalFrame ∧
      u.Covers p.x0 p.y0 (p.xn - p.x0) (p.yn - p.y0) ∧
      u.data = ((List.range (p.yn - p.y0)).map fun j => (List.range (p.xn - p.x0)).map fun i =>
        translate (m.cost (↑(p.x0 + i), ↑(p.y0 + j)))).flatten := by
  have hw := m.sizeX_lt
  have hh := m.sizeY_lt
  have hrow : ∀ j ∈ List.range (p.yn - p.y0),
      (List.range (p.xn - p.x0)).mapM (fun i => m.getCost (p.x0 + i) (p.y0 + j)) =
        some ((List.range (p.xn - p.x0)).map fun i => m.cost (↑(p.x0 + i), ↑(p.y0 + j))) := by
    intro j hj
    refine mapM_eq_some fun i hi => getCost_eq ?_ ?_
    · have hlt := List.mem_range.mp hi
      omega
    · have hlt := List.mem_range.mp hj
      omega
  have hsize : ∀ {a b : ℕ}, a ≤ b → b < 2 ^ 31 → (UInt32.ofInt ((b : ℤ) - a)).toNat = b - a := by
    intro a b hab hb
    rw [UInt32.ofInt, UInt32.toNat_ofNat']
    omega
  rw [Publisher.prepareUpdate, mapM_eq_some hrow]
  refine ⟨_, rfl, rfl, ⟨Int32.toInt_ofNat_of_lt (by omega), Int32.toInt_ofNat_of_lt (by omega),
    hsize hx (by omega), hsize hy (by omega)⟩, ?_⟩
  simp [List.map_flatten, Function.comp_def]

/-- The rectangle brings the grid up to date. -/
theorem Shows.put {u : OccupancyGridUpdate} (h : Shows g m p.x0 p.y0 p.xn p.yn) (hx : p.x0 ≤ p.xn)
    (hxn : p.xn ≤ m.sizeX) (hy : p.y0 ≤ p.yn) (hyn : p.yn ≤ m.sizeY)
    (hu : p.prepareUpdate m = some u) : u.apply g = prepareGrid m := by
  obtain ⟨u', hu', -, hcovers, hdata⟩ := prepareUpdate_eq hx hxn hy hyn
  obtain rfl := Option.some.inj (hu'.symm.trans hu)
  have hwidth : g.info.width.toNat = m.sizeX := by
    rw [h.info]
    exact toNat_ofNat_of_lt m.sizeX_lt
  refine @eq_prepareGrid m _ 0 0 0 0
    ⟨h.info, by simp [OccupancyGridUpdate.apply, Costmap.put, h.length], fun c hc _ => ?_⟩ le_rfl
  have hlt := hc.number_lt
  rw [← h.length] at hlt
  rw [OccupancyGridUpdate.apply, hwidth, put_eq hcovers, List.getElem?_mapIdx,
    List.getElem?_eq_getElem hlt, Option.map_some, if_congr (hc.rect_iff hx hy) rfl rfl]
  split_ifs with hwin
  · obtain ⟨hx0, hx1, hy0, hy1⟩ := hwin
    rw [hc.number_mod, hc.number_div, hdata]
    rw [getElem?_rows _ (by omega) (by omega), Option.getD_some]
    congr 3
    apply Prod.ext
    · simp only
      omega
    · simp only
      omega
  · rw [← List.getElem?_eq_getElem hlt]
    exact h.data c hc hwin

theorem shows_prepareGrid (x0 y0 xn yn : ℕ) : Shows (prepareGrid m) m x0 y0 xn yn where
  info := rfl
  length := List.length_map _
  data c hc _ := by rw [prepareGrid, List.getElem?_map, hc.getElem?_number, Option.map_some]

/-- The changed rectangle is on a map of the size. -/
structure Publisher.Fits (p : Publisher ℚ) (w h : ℕ) : Prop where
  xn_le : p.xn ≤ w
  yn_le : p.yn ≤ h
  y0_le : p.x0 < p.xn → p.y0 ≤ p.yn

theorem Publisher.moved_eq_false_iff : p.moved m = false ↔
    p.gridResolution = toFloat m.resolution ∧ p.gridWidth = m.sizeX ∧ p.gridHeight = m.sizeY ∧
      p.savedOriginX = m.originX ∧ p.savedOriginY = m.originY := by
  simp [moved, eq, and_assoc]

/-- After a publication the receiver has the whole map, if before it was behind only within the
changed rectangle, or is sent a grid. -/
theorem Publisher.publishCostmap_eq {view : Option (OccupancyGrid ℚ)}
    (hfits : p.Fits m.sizeX m.sizeY)
    (hview : p.alwaysSendFullCostmap = false → p.moved m = false →
      ∃ g, view = some g ∧ Shows g m p.x0 p.y0 p.xn p.yn) :
    ∃ p' message, p.publishCostmap m true true = some (p', message) ∧ p'.moved m = false ∧
      p'.Fits m.sizeX m.sizeY ∧ p'.alwaysSendFullCostmap = p.alwaysSendFullCostmap ∧
      message.elim view (receive view) = some (prepareGrid m) := by
  have hcleared : ∀ q : Publisher ℚ, (q.cleared m).Fits m.sizeX m.sizeY := fun q =>
    ⟨Nat.zero_le _, Nat.zero_le _, fun hlt => absurd hlt (Nat.not_lt_zero _)⟩
  unfold publishCostmap
  by_cases hfull : (p.alwaysSendFullCostmap || p.moved m) = true
  · rw [if_pos hfull]
    exact ⟨_, _, rfl, moved_eq_false_iff.mpr ⟨rfl, rfl, rfl, rfl, rfl⟩, hcleared _, rfl, rfl⟩
  · rw [if_neg hfull]
    obtain ⟨halways, hmoved⟩ : p.alwaysSendFullCostmap = false ∧ p.moved m = false := by
      simpa using hfull
    obtain ⟨g, rfl, hshows⟩ := hview halways hmoved
    by_cases hx : p.x0 < p.xn
    · have hy := hfits.y0_le hx
      obtain ⟨u, hupdate, -⟩ := prepareUpdate_eq (m := m) hx.le hfits.xn_le hy hfits.yn_le
      have hput := hshows.put hx.le hfits.xn_le hy hfits.yn_le hupdate
      rw [if_pos ⟨hx, rfl⟩, hupdate]
      exact ⟨_, _, rfl, hmoved, hcleared p, rfl, congrArg some hput⟩
    · rw [if_neg fun hsend => hx hsend.1]
      exact ⟨_, _, rfl, hmoved, hcleared p, rfl,
        congrArg some (hshows.eq_prepareGrid (by omega))⟩

end

/-! ## Runs -/

section
variable {w h : ℕ}

/-- What holds between the turns: unless a grid is sent next, the receiver has one of the map in its
place, and is behind only within the changed rectangle. -/
structure InStep (w h : ℕ) (s : MapNode × Option (OccupancyGrid ℚ)) : Prop where
  aligned : s.1.lc.Aligned w h
  windowFits : s.1.lc.WindowFits w h
  publisherFits : s.1.publisher.Fits w h
  view : s.1.publisher.alwaysSendFullCostmap = false →
    s.1.publisher.moved s.1.lc.combined = false → ∃ g, s.2 = some g ∧
      Shows g s.1.lc.combined s.1.publisher.x0 s.1.publisher.y0 s.1.publisher.xn s.1.publisher.yn

/-- The window of the update is handed on and the map stays in its place, or a grid is sent next:
the map is not where it was at the last grid, or all that is sent are grids. -/
def Turn.Steady (turn : Turn w h) (s : MapNode × Option (OccupancyGrid ℚ)) : Prop :=
  ∀ lc', turn.updateMap s.1.lc = some lc' →
    (turn.cyclePositive = true ∧ lc'.combined.originX = s.1.lc.combined.originX ∧
      lc'.combined.originY = s.1.lc.combined.originY) ∨
    s.1.publisher.alwaysSendFullCostmap = true ∨ s.1.publisher.moved lc'.combined = true

def Turn.AllSteady : List (Turn w h) → MapNode × Option (OccupancyGrid ℚ) → Prop
  | [], _ => True
  | turn :: turns, s => turn.Steady s ∧ ∀ s', turn.step s = some s' → AllSteady turns s'

variable {turn : Turn w h} {s s' : MapNode × Option (OccupancyGrid ℚ)}

theorem Turn.updateMap_outside {lc lc' : LayeredCostmap ℚ} (ha : lc.Aligned w h)
    (hfits : lc.WindowFits w h) (hupdate : turn.updateMap lc = some lc') :
    lc'.Aligned w h ∧ lc'.WindowFits w h ∧ lc'.combined.resolution = lc.combined.resolution ∧
      (lc'.combined.originX = lc.combined.originX → lc'.combined.originY = lc.combined.originY →
        ∀ c, lc'.combined.Inside c →
          (lc'.initialized = true → ¬ InWindow lc'.bx0 lc'.by0 lc'.bxn lc'.byn c) →
          lc'.combined.cost c = lc.combined.cost c) := by
  unfold updateMap at hupdate
  cases hinput : turn.input with
  | none =>
    rw [hinput] at hupdate
    obtain rfl := Option.some.inj hupdate
    exact ⟨ha, hfits, rfl, fun _ _ _ _ _ => rfl⟩
  | some input =>
    rw [hinput] at hupdate
    exact input.update_outside ha hfits hupdate

/-- After the update and before the publication. -/
theorem InStep.updated (hs : InStep w h s) (hsteady : turn.Steady s) {lc' : LayeredCostmap ℚ}
    (hupdate : turn.updateMap s.1.lc = some lc') {p : Publisher ℚ}
    (hp : p = if turn.cyclePositive && lc'.initialized then
      s.1.publisher.updateBounds lc'.bx0 lc'.bxn lc'.by0 lc'.byn else s.1.publisher) :
    InStep w h (⟨lc', p⟩, s.2) := by
  obtain ⟨ha', hfits', hres, houtside⟩ := Turn.updateMap_outside hs.aligned hs.windowFits hupdate
  obtain ⟨hx, hxn, hy, hyn⟩ := hfits'
  have halways : p.alwaysSendFullCostmap = s.1.publisher.alwaysSendFullCostmap := by
    rw [hp]
    split_ifs <;> rfl
  have hmoved : p.moved lc'.combined = s.1.publisher.moved lc'.combined := by
    rw [hp]
    split_ifs <;> rfl
  have hfits : p.Fits w h := by
    have hold := hs.publisherFits
    rw [hp]
    split_ifs with hinit
    · exact ⟨max_le hxn hold.xn_le, max_le hyn hold.yn_le, fun _ =>
        (min_le_left _ _).trans (hy.trans (le_max_left _ _))⟩
    · exact hold
  have hwider : ∀ c, ¬ InWindow p.x0 p.y0 p.xn p.yn c →
      ¬ InWindow s.1.publisher.x0 s.1.publisher.y0 s.1.publisher.xn s.1.publisher.yn c ∧
        (turn.cyclePositive = true → lc'.initialized = true →
          ¬ InWindow lc'.bx0 lc'.by0 lc'.bxn lc'.byn c) := by
    intro c hout
    rw [hp] at hout
    unfold InWindow at *
    split_ifs at hout with hinit
    · simp only [Publisher.updateBounds] at hout
      omega
    · exact ⟨hout, fun hcycle h => absurd (Bool.and_eq_true_iff.mpr ⟨hcycle, h⟩) hinit⟩
  refine ⟨ha', ⟨hx, hxn, hy, hyn⟩, hfits, fun hfalse hstays => ?_⟩
  rw [halways] at hfalse
  rw [hmoved] at hstays
  obtain ⟨hcycle, hox, hoy⟩ | htrue | htrue := hsteady lc' hupdate
  · obtain ⟨hsres, hsw, hsh, hsx, hsy⟩ := Publisher.moved_eq_false_iff.mp hstays
    have hw : lc'.combined.sizeX = s.1.lc.combined.sizeX := ha'.sizeX.trans hs.aligned.sizeX.symm
    have hh : lc'.combined.sizeY = s.1.lc.combined.sizeY := ha'.sizeY.trans hs.aligned.sizeY.symm
    obtain ⟨g, hg, hshows⟩ := hs.view hfalse (Publisher.moved_eq_false_iff.mpr
      ⟨hsres.trans (congrArg toFloat hres), hsw.trans hw, hsh.trans hh, hsx.trans hox,
        hsy.trans hoy⟩)
    refine ⟨g, hg, ?_, ?_, fun c hc hout => ?_⟩
    · rw [hshows.info]
      simp only [prepareGrid, mapToWorld, hres, hw, hh, hox, hoy]
    · rw [hshows.length, Costmap2D.length_costmap, Costmap2D.length_costmap, hw, hh]
    · obtain ⟨hout₁, hout₂⟩ := hwider c hout
      have hc₁ : s.1.lc.combined.Inside c := by simpa [Inside, hw, hh] using hc
      have hnumber : lc'.combined.number c = s.1.lc.combined.number c := by
        simp only [number, getIndex, hw]
      rw [houtside hox hoy c hc (hout₂ hcycle), hnumber]
      exact hshows.data c hc₁ hout₁
  · exact absurd (htrue.symm.trans hfalse) (by decide)
  · exact absurd (htrue.symm.trans hstays) (by decide)

/-- One turn, and what a turn that publishes leaves. -/
theorem InStep.step (hs : InStep w h s) (hsteady : turn.Steady s) (hstep : turn.step s = some s') :
    InStep w h s' ∧ (turn.cyclePositive = true → turn.due = true → s'.1.lc.initialized = true →
      s'.2 = some (prepareGrid s'.1.lc.combined)) := by
  unfold Turn.step Turn.iterate at hstep
  obtain ⟨⟨n, message⟩, hiterate, hlast⟩ := Option.bind_eq_some_iff.mp hstep
  obtain rfl := Option.some.inj hlast
  obtain ⟨lc', hupdate, hiterate⟩ := Option.bind_eq_some_iff.mp hiterate
  by_cases hpublish : (turn.cyclePositive && lc'.initialized) = true
  · rw [if_pos hpublish] at hiterate
    have hupdated := hs.updated hsteady hupdate (if_pos hpublish).symm
    by_cases hdue : turn.due = true
    · rw [if_pos hdue] at hiterate
      have hfits := hupdated.publisherFits
      rw [← hupdated.aligned.sizeX, ← hupdated.aligned.sizeY] at hfits
      obtain ⟨p', message', hsent, hmoved, hfits', halways, hreceived⟩ :=
        Publisher.publishCostmap_eq hfits hupdated.view
      rw [hsent] at hiterate
      obtain ⟨rfl, rfl⟩ := Prod.mk.inj (Option.some.inj hiterate)
      rw [hupdated.aligned.sizeX, hupdated.aligned.sizeY] at hfits'
      exact ⟨⟨hupdated.aligned, hupdated.windowFits, hfits', fun _ _ =>
        ⟨_, hreceived, shows_prepareGrid _ _ _ _⟩⟩, fun _ _ _ => hreceived⟩
    · rw [if_neg hdue] at hiterate
      obtain ⟨rfl, rfl⟩ := Prod.mk.inj (Option.some.inj hiterate)
      exact ⟨hupdated, fun _ h => absurd h hdue⟩
  · rw [if_neg hpublish] at hiterate
    obtain ⟨rfl, rfl⟩ := Prod.mk.inj (Option.some.inj hiterate)
    exact ⟨hs.updated hsteady hupdate (if_neg hpublish).symm,
      fun hcycle _ h => absurd (Bool.and_eq_true_iff.mpr ⟨hcycle, h⟩) hpublish⟩

/-- After every publication, however many updates were made since the one before, the receiver has
the grid of the whole map. -/
theorem Turn.published {turns : List (Turn w h)} (hs : InStep w h s)
    (hsteady : Turn.AllSteady turns s) (hrun : Turn.run turns s = some s')
    (hlast : turns.getLast? = some turn) (hcycle : turn.cyclePositive = true)
    (hdue : turn.due = true) (hinit : s'.1.lc.initialized = true) :
    s'.2 = some (prepareGrid s'.1.lc.combined) := by
  induction turns generalizing s with
  | nil => simp at hlast
  | cons turn₁ turns ih =>
    obtain ⟨s₁, hs₁, hrest⟩ := Option.bind_eq_some_iff.mp (List.foldlM_cons.symm.trans hrun)
    obtain ⟨hstep, hpublished⟩ := hs.step hsteady.1 hs₁
    cases turns with
    | nil =>
      obtain rfl := Option.some.inj hrest
      obtain rfl := Option.some.inj hlast
      exact hpublished hcycle hdue hinit
    | cons turn₂ turns =>
      exact ih hstep (hsteady.2 s₁ hs₁) hrest ((List.getLast?_cons_cons).symm.trans hlast)

/-- A map that does not roll stays in its place. -/
theorem Turn.steady_of_static (hs : InStep w h s) (hstatic : s.1.lc.rollingWindow = false)
    (hcycle : turn.cyclePositive = true) :
    turn.Steady s ∧ ∀ s', turn.step s = some s' → s'.1.lc.rollingWindow = false := by
  have hplace : ∀ lc', turn.updateMap s.1.lc = some lc' → lc'.rollingWindow = false ∧
      lc'.combined.originX = s.1.lc.combined.originX ∧
        lc'.combined.originY = s.1.lc.combined.originY := by
    intro lc' hlc'
    unfold updateMap at hlc'
    cases hinput : turn.input with
    | none =>
      rw [hinput] at hlc'
      obtain rfl := Option.some.inj hlc'
      exact ⟨hstatic, rfl, rfl⟩
    | some input =>
      rw [hinput] at hlc'
      exact input.update_static hs.aligned hstatic hlc'
  refine ⟨fun lc' hlc' => Or.inl ⟨hcycle, (hplace lc' hlc').2⟩, fun s' hs' => ?_⟩
  unfold Turn.step Turn.iterate at hs'
  obtain ⟨⟨n, message⟩, hiterate, hlast⟩ := Option.bind_eq_some_iff.mp hs'
  obtain rfl := Option.some.inj hlast
  obtain ⟨lc', hupdate, hiterate⟩ := Option.bind_eq_some_iff.mp hiterate
  have hlc : n.lc = lc' := by
    split_ifs at hiterate with hinit hdue
    · obtain ⟨⟨p, sent⟩, -, hpublish⟩ := Option.bind_eq_some_iff.mp hiterate
      obtain ⟨rfl, -⟩ := Prod.mk.inj (Option.some.inj hpublish)
      rfl
    · obtain ⟨rfl, -⟩ := Prod.mk.inj (Option.some.inj hiterate)
      rfl
    · obtain ⟨rfl, -⟩ := Prod.mk.inj (Option.some.inj hiterate)
      rfl
  exact (congrArg _ hlc).trans (hplace lc' hupdate).1

theorem Turn.allSteady_of_static {turns : List (Turn w h)} (hs : InStep w h s)
    (hstatic : s.1.lc.rollingWindow = false) (hcycle : ∀ turn ∈ turns, turn.cyclePositive = true) :
    AllSteady turns s := by
  induction turns generalizing s with
  | nil => trivial
  | cons turn turns ih =>
    obtain ⟨hfirst, hrest⟩ := List.forall_mem_cons.mp hcycle
    obtain ⟨hsteady, hstays⟩ := @steady_of_static w h turn s hs hstatic hfirst
    exact ⟨hsteady, fun s' hs' => ih (hs.step hsteady hs').1 (hstays s' hs') hrest⟩

/-- The two cells and a publisher that has sent nothing. -/
def freshNode (rollingWindow : Bool) : MapNode where
  lc := { freshCells with rollingWindow }
  publisher :=
    { globalFrame := "map"
      x0 := 2
      xn := 0
      y0 := 1
      yn := 0
      savedOriginX := 0
      savedOriginY := 0
      gridResolution := 0
      gridWidth := 0
      gridHeight := 0
      alwaysSendFullCostmap := false }

/-- An update with one layer. -/
def oneLayer (layer : CellLayer 2 1) (robotX robotY : ℚ) : WindowInput 2 1 :=
  ⟨[layer.windowLayer], [], robotX, robotY⟩

/-- The saved members are not those of the map, so a grid is sent first. -/
theorem inStep_freshNode : InStep 2 1 (freshNode false, none) := by
  refine ⟨⟨by decide +kernel, rfl, rfl, rfl, rfl, rfl, rfl, rfl, rfl⟩,
    ⟨by decide, by decide, by decide, by decide⟩, ⟨by decide, by decide, by decide⟩,
    fun _ hstays => ?_⟩
  exact absurd hstays (by decide +kernel)

/-- At first nothing is seen; then an obstacle, which is sent as one cell. -/
theorem freshNode_published :
    ((Turn.run [⟨some (oneLayer blankLayer 0 0), true, true⟩,
      ⟨some (oneLayer markedLayer 0 0), true, true⟩] (freshNode false, none)).bind
        fun s => s.2.map (·.data)) = some [0, 100] := by
  have hmap : (Turn.run [⟨some (oneLayer blankLayer 0 0), true, true⟩,
      ⟨some (oneLayer markedLayer 0 0), true, true⟩] (freshNode false, none)).map
        (fun s => (s.1.lc.initialized, s.1.lc.combined.costmap)) = some (true, [0, 254]) := by
    decide +kernel
  obtain ⟨s', hs', hcells⟩ := Option.map_eq_some_iff.mp hmap
  obtain ⟨hinit, hcostmap⟩ := Prod.mk.inj hcells
  rw [hs', Option.bind_some,
    Turn.published inStep_freshNode (Turn.allSteady_of_static inStep_freshNode rfl (by simp)) hs' rfl
      rfl rfl hinit]
  rw [Option.map_some, prepareGrid, hcostmap]
  rfl

/-- When the map has gone away and come back between two publications, the receiver keeps an
obstacle that the map has lost. -/
example : (Turn.run [⟨some (oneLayer markedLayer (3 / 4) (1 / 4)), true, true⟩,
    ⟨some (oneLayer blankLayer 3 (1 / 4)), true, false⟩,
    ⟨some (oneLayer blankLayer (3 / 4) (1 / 4)), true, true⟩]
    (freshNode true, none)).map (fun s => (s.2.map (·.data), s.1.lc.combined.costmap)) =
      some (some [0, 100], [0, 0]) := by
  decide +kernel

end

end TitanRobot.Costmap

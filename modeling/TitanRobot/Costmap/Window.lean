import TitanRobot.Costmap.Layered

/-!
# Updates and their windows

Layers that write only into the window that they are given: the loops of a `CostmapLayer` do, and so
does inflation, which reads beyond the window. Whatever else they do, an update then changes only
cells of the window that it notes, if the map stays in its place.
-/
namespace TitanRobot.Costmap
open Costmap2D

/-! ## Writing into a window -/

/-- The second map is the first one but for costs in the window. -/
structure WrittenIn (x0 y0 xn yn : ℕ) (m m' : Costmap2D ℚ) : Prop where
  same : ∃ l h, m' = m.withCostmap l h
  cost_eq : ∀ c, m.Inside c → ¬ InWindow x0 y0 xn yn c → m'.cost c = m.cost c

section
variable {x0 y0 xn yn : ℕ} {m m' m₂ : Costmap2D ℚ}

theorem WrittenIn.repainted (h : WrittenIn x0 y0 xn yn m m') : Repainted m m' m'.cost :=
  ⟨h.same, fun _ _ => rfl⟩

theorem Costmap2D.Repainted.writtenIn {costs : ℤ × ℤ → UInt8} (h : Repainted m m' costs)
    (hout : ∀ c, ¬ InWindow x0 y0 xn yn c → costs c = m.cost c) : WrittenIn x0 y0 xn yn m m' :=
  ⟨h.same, fun c hc hwin => (h.cost_eq c hc).trans (hout c hwin)⟩

theorem WrittenIn.trans (h : WrittenIn x0 y0 xn yn m m') (h' : WrittenIn x0 y0 xn yn m' m₂) :
    WrittenIn x0 y0 xn yn m m₂ where
  same := (h.repainted.trans h'.repainted).same
  cost_eq c hc hwin :=
    (h'.cost_eq c (h.repainted.inside_iff.mpr hc) hwin).trans (h.cost_eq c hc hwin)

end

/-- A layer for maps of one size that writes only into the window. -/
structure WindowLayer (width height : ℕ) extends Layer ℚ where
  writes : ∀ {m m' : Costmap2D ℚ} {x0 y0 xn yn : ℕ}, m.sizeX = width → m.sizeY = height →
    x0 ≤ xn → xn ≤ width → y0 ≤ yn → yn ≤ height → updateCosts m x0 y0 xn yn = some m' →
    WrittenIn x0 y0 xn yn m m'

section
variable {w h : ℕ} {m m' : Costmap2D ℚ} {layers : List (WindowLayer w h)} {x0 y0 xn yn : ℕ}

def CellLayer.windowLayer (layer : CellLayer w h) : WindowLayer w h where
  toLayer := layer.toLayer
  writes hw hh hx hxn hy hyn hupdate := by
    obtain ⟨m₁, hm₁, hpaint⟩ := layer.paints hw hh hx hxn hy hyn
    obtain rfl := Option.some.inj (hm₁.symm.trans hupdate)
    exact hpaint.writtenIn fun c hwin => if_neg hwin

variable (hw : m.sizeX = w) (hh : m.sizeY = h) (hx : x0 ≤ xn) (hxn : xn ≤ w) (hy : y0 ≤ yn)
  (hyn : yn ≤ h)
include hw hh hx hxn hy hyn

theorem writtenIn_foldlM (hfold : (layers.map (·.toLayer)).foldlM
    (fun map layer => layer.updateCosts map x0 y0 xn yn) m = some m') :
    WrittenIn x0 y0 xn yn m m' := by
  induction layers generalizing m with
  | nil =>
    obtain rfl := Option.some.inj hfold
    exact ⟨⟨m.costmap, rfl, rfl⟩, fun _ _ _ => rfl⟩
  | cons layer layers ih =>
    obtain ⟨m₁, hm₁, hrest⟩ := Option.bind_eq_some_iff.mp (List.foldlM_cons.symm.trans hfold)
    have hfirst := layer.writes hw hh hx hxn hy hyn hm₁
    exact hfirst.trans
      (ih (hfirst.repainted.sizeX_eq.trans hw) (hfirst.repainted.sizeY_eq.trans hh) hrest)

theorem writtenIn_recompute
    (hrun : LayeredCostmap.recompute m (layers.map (·.toLayer)) x0 y0 xn yn = some m') :
    WrittenIn x0 y0 xn yn m m' := by
  have hwlt := m.sizeX_lt
  have hhlt := m.sizeY_lt
  rw [LayeredCostmap.recompute, unsigned_of_lt (by omega), unsigned_of_lt (by omega),
    unsigned_of_lt (by omega), unsigned_of_lt (by omega)] at hrun
  obtain ⟨m₁, hm₁, hrest⟩ := Option.bind_eq_some_iff.mp hrun
  obtain ⟨m₂, hm₂, hpaint⟩ := resetMapToValue_eq (m := m) hx (hw ▸ hxn) hy (hh ▸ hyn)
    m.defaultValue
  obtain rfl := Option.some.inj (hm₂.symm.trans hm₁)
  have hreset : WrittenIn x0 y0 xn yn m m₂ := hpaint.writtenIn fun c hwin => if_neg hwin
  exact hreset.trans (writtenIn_foldlM (hpaint.sizeX_eq.trans hw) (hpaint.sizeY_eq.trans hh)
    hx hxn hy hyn hrest)

end

/-! ## One update -/

/-- The input of one update, with any layers that keep to the window. -/
structure WindowInput (w h : ℕ) where
  plugins : List (WindowLayer w h)
  filters : List (WindowLayer w h)
  robotX : ℚ
  robotY : ℚ

/-- The window noted by the last update is on the map. -/
def LayeredCostmap.WindowFits (lc : LayeredCostmap ℚ) (w h : ℕ) : Prop :=
  lc.bx0 ≤ lc.bxn ∧ lc.bxn ≤ w ∧ lc.by0 ≤ lc.byn ∧ lc.byn ≤ h

namespace WindowInput
variable {w h : ℕ}

def update (input : WindowInput w h) (lc : LayeredCostmap ℚ) : Option (LayeredCostmap ℚ) :=
  lc.updateMap (input.plugins.map (·.toLayer)) (input.filters.map (·.toLayer)) input.robotX
    input.robotY

variable {input : WindowInput w h} {lc lc' : LayeredCostmap ℚ}

/-- What an update does to the maps that have moved: nothing, or it writes into the window that it
notes. -/
theorem update_spec (ha : lc.Aligned w h) (hupdate : input.update lc = some lc') :
    ∃ lc₁, lc.roll input.robotX input.robotY = some lc₁ ∧ lc'.Aligned w h ∧
      lc'.rollingWindow = lc₁.rollingWindow ∧ (lc' = lc₁ ∨ lc'.initialized = true ∧
        lc'.WindowFits w h ∧
        WrittenIn lc'.bx0 lc'.by0 lc'.bxn lc'.byn lc₁.combined lc'.combined) := by
  obtain ⟨lc₁, hroll, ha₁, hcases⟩ := LayeredCostmap.updateMap_window ha hupdate
  refine ⟨lc₁, hroll, ?_⟩
  rcases hcases with ⟨rfl, -⟩ |
    ⟨x0, y0, xn, yn, ⟨hx, hxn, hy, hyn⟩, ⟨hux0, huy0, huxn, huyn⟩, -, hcases⟩
  · exact ⟨ha₁, rfl, Or.inl rfl⟩
  have hfits : unsigned x0 ≤ unsigned xn ∧ unsigned xn ≤ w ∧ unsigned y0 ≤ unsigned yn ∧
      unsigned yn ≤ h := by omega
  rcases hcases with ⟨-, combined, hcombined, rfl⟩ |
    ⟨-, primary, copied, combined, hprimary, hcopied, hcombined, rfl⟩
  · have hwritten := writtenIn_recompute ha₁.sizeX ha₁.sizeY hx hxn hy hyn hcombined
    refine ⟨ha₁.repainted (.refl lc₁.primary) hwritten.repainted _ _ _ _, rfl,
      Or.inr ⟨rfl, hfits, ?_⟩⟩
    simp only [LayeredCostmap.updated, hux0, huy0, huxn, huyn]
    exact hwritten
  · have hfirst := writtenIn_recompute (ha₁.sizeX_eq.trans ha₁.sizeX)
      (ha₁.sizeY_eq.trans ha₁.sizeY) hx hxn hy hyn hprimary
    obtain ⟨m₂, hm₂, hpaint₂⟩ := @copyWindow_eq ℚ lc₁.combined primary _ _ _ _
      (hfirst.repainted.sizeX_eq.trans ha₁.sizeX_eq) (hfirst.repainted.sizeY_eq.trans ha₁.sizeY_eq)
      hx (ha₁.sizeX ▸ hxn) hy (ha₁.sizeY ▸ hyn)
    obtain rfl := Option.some.inj (Option.some.inj (hm₂.symm.trans hcopied))
    have hcopy : WrittenIn x0 y0 xn yn lc₁.combined m₂ :=
      hpaint₂.writtenIn fun c hwin => if_neg hwin
    have hwritten := hcopy.trans (writtenIn_foldlM (hpaint₂.sizeX_eq.trans ha₁.sizeX)
      (hpaint₂.sizeY_eq.trans ha₁.sizeY) hx hxn hy hyn hcombined)
    refine ⟨ha₁.repainted hfirst.repainted hwritten.repainted _ _ _ _, rfl, Or.inr ⟨rfl, hfits, ?_⟩⟩
    simp only [LayeredCostmap.updated, hux0, huy0, huxn, huyn]
    exact hwritten

/-- An update that leaves the map in its place changes only cells of the window that it notes. -/
theorem update_outside (ha : lc.Aligned w h) (hfits : lc.WindowFits w h)
    (hupdate : input.update lc = some lc') :
    lc'.Aligned w h ∧ lc'.WindowFits w h ∧ lc'.combined.resolution = lc.combined.resolution ∧
      (lc'.combined.originX = lc.combined.originX → lc'.combined.originY = lc.combined.originY →
        ∀ c, lc'.combined.Inside c →
          (lc'.initialized = true → ¬ InWindow lc'.bx0 lc'.by0 lc'.bxn lc'.byn c) →
          lc'.combined.cost c = lc.combined.cost c) := by
  obtain ⟨lc₁, hroll, ha', -, hcases⟩ := update_spec ha hupdate
  obtain ⟨hx, hy, hres, hsame⟩ := LayeredCostmap.roll_place hroll
  obtain ⟨-, -, hcost⟩ := LayeredCostmap.roll_spec ha hroll
  have hstays : lc₁.combined.originX = lc.combined.originX →
      lc₁.combined.originY = lc.combined.originY →
      ∀ c, lc₁.combined.Inside c → lc₁.combined.cost c = lc.combined.cost c := by
    intro hox hoy c hc
    have hresne := ha.resolution_pos.ne'
    have hshift : lc.shift input.robotX input.robotY = 0 := by
      apply Prod.ext
      · simpa [hresne] using hx.symm.trans hox
      · simpa [hresne] using hy.symm.trans hoy
    rw [(hcost c hc).1, hshift, add_zero]
  rcases hcases with rfl | ⟨hinit, hfits', hwritten⟩
  · have hfits₁ : lc'.WindowFits w h := by
      rw [hsame]
      exact hfits
    exact ⟨ha', hfits₁, hres, fun hox hoy c hc _ => hstays hox hoy c hc⟩
  · have hinside : ∀ c, lc'.combined.Inside c ↔ lc₁.combined.Inside c :=
      fun c => hwritten.repainted.inside_iff
    have hplace : lc'.combined.resolution = lc₁.combined.resolution ∧
        lc'.combined.originX = lc₁.combined.originX ∧
        lc'.combined.originY = lc₁.combined.originY := by
      obtain ⟨l, hl, hmap⟩ := hwritten.same
      rw [hmap]
      exact ⟨rfl, rfl, rfl⟩
    obtain ⟨hres', hox', hoy'⟩ := hplace
    refine ⟨ha', hfits', hres'.trans hres, fun hox hoy c hc hout => ?_⟩
    have hc₁ := (hinside c).mp hc
    rw [hwritten.cost_eq c hc₁ (hout hinit)]
    exact hstays (hox'.symm.trans hox) (hoy'.symm.trans hoy) c hc₁

/-- An update leaves a map that does not roll in its place. -/
theorem update_static (ha : lc.Aligned w h) (hstatic : lc.rollingWindow = false)
    (hupdate : input.update lc = some lc') :
    lc'.rollingWindow = false ∧ lc'.combined.originX = lc.combined.originX ∧
      lc'.combined.originY = lc.combined.originY := by
  obtain ⟨lc₁, hroll, -, hrolling, hcases⟩ := update_spec ha hupdate
  rw [LayeredCostmap.roll, if_neg (by simp [hstatic])] at hroll
  obtain rfl := Option.some.inj hroll
  refine ⟨hrolling.trans hstatic, ?_⟩
  rcases hcases with rfl | ⟨-, -, hwritten⟩
  · exact ⟨rfl, rfl⟩
  · obtain ⟨l, hl, hmap⟩ := hwritten.same
    rw [hmap]
    exact ⟨rfl, rfl⟩

end WindowInput

end TitanRobot.Costmap

import TitanRobot.Costmap.Static

/-!
# A costmap that follows another

A static layer may take as its map the costmap that another node publishes. Its costs then are,
after every publication that it has loaded, those of the master map of the other node, as they come
through the values of the messages. Its cells have the size that the messages give, a `float`.
-/
namespace TitanRobot.Costmap
open Costmap2D
open Metrics (OccupancyGrid)

/-- The callback for a message. -/
def Message.event : Message ℚ → StaticEvent
  | .grid frameId g => .incomingMap frameId g
  | .update u => .incomingUpdate u

/-- A turn of the publishing node, and the calls of `updateBounds` at the other before the next. -/
structure Link (w h : ℕ) where
  turn : Turn w h
  reads : List (Bounds ℚ)

section
variable {w h : ℕ}

def Link.step (s : MapNode × StaticNode) (link : Link w h) : Option (MapNode × StaticNode) := do
  let (n, message) ← link.turn.iterate s.1
  let b ← StaticNode.run
    (message.toList.map Message.event ++ link.reads.map StaticEvent.updateBounds) s.2
  return (n, b)

def Link.run (links : List (Link w h)) (s : MapNode × StaticNode) : Option (MapNode × StaticNode) :=
  links.foldlM Link.step s

end

/-! ## The messages -/

section
variable {m : Costmap2D ℚ} {p p' : Publisher ℚ} {message : Option (Message ℚ)}

theorem validateMsg_prepareGrid {frameId : String} (hframe : frameId ≠ "") (hx : 0 < m.sizeX)
    (hy : 0 < m.sizeY) : validateMsg frameId (prepareGrid m) = true := by
  have hcells := m.cells_lt
  have hsize : ∀ n : ℕ, 0 < n → n < 2 ^ 31 → UInt32.ofNat n ≠ 0 := by
    intro n hpos hlt hzero
    exact hpos.ne' ((toNat_ofNat_of_lt hlt).symm.trans (congrArg UInt32.toNat hzero))
  have hlength : (prepareGrid m).data.length =
      ((prepareGrid m).info.width * (prepareGrid m).info.height).toNat := by
    simp only [prepareGrid, List.length_map, m.length_costmap, UInt32.toNat_mul]
    rw [toNat_ofNat_of_lt m.sizeX_lt, toNat_ofNat_of_lt m.sizeY_lt]
    exact (Nat.mod_eq_of_lt (by omega)).symm
  simp only [validateMsg, hlength, Bool.and_eq_true, bne_iff_ne, beq_self_eq_true, and_true]
  exact ⟨⟨hframe, hsize _ hy m.sizeY_lt⟩, hsize _ hx m.sizeX_lt⟩

/-- What is published: nothing, the grid, or the changed rectangle of a map that stays. -/
theorem Publisher.publishCostmap_message (hfits : p.Fits m.sizeX m.sizeY)
    (h : p.publishCostmap m true true = some (p', message)) :
    p'.globalFrame = p.globalFrame ∧ (message = none ∨
      message = some (.grid p.globalFrame (prepareGrid m)) ∨
      p.alwaysSendFullCostmap = false ∧ p.moved m = false ∧ ∃ u, message = some (.update u) ∧
        u.frameId = p.globalFrame ∧ u.Covers p.x0 p.y0 (p.xn - p.x0) (p.yn - p.y0) ∧
        p.x0 ≤ p.xn ∧ p.y0 ≤ p.yn) := by
  unfold publishCostmap at h
  by_cases hfull : (p.alwaysSendFullCostmap || p.moved m) = true
  · rw [if_pos hfull] at h
    obtain ⟨rfl, rfl⟩ := Prod.mk.inj (Option.some.inj h)
    exact ⟨rfl, Or.inr (Or.inl rfl)⟩
  · rw [if_neg hfull] at h
    obtain ⟨halways, hmoved⟩ : p.alwaysSendFullCostmap = false ∧ p.moved m = false := by
      simpa using hfull
    by_cases hx : p.x0 < p.xn
    · rw [if_pos ⟨hx, rfl⟩] at h
      obtain ⟨u, hu, hlast⟩ := Option.bind_eq_some_iff.mp h
      obtain ⟨rfl, rfl⟩ := Prod.mk.inj (Option.some.inj hlast)
      have hy := hfits.y0_le hx
      obtain ⟨u', hu', hframe, hcovers, -⟩ :=
        prepareUpdate_eq hx.le hfits.xn_le hy hfits.yn_le
      obtain rfl := Option.some.inj (hu'.symm.trans hu)
      exact ⟨rfl, Or.inr (Or.inr ⟨halways, hmoved, u', rfl, hframe, hcovers, hx.le, hy⟩)⟩
    · rw [if_neg fun hsend => hx hsend.1] at h
      obtain ⟨rfl, rfl⟩ := Prod.mk.inj (Option.some.inj h)
      exact ⟨rfl, Or.inl rfl⟩

end

section
variable {w h : ℕ} {turn : Turn w h} {n n' : MapNode} {view : Option (OccupancyGrid ℚ)}
  {sent : Option (Message ℚ)}

/-- A message of a turn is the grid of the map, or an update on the grid that the receiver has. -/
theorem InStep.message (hs : InStep w h (n, view)) (hsteady : turn.Steady (n, view))
    (hiterate : turn.iterate n = some (n', sent)) :
    n'.publisher.globalFrame = n.publisher.globalFrame ∧ ∀ msg, sent = some msg →
      (turn.cyclePositive = true ∧ turn.due = true) ∧
      (msg = .grid n.publisher.globalFrame (prepareGrid n'.lc.combined) ∨
        ∃ u g, msg = .update u ∧ view = some g ∧ u.Fits (n.publisher.globalFrame, g)) := by
  unfold Turn.iterate at hiterate
  obtain ⟨lc', hupdate, hiterate⟩ := Option.bind_eq_some_iff.mp hiterate
  by_cases hready : (turn.cyclePositive && lc'.initialized) = true
  · rw [if_pos hready] at hiterate
    have hcycle := (Bool.and_eq_true_iff.mp hready).1
    have hupdated := hs.updated hsteady hupdate (if_pos hready).symm
    by_cases hdue : turn.due = true
    · rw [if_pos hdue] at hiterate
      obtain ⟨⟨p', sent'⟩, hpublish, hlast⟩ := Option.bind_eq_some_iff.mp hiterate
      obtain ⟨rfl, rfl⟩ := Prod.mk.inj (Option.some.inj hlast)
      have hfits := hupdated.publisherFits
      rw [← hupdated.aligned.sizeX, ← hupdated.aligned.sizeY] at hfits
      obtain ⟨hframe, hcases⟩ := Publisher.publishCostmap_message hfits hpublish
      refine ⟨hframe, fun msg hmsg => ?_⟩
      rcases hcases with rfl | rfl | ⟨halways, hmoved, u, rfl, hu, hcovers, hx, hy⟩
      · exact absurd hmsg (by simp)
      · exact ⟨⟨hcycle, hdue⟩, Or.inl (Option.some.inj hmsg).symm⟩
      · obtain ⟨g, hg, hshows⟩ := hupdated.view halways hmoved
        refine ⟨⟨hcycle, hdue⟩, Or.inr ⟨u, g, (Option.some.inj hmsg).symm, hg, hu, ?_⟩⟩
        obtain ⟨hux, huy, huw, huh⟩ := hcovers
        have hwidth : g.info.width.toNat = w := by
          rw [hshows.info, ← hupdated.aligned.sizeX]
          exact toNat_ofNat_of_lt (Costmap2D.sizeX_lt _)
        have hheight : g.info.height.toNat = h := by
          rw [hshows.info, ← hupdated.aligned.sizeY]
          exact toNat_ofNat_of_lt (Costmap2D.sizeY_lt _)
        have hxn := hupdated.publisherFits.xn_le
        have hyn := hupdated.publisherFits.yn_le
        simp only at hx hy hux huy huw huh hxn hyn
        simp only [hwidth, hheight]
        omega
    · rw [if_neg hdue] at hiterate
      obtain ⟨rfl, rfl⟩ := Prod.mk.inj (Option.some.inj hiterate)
      exact ⟨rfl, fun msg hmsg => absurd hmsg (by simp)⟩
  · rw [if_neg hready] at hiterate
    obtain ⟨rfl, rfl⟩ := Prod.mk.inj (Option.some.inj hiterate)
    exact ⟨rfl, fun msg hmsg => absurd hmsg (by simp)⟩

end

/-! ## Following -/

section
variable {w h : ℕ} {link : Link w h} {s s' : MapNode × StaticNode}

/-- Both nodes between the links: the other has everything that was sent in use. -/
structure Follows (w h : ℕ) (s : MapNode × StaticNode) (view : Option (OccupancyGrid ℚ)) :
    Prop where
  inStep : InStep w h (s.1, view)
  represents : s.2.Represents ⟨view.map (s.1.publisher.globalFrame, ·), none⟩

/-- The publishing costmap does not go away and come back, and what is sent is loaded before the
next message. -/
def Link.Prompt (link : Link w h) (s : MapNode × StaticNode) : Prop :=
  link.turn.Steady (s.1, none) ∧
    (link.turn.cyclePositive = true ∧ link.turn.due = true → link.reads ≠ [])

def Link.AllPrompt : List (Link w h) → MapNode × StaticNode → Prop
  | [], _ => True
  | link :: links, s => link.Prompt s ∧ ∀ s', link.step s = some s' → AllPrompt links s'

/-- The messages of the sender are understood by the other node as a receiver should. -/
theorem receive_eq_step {frameId : String} {m : Costmap2D ℚ} {view : Option (OccupancyGrid ℚ)}
    {msg : Message ℚ} (hframe : frameId ≠ "") (hx : 0 < m.sizeX) (hy : 0 < m.sizeY)
    (hmsg : msg = .grid frameId (prepareGrid m) ∨
      ∃ u g, msg = .update u ∧ view = some g ∧ u.Fits (frameId, g)) :
    (MapView.step ⟨view.map (frameId, ·), none⟩ msg.event).latest =
      (receive view msg).map (frameId, ·) := by
  rcases hmsg with rfl | ⟨u, g, rfl, rfl, hfits⟩
  · have hvalid := validateMsg_prepareGrid hframe hx hy
    cases view <;> simp [MapView.step, MapView.latest, Message.event, receive, hvalid]
  · simp [MapView.step, MapView.latest, Message.event, receive, OccupancyGridUpdate.onto, hfits]

theorem reads_latest (v : MapView) {reads : List (Bounds ℚ)} (hne : reads ≠ []) :
    (reads.map StaticEvent.updateBounds).foldl MapView.step v = ⟨v.latest, none⟩ := by
  induction reads generalizing v with
  | nil => exact absurd rfl hne
  | cons b reads ih =>
    rw [List.map_cons, List.foldl_cons]
    cases reads with
    | nil => rfl
    | cons b' reads => exact ih _ (by simp)

theorem Follows.step {view : Option (OccupancyGrid ℚ)} (hf : Follows w h s view)
    (hframe : s.1.publisher.globalFrame ≠ "") (hw : 0 < w) (hh : 0 < h) (hcells : w * h < 2 ^ 31)
    (hprompt : link.Prompt s) (hstep : link.step s = some s') :
    ∃ view', Follows w h s' view' ∧
      s'.1.publisher.globalFrame = s.1.publisher.globalFrame ∧
      s'.2.layer.parameters = s.2.layer.parameters ∧
      (link.turn.cyclePositive = true → link.turn.due = true → s'.1.lc.initialized = true →
        view' = some (prepareGrid s'.1.lc.combined)) := by
  obtain ⟨n, b⟩ := s
  unfold Link.step at hstep
  obtain ⟨⟨n', sent⟩, hiterate, hstep⟩ := Option.bind_eq_some_iff.mp hstep
  obtain ⟨b', hrun, hlast⟩ := Option.bind_eq_some_iff.mp hstep
  obtain rfl := Option.some.inj hlast
  have hsteady : link.turn.Steady (n, view) := hprompt.1
  have hturn : link.turn.step (n, view) = some (n', sent.elim view (receive view)) := by
    rw [Turn.step, hiterate]
    rfl
  obtain ⟨hinstep, hpublished⟩ := hf.inStep.step hsteady hturn
  obtain ⟨hsame, hsent⟩ := hf.inStep.message hsteady hiterate
  have hx : n'.lc.combined.sizeX = w := hinstep.aligned.sizeX
  have hy : n'.lc.combined.sizeY = h := hinstep.aligned.sizeY
  have hsmall : ∀ e ∈ sent.toList.map Message.event ++ link.reads.map StaticEvent.updateBounds,
      StaticEvent.Small e := by
    intro e he
    rcases List.mem_append.mp he with he | he
    · obtain ⟨msg, hmsg, rfl⟩ := List.mem_map.mp he
      obtain ⟨-, rfl | ⟨u, g, rfl, -⟩⟩ := hsent msg (Option.mem_toList.mp hmsg)
      · simp only [StaticEvent.Small, Message.event, StaticNode.Small, prepareGrid]
        rw [toNat_ofNat_of_lt (Costmap2D.sizeX_lt _), toNat_ofNat_of_lt (Costmap2D.sizeY_lt _), hx,
          hy]
        exact hcells
      · exact trivial
    · obtain ⟨bounds, -, rfl⟩ := List.mem_map.mp he
      exact trivial
  obtain ⟨hrep, hparameters⟩ := hf.represents.run hsmall hrun
  refine ⟨_, ⟨hinstep, ?_⟩, hsame, hparameters, hpublished⟩
  have hviews :
      (sent.toList.map Message.event ++ link.reads.map StaticEvent.updateBounds).foldl MapView.step
        ⟨view.map (n.publisher.globalFrame, ·), none⟩ =
        ⟨(sent.elim view (receive view)).map (n'.publisher.globalFrame, ·), none⟩ := by
    rw [hsame, List.foldl_append]
    cases sent with
    | none =>
      rcases eq_or_ne link.reads [] with hnil | hne
      · simp [hnil]
      · exact reads_latest _ hne
    | some msg =>
      obtain ⟨hdue, hmsg⟩ := hsent msg rfl
      have hlatest := receive_eq_step (m := n'.lc.combined) hframe (hx ▸ hw) (hy ▸ hh) hmsg
      rw [Option.toList_some, List.map_singleton, List.foldl_cons, List.foldl_nil,
        reads_latest _ (hprompt.2 hdue), hlatest]
      rfl
  rw [hviews] at hrep
  exact hrep

/-- After every publication of the one node, once it is loaded at the other, the static layer there
has the size, the resolution and the origin of the grid that is sent, and the costs of all cells of
the master map, as they are translated and interpreted. -/
theorem Link.run_follows {links : List (Link w h)} {view : Option (OccupancyGrid ℚ)}
    (hf : Follows w h s view) (hframe : s.1.publisher.globalFrame ≠ "") (hw : 0 < w) (hh : 0 < h)
    (hcells : w * h < 2 ^ 31) (hprompt : Link.AllPrompt links s) (hrun : Link.run links s = some s')
    (hlast : links.getLast? = some link) (hcycle : link.turn.cyclePositive = true)
    (hdue : link.turn.due = true) (hinit : s'.1.lc.initialized = true) :
    s'.2.layer.Like (prepareGrid s'.1.lc.combined).info ∧
      s'.2.layer.costmap = s'.1.lc.combined.costmap.map fun cost =>
        s.2.layer.parameters.interpretValue (translate cost).toUInt8 := by
  induction links generalizing s view with
  | nil => simp at hlast
  | cons link₁ links ih =>
    obtain ⟨s₁, hs₁, hrest⟩ := Option.bind_eq_some_iff.mp (List.foldlM_cons.symm.trans hrun)
    obtain ⟨view₁, hf₁, hsame, hparameters, hpublished⟩ :=
      hf.step hframe hw hh hcells hprompt.1 hs₁
    cases links with
    | nil =>
      obtain rfl := Option.some.inj hrest
      obtain rfl := Option.some.inj hlast
      have hrep := hf₁.represents
      rw [hpublished hcycle hdue hinit] at hrep
      obtain ⟨hholds, -⟩ := hrep.shown _ rfl
      refine ⟨hholds.like, ?_⟩
      rw [hholds.costmap, hparameters, prepareGrid, List.map_map]
      rfl
    | cons link₂ links =>
      rw [← hparameters]
      exact ih hf₁ (hsame ▸ hframe) (hprompt.2 s₁ hs₁) hrest
        ((List.getLast?_cons_cons).symm.trans hlast)

theorem Link.allPrompt_of_static {links : List (Link w h)} {view : Option (OccupancyGrid ℚ)}
    (hf : Follows w h s view) (hframe : s.1.publisher.globalFrame ≠ "") (hw : 0 < w) (hh : 0 < h)
    (hcells : w * h < 2 ^ 31) (hstatic : s.1.lc.rollingWindow = false)
    (hcycle : ∀ link ∈ links, link.turn.cyclePositive = true)
    (hreads : ∀ link ∈ links, link.reads ≠ []) : AllPrompt links s := by
  induction links generalizing s view with
  | nil => trivial
  | cons link links ih =>
    obtain ⟨hfirst, hcycle⟩ := List.forall_mem_cons.mp hcycle
    obtain ⟨hread, hreads⟩ := List.forall_mem_cons.mp hreads
    obtain ⟨hsteady, hstays⟩ := @Turn.steady_of_static w h link.turn _ hf.inStep hstatic hfirst
    have hprompt : link.Prompt s := ⟨hsteady, fun _ => hread⟩
    refine ⟨hprompt, fun s' hs' => ?_⟩
    obtain ⟨view', hf', hsame, -, -⟩ := hf.step hframe hw hh hcells hprompt hs'
    refine ih hf' (hsame ▸ hframe) ?_ hcycle hreads
    obtain ⟨⟨n', sent⟩, hiterate, hstep⟩ := Option.bind_eq_some_iff.mp hs'
    obtain ⟨b', -, hlast⟩ := Option.bind_eq_some_iff.mp hstep
    obtain rfl := Option.some.inj hlast
    refine hstays (n', sent.elim view (receive view)) ?_
    rw [Turn.step, hiterate]
    rfl

/-- At first nothing is seen; then an obstacle. The other node reads after each turn. -/
def obstacleLinks : List (Link 2 1) :=
  [⟨⟨some (oneLayer blankLayer 0 0), true, true⟩, [⟨0, 0, 0, 0⟩]⟩,
    ⟨⟨some (oneLayer markedLayer 0 0), true, true⟩, [⟨0, 0, 0, 0⟩]⟩]

/-- The obstacle that is sent as one cell is one of the other costmap. -/
theorem newNode_follows :
    (Link.run obstacleLinks (freshNode false, StaticNode.newNode)).map
      (fun s => s.2.layer.costmap) = some [0, 254] := by
  have hfollows : Follows 2 1 (freshNode false, StaticNode.newNode) none :=
    ⟨inStep_freshNode, StaticNode.represents_of_new rfl rfl⟩
  have hmap : (Link.run obstacleLinks (freshNode false, StaticNode.newNode)).map
      (fun s => (s.1.lc.initialized, s.1.lc.combined.costmap)) = some (true, [0, 254]) := by
    decide +kernel
  obtain ⟨s', hs', hcells⟩ := Option.map_eq_some_iff.mp hmap
  obtain ⟨hinit, hcostmap⟩ := Prod.mk.inj hcells
  have hprompt : Link.AllPrompt obstacleLinks (freshNode false, StaticNode.newNode) :=
    Link.allPrompt_of_static hfollows (by decide) (by decide) (by decide) (by decide) rfl
      (by simp [obstacleLinks]) (by simp [obstacleLinks])
  obtain ⟨-, hcosts⟩ := Link.run_follows hfollows (by decide) (by decide) (by decide) (by decide)
    hprompt hs' rfl rfl rfl hinit
  rw [hs', Option.map_some, hcosts, hcostmap]
  rfl

end

end TitanRobot.Costmap

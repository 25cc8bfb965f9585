import TitanRobot.Nav.Launch

/-!
# Costmap layers

The layers and observation sources that Nav2 finds in the merged parameters. The shipped
overlays settle all of them: `selfContained` computes this from the overlays alone, and what
they settle is there over every baseline.
-/
namespace TitanRobot.Nav
open Node

/-- The white space that separates the words read from a stream. -/
def isBlank (c : Char) : Bool := c == ' ' || (9 ≤ c.toNat && c.toNat ≤ 13)

/-- The words of `observation_sources`, as the obstacle layer reads them. -/
def words (s : String) : List String :=
  ((s.toList.splitOnP isBlank).filter (!·.isEmpty)).map String.ofList

def parameter (costmap : String) (p : List String) : List String :=
  costmap :: costmap :: "ros__parameters" :: p

/-- The plugins that read `observation_sources`. -/
def observes (plugin : String) : Bool :=
  plugin == "nav2_costmap_2d::ObstacleLayer" || plugin == "nav2_costmap_2d::VoxelLayer"

/-- A source has the topic and the data type that the overlays give it; where the laser is the
only sensor, it is the laser. -/
def SourceGiven (overlays : List Mapping) (holds : List String → Option Node) (laserOnly : Prop)
    (costmap layer source : String) : Prop :=
  ∃ topic dataType,
    holds (parameter costmap [layer, source, "topic"]) = some (str topic) ∧
    given overlays (parameter costmap [layer, source, "topic"]) = some (str topic) ∧
    holds (parameter costmap [layer, source, "data_type"]) = some (str dataType) ∧
    given overlays (parameter costmap [layer, source, "data_type"]) = some (str dataType) ∧
    (laserOnly → source = "scan" ∧ topic = "/scan" ∧ dataType = "LaserScan")

/-- A layer has the class that the overlays give it, and all its sources if it observes. -/
def LayerGiven (overlays : List Mapping) (holds : List String → Option Node) (laserOnly : Prop)
    (costmap layer : String) : Prop :=
  ∃ plugin,
    holds (parameter costmap [layer, "plugin"]) = some (str plugin) ∧
    given overlays (parameter costmap [layer, "plugin"]) = some (str plugin) ∧
    (observes plugin = true → ∃ sources,
      holds (parameter costmap [layer, "observation_sources"]) = some (str sources) ∧
      ∀ source ∈ words sources, SourceGiven overlays holds laserOnly costmap layer source)

/-- Every layer named in the plugins of the costmap is as the overlays give it. -/
def SelfContained (overlays : List Mapping) (holds : List String → Option Node)
    (laserOnly : Prop) (costmap : String) : Prop :=
  ∃ plugins : List String,
    holds (parameter costmap ["plugins"]) = some (.list (plugins.map str)) ∧
    ∀ layer ∈ plugins, LayerGiven overlays holds laserOnly costmap layer

/-! ## From the overlays alone -/

def strOf : Option Node → Option String
  | some (.scalar (.str s)) => some s
  | _ => none

def strsOf : Option Node → Option (List String)
  | some (.list items) => items.mapM fun item => strOf (some item)
  | _ => none

def sourceSettled (overlays : List Mapping) (laserOnly : Bool) (costmap layer source : String) :
    Bool :=
  match strOf (settled overlays (parameter costmap [layer, source, "topic"])),
    strOf (settled overlays (parameter costmap [layer, source, "data_type"])) with
  | some topic, some dataType =>
    !laserOnly || (source == "scan" && topic == "/scan" && dataType == "LaserScan")
  | _, _ => false

def layerSettled (overlays : List Mapping) (laserOnly : Bool) (costmap layer : String) : Bool :=
  match strOf (settled overlays (parameter costmap [layer, "plugin"])) with
  | some plugin =>
    !observes plugin ||
      match strOf (settled overlays (parameter costmap [layer, "observation_sources"])) with
      | some sources => (words sources).all (sourceSettled overlays laserOnly costmap layer)
      | none => false
  | none => false

/-- The overlays alone settle the layers of the costmap. -/
def selfContained (overlays : List Mapping) (laserOnly : Bool) (costmap : String) : Bool :=
  match strsOf (settled overlays (parameter costmap ["plugins"])) with
  | some plugins => plugins.all (layerSettled overlays laserOnly costmap)
  | none => false

theorem eq_of_strOf {n : Option Node} {s : String} (h : strOf n = some s) : n = some (str s) := by
  unfold strOf at h
  split at h <;> simp_all [str]

theorem eq_of_mapM_strOf {items : List Node} {l : List String}
    (h : items.mapM (fun item => strOf (some item)) = some l) : items = l.map str := by
  induction items generalizing l with
  | nil =>
    obtain rfl : l = [] := by simpa using h.symm
    rfl
  | cons item items ih =>
    rw [List.mapM_cons] at h
    obtain ⟨s, hs, h⟩ := Option.bind_eq_some_iff.mp h
    obtain ⟨l', hl', h⟩ := Option.bind_eq_some_iff.mp h
    obtain rfl := Option.some.inj h
    rw [ih hl', Option.some.inj (eq_of_strOf hs)]
    rfl

theorem eq_of_strsOf {n : Option Node} {l : List String} (h : strsOf n = some l) :
    n = some (.list (l.map str)) := by
  unfold strsOf at h
  split at h
  · rw [eq_of_mapM_strOf h]
  · simp at h

section
variable {overlays : List Mapping} {laserOnly : Bool} {costmap layer source : String}
  {holds : List String → Option Node} (hholds : ∀ p v, settled overlays p = some v → holds p = some v)
include hholds

theorem sourceGiven_of_settled (h : sourceSettled overlays laserOnly costmap layer source = true) :
    SourceGiven overlays holds (laserOnly = true) costmap layer source := by
  unfold sourceSettled at h
  split at h
  · rename_i topic dataType htopic htype
    have ht := eq_of_strOf htopic
    have hd := eq_of_strOf htype
    refine ⟨topic, dataType, hholds _ _ ht, given_of_settled ht, hholds _ _ hd,
      given_of_settled hd, ?_⟩
    intro hlaser
    simpa [hlaser, and_assoc] using h
  · simp at h

theorem layerGiven_of_settled (h : layerSettled overlays laserOnly costmap layer = true) :
    LayerGiven overlays holds (laserOnly = true) costmap layer := by
  unfold layerSettled at h
  split at h
  · rename_i plugin hplugin
    have hp := eq_of_strOf hplugin
    refine ⟨plugin, hholds _ _ hp, given_of_settled hp, fun hobserves => ?_⟩
    rw [hobserves, Bool.not_true, Bool.false_or] at h
    split at h
    · rename_i sources hsources
      refine ⟨sources, hholds _ _ (eq_of_strOf hsources), fun source hsource => ?_⟩
      exact sourceGiven_of_settled hholds (List.all_eq_true.mp h source hsource)
    · simp at h
  · simp at h

theorem selfContained_of_settled (h : selfContained overlays laserOnly costmap = true) :
    SelfContained overlays holds (laserOnly = true) costmap := by
  unfold selfContained at h
  split at h
  · rename_i plugins hplugins
    refine ⟨plugins, hholds _ _ (eq_of_strsOf hplugins), fun layer hlayer => ?_⟩
    exact layerGiven_of_settled hholds (List.all_eq_true.mp h layer hlayer)
  · simp at h

end

/-- The variants that navigate by the laser alone. -/
def Variant.laserOnly : Variant → Bool
  | lidarOnly => true
  | lidarCamera => true
  | lidarDepth => false

theorem overlaysOf_selfContained (variant : Variant) (mode : Mode) :
    selfContained (overlaysOf variant mode) variant.laserOnly "local_costmap" = true ∧
      selfContained (overlaysOf variant mode) variant.laserOnly "global_costmap" = true := by
  cases variant <;> cases mode <;> decide +kernel

/-- Over every baseline, the merged parameters of every variant and mode hold both costmaps as
the overlays give them. -/
theorem merged_selfContained (base : Mapping) (variant : Variant) (mode : Mode) :
    let merged := mergeAll base (overlaysOf variant mode)
    SelfContained (overlaysOf variant mode) merged.get (variant.laserOnly = true)
        "local_costmap" ∧
      SelfContained (overlaysOf variant mode) merged.get (variant.laserOnly = true)
        "global_costmap" := by
  have hholds : ∀ p v, settled (overlaysOf variant mode) p = some v →
      (mergeAll base (overlaysOf variant mode)).get p = some v :=
    fun p v h => get_mergeAll_of_settled h base
  obtain ⟨hlocal, hglobal⟩ := overlaysOf_selfContained variant mode
  exact ⟨selfContained_of_settled hholds hlocal, selfContained_of_settled hholds hglobal⟩

end TitanRobot.Nav

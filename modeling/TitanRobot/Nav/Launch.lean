import TitanRobot.Nav.Overlays

/-!
# The navigation launch

`launch_navigation` up to the parameters that it hands to Nav2.
-/
namespace TitanRobot.Nav
open Node

/-- What `yaml.safe_load` returns for a file. -/
structure Document where
  node : Node
  wf : node.wf = true

/-- The values that `or` takes for false. -/
def falsy : Node → Bool
  | .null => true
  | .scalar (.str s) => s == ""
  | .scalar (.int n) => n == 0
  | .scalar (.float d) => d == .finite 0
  | .scalar (.bool b) => !b
  | .list items => items.isEmpty
  | .mapping entries => entries.isEmpty

def loadYaml (path : String) (data : Document) : Except String Mapping :=
  if falsy data.node then .ok emptyMapping
  else
    match data with
    | ⟨.mapping entries, wf⟩ => .ok ⟨entries, wf⟩
    | _ => .error ("Nav2 parameter file must contain a YAML mapping: " ++ path)

def resolveUseSimTime (mode requested : String) : Except String String :=
  if requested = "" then .ok (if mode = "sim" then "true" else "false")
  else if ["true", "false"].contains requested.toLower then .ok requested.toLower
  else .error "use_sim_time must be 'true' or 'false'."

def Variant.name : Variant → String
  | lidarOnly => "lidar_only"
  | lidarCamera => "lidar_camera"
  | lidarDepth => "lidar_depth"

def Mode.name : Mode → String
  | sim => "sim"
  | real => "real"

def validVariants : List Variant := [.lidarOnly, .lidarCamera, .lidarDepth]

def validModes : List Mode := [.sim, .real]

/-- The parameters and the `use_sim_time` handed to the bringup of Nav2. -/
def launchNavigation (variant mode useSimTime paramsFile : String) (baseline : Document) :
    Except String (Mapping × String) := do
  match validVariants.find? (·.name == variant) with
  | none => .error ("Invalid robot variant: " ++ variant ++ ". Expected: " ++
      ", ".intercalate (validVariants.map Variant.name) ++ ".")
  | some v =>
    match validModes.find? (·.name == mode) with
    | none => .error ("Invalid mode: " ++ mode ++ ". Expected: " ++
        ", ".intercalate (validModes.map Mode.name) ++ ".")
    | some m =>
      let simTime ← resolveUseSimTime mode useSimTime
      let merged ← loadYaml paramsFile baseline
      return (mergeAll merged (overlaysOf v m), simTime)

/-- Nav2 is handed a baseline mapping with the overlays of a valid variant and mode. -/
theorem launchNavigation_ok {variant mode useSimTime paramsFile simTime : String}
    {baseline : Document} {merged : Mapping}
    (h : launchNavigation variant mode useSimTime paramsFile baseline = .ok (merged, simTime)) :
    ∃ (v : Variant) (m : Mode) (base : Mapping), v.name = variant ∧ m.name = mode ∧
      loadYaml paramsFile baseline = .ok base ∧ merged = mergeAll base (overlaysOf v m) := by
  unfold launchNavigation at h
  split at h
  · simp at h
  · rename_i v hv
    split at h
    · simp at h
    · rename_i m hm
      have hvariant : v.name = variant := by simpa using List.find?_some hv
      have hmode : m.name = mode := by simpa using List.find?_some hm
      cases hs : resolveUseSimTime mode useSimTime with
      | error e => simp [hs, bind, Except.bind] at h
      | ok t =>
        cases hl : loadYaml paramsFile baseline with
        | error e => simp [hs, hl, bind, Except.bind] at h
        | ok base =>
          simp only [hs, hl, bind, Except.bind, pure, Except.pure, Except.ok.injEq,
            Prod.mk.injEq] at h
          exact ⟨v, m, base, hvariant, hmode, rfl, h.1.symm⟩

end TitanRobot.Nav

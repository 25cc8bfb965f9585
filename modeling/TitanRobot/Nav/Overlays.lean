import TitanRobot.Nav.Layers

/-!
# The shipped overlays

The overlay files of the robot, as `yaml.safe_load` reads them: one common file, one for each
variant of the sensors, and one for each mode.
-/
namespace TitanRobot.Nav
open Node

def str (s : String) : Node := .scalar (.str s)

def int (n : ℤ) : Node := .scalar (.int n)

/-- A decimal literal, rounded to a double. -/
def float (q : ℚ) : Node := .scalar (.float (.ofRat q))

def bool (b : Bool) : Node := .scalar (.bool b)

inductive Variant where
  | lidarOnly
  | lidarCamera
  | lidarDepth
  deriving DecidableEq

inductive Mode where
  | sim
  | real
  deriving DecidableEq

def inflationLayer : Node :=
  .mapping [("plugin", str "nav2_costmap_2d::InflationLayer"), ("cost_scaling_factor", float 3),
    ("inflation_radius", float (33 / 100))]

/-- `config/common/nav2_common.yaml` -/
def nav2Common : Mapping where
  entries :=
    [("local_costmap", .mapping [("local_costmap", .mapping [("ros__parameters", .mapping
        [("update_frequency", float 5), ("publish_frequency", float 2),
         ("global_frame", str "odom"), ("robot_base_frame", str "base_link"),
         ("rolling_window", bool true), ("width", int 3), ("height", int 3),
         ("resolution", float (5 / 100)), ("robot_radius", float (14 / 100)),
         ("footprint_padding", float (1 / 1000)), ("inflation_layer", inflationLayer)])])]),
     ("global_costmap", .mapping [("global_costmap", .mapping [("ros__parameters", .mapping
        [("update_frequency", float 1), ("publish_frequency", float 1),
         ("global_frame", str "map"), ("robot_base_frame", str "base_link"),
         ("robot_radius", float (14 / 100)), ("footprint_padding", float (1 / 1000)),
         ("resolution", float (5 / 100)), ("track_unknown_space", bool true),
         ("static_layer", .mapping [("plugin", str "nav2_costmap_2d::StaticLayer"),
           ("map_subscribe_transient_local", bool true)]),
         ("inflation_layer", inflationLayer), ("always_send_full_costmap", bool true)])])])]
  wf := by decide +kernel

/-- The section of the laser, the same in every layer that has it. -/
def scanSource : Node :=
  .mapping [("topic", str "/scan"), ("data_type", str "LaserScan"), ("marking", bool true),
    ("clearing", bool true), ("max_obstacle_height", float 2), ("obstacle_max_range", float (25 / 10)),
    ("obstacle_min_range", float 0), ("raytrace_max_range", float 3), ("raytrace_min_range", float 0)]

def pointcloudSource : Node :=
  .mapping [("topic", str "/camera/depth/points"), ("data_type", str "PointCloud2"),
    ("marking", bool true), ("clearing", bool true), ("min_obstacle_height", float 0),
    ("max_obstacle_height", float 2), ("obstacle_max_range", float 3), ("obstacle_min_range", float 0),
    ("raytrace_max_range", float (35 / 10)), ("raytrace_min_range", float 0)]

def obstacleLayer : Node :=
  .mapping [("plugin", str "nav2_costmap_2d::ObstacleLayer"), ("enabled", bool true),
    ("observation_sources", str "scan"), ("scan", scanSource)]

def voxelLayer : Node :=
  .mapping [("plugin", str "nav2_costmap_2d::VoxelLayer"), ("enabled", bool true),
    ("publish_voxel_map", bool true), ("origin_z", float 0), ("z_resolution", float (5 / 100)),
    ("z_voxels", int 16), ("max_obstacle_height", float 2), ("mark_threshold", int 0),
    ("observation_sources", str "scan pointcloud"), ("scan", scanSource),
    ("pointcloud", pointcloudSource)]

/-- The global costmap, the same in every variant. -/
def variantGlobalCostmap : Node :=
  .mapping [("global_costmap", .mapping [("ros__parameters", .mapping
    [("plugins", .list [str "static_layer", str "obstacle_layer", str "inflation_layer"]),
     ("obstacle_layer", obstacleLayer)])])]

/-- The sections of `lidar_only.yaml` and `lidar_camera.yaml`, which are the same. -/
def laserCostmaps : Entries :=
  [("local_costmap", .mapping [("local_costmap", .mapping [("ros__parameters", .mapping
      [("plugins", .list [str "obstacle_layer", str "inflation_layer"]),
       ("obstacle_layer", obstacleLayer)])])]),
   ("global_costmap", variantGlobalCostmap)]

/-- `config/variants/lidar_only.yaml` -/
def lidarOnly : Mapping where
  entries := laserCostmaps
  wf := by decide +kernel

/-- `config/variants/lidar_camera.yaml` -/
def lidarCamera : Mapping where
  entries := laserCostmaps
  wf := by decide +kernel

/-- `config/variants/lidar_depth.yaml` -/
def lidarDepth : Mapping where
  entries :=
    [("local_costmap", .mapping [("local_costmap", .mapping [("ros__parameters", .mapping
        [("plugins", .list [str "voxel_layer", str "inflation_layer"]),
         ("voxel_layer", voxelLayer)])])]),
     ("global_costmap", variantGlobalCostmap)]
  wf := by decide +kernel

/-- `config/modes/sim.yaml` and `config/modes/real.yaml` -/
def modeOverlay (useSimTime : Bool) : Mapping where
  entries := [("/**", .mapping [("ros__parameters", .mapping [("use_sim_time", bool useSimTime)])])]
  wf := by cases useSimTime <;> decide +kernel

def Variant.overlay : Variant → Mapping
  | lidarOnly => Nav.lidarOnly
  | lidarCamera => Nav.lidarCamera
  | lidarDepth => Nav.lidarDepth

def Mode.overlay : Mode → Mapping
  | sim => modeOverlay true
  | real => modeOverlay false

/-- The overlays in the order in which they are merged. -/
def overlaysOf (variant : Variant) (mode : Mode) : List Mapping :=
  [nav2Common, variant.overlay, mode.overlay]

end TitanRobot.Nav

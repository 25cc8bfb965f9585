import TitanRobot.Lib.Effect
import TitanRobot.Lib.Run
import TitanRobot.Lib.Utf8
import TitanRobot.Lib.Regex
import TitanRobot.Lib.Text
import TitanRobot.Bridge.State
import TitanRobot.Bridge.Connect
import TitanRobot.Lib.Lines
import TitanRobot.Bridge.Commands
import TitanRobot.Bridge.Report
import TitanRobot.Bridge.Reader
import TitanRobot.Bridge.Recovery
import TitanRobot.Bridge.FaultCounter
import TitanRobot.Bridge.Odometry
import TitanRobot.Bridge.Fragments
import TitanRobot.Bridge.Acceptance
import TitanRobot.Bridge.Velocity
import TitanRobot.Lib.Dict
import TitanRobot.Nav.Node
import TitanRobot.Nav.Merge
import TitanRobot.Nav.Layers
import TitanRobot.Nav.Nulls
import TitanRobot.Nav.Names
import TitanRobot.Nav.Store
import TitanRobot.Nav.Sharing
import TitanRobot.Nav.InPlace
import TitanRobot.Nav.Overlays
import TitanRobot.Nav.Launch
import TitanRobot.Metrics.Resampling
import TitanRobot.Metrics.Frames
import TitanRobot.Metrics.Indexing
import TitanRobot.Metrics.Reach
import TitanRobot.Metrics.Clearance
import TitanRobot.Metrics.Joining
import TitanRobot.Nav.Costmaps
import TitanRobot.Lib.Grid
import TitanRobot.Lib.Arithmetic
import TitanRobot.Costmap.Map
import TitanRobot.Behavior.Activity
import TitanRobot.Behavior.Recovery
import TitanRobot.Behavior.RoundRobin
import TitanRobot.Behavior.Pipeline
import TitanRobot.Behavior.Engine
import TitanRobot.Costmap.Following

import TitanRobot.Lib.Binary64
import TitanRobot.Lib.Effect

/-!
# State of the serial bridge

The fields of `SerialBridgeNode` that its methods read or write, the messages it fills in
place, and the log of what the node does to its surroundings: the calls on the serial port
and the messages handed to the publisher and the transform broadcaster. A message in the
log is a snapshot, since publishing serialises it. Logger calls and sleeps are left out.
-/
namespace TitanRobot.Bridge
open Effect

/-! ## Messages -/

structure Stamp where
  sec : ℤ
  nanosec : ℕ
  deriving DecidableEq

structure Header where
  stamp : Stamp := ⟨0, 0⟩
  frameId : String := ""
  deriving DecidableEq

structure Point where
  x : Double := .finite 0
  y : Double := .finite 0
  z : Double := .finite 0
  deriving DecidableEq

structure Quaternion where
  x : Double := .finite 0
  y : Double := .finite 0
  z : Double := .finite 0
  w : Double := .finite 1
  deriving DecidableEq

/-- The fields of `nav_msgs/Odometry` that the node writes. -/
structure Odometry where
  header : Header := {}
  childFrameId : String := ""
  position : Point := {}
  orientation : Quaternion := {}
  covariance : List Double := List.replicate 36 (.finite 0)
  twistLinearX : Double := .finite 0
  twistAngularZ : Double := .finite 0
  deriving DecidableEq

structure TransformStamped where
  header : Header := {}
  childFrameId : String := ""
  translation : Point := {}
  rotation : Quaternion := {}
  deriving DecidableEq

/-! ## The serial port -/

/-- The arguments of `serial.Serial`. -/
structure Settings where
  port : String
  baudrate : ℕ
  timeout : ℚ := 1
  writeTimeout : ℚ := 1
  exclusive : Bool := true
  dsrdtr : Bool := false
  rtscts : Bool := false
  deriving DecidableEq

/-- A `serial.Serial` object: which one it is, whether it is open, whether its buffers have
been reset, and the bytes transmitted through it. -/
structure Handle where
  id : ℕ
  isOpen : Bool
  inputReset : Bool := false
  outputReset : Bool := false
  sent : List UInt8 := []
  deriving DecidableEq

/-- Exceptions by class. -/
inductive PyError where
  | serialException
  | osError
  | valueError
  | runtimeError (message : String)
  deriving DecidableEq

inductive Event where
  /-- `serial.Serial(...)` is called while `self.ser` is `held`. -/
  | openPort (settings : Settings) (held : Option Handle)
  | opened (id : ℕ)
  | closePort
  | publish (m : Odometry)
  | sendTransform (t : TransformStamped)
  deriving DecidableEq

/-- A call on the serial port, not a message. -/
def Event.isPort : Event → Bool
  | .openPort .. | .opened _ | .closePort => true
  | .publish _ | .sendTransform _ => false

def Event.isOpenPort : Event → Bool
  | .openPort .. => true
  | _ => false

/-- `self`, the counter of `read_serial`, and whether its loop is still entered. -/
structure SerialBridgeNode where
  serialPort : String
  baudRate : ℕ
  ser : Option Handle := none
  nextId : ℕ := 0
  odomMsg : Odometry := {}
  odomTransform : TransformStamped := {}
  running : Bool := false
  inLoop : Bool := false
  linesReceived : ℕ := 0
  consecutiveErrors : ℕ := 0
  log : List Event := []

/-- `self.ser and self.ser.is_open`. -/
def SerialBridgeNode.portOpen (n : SerialBridgeNode) : Bool := n.ser.any (·.isOpen)

abbrev Py (α : Type) := Comp PyError SerialBridgeNode α

def emit (e : Event) : Py Unit := modify fun n => { n with log := n.log ++ [e] }

@[simp] theorem exec_emit (e : Event) (n : SerialBridgeNode) :
    exec (emit e) n = (.ok (), { n with log := n.log ++ [e] }) := rfl

def setSer (f : Handle → Handle) : Py Unit := modify fun n => { n with ser := n.ser.map f }

@[simp] theorem exec_setSer (f : Handle → Handle) (n : SerialBridgeNode) :
    exec (setSer f) n = (.ok (), { n with ser := n.ser.map f }) := rfl

/-- The events logged between two states of a run. -/
def newEvents (n m : SerialBridgeNode) : List Event := m.log.drop n.log.length

/-- Only the port was used: everything but `self.ser` is unchanged. -/
structure PortFrame (n m : SerialBridgeNode) : Prop where
  same : m = { n with ser := m.ser, nextId := m.nextId, log := m.log }
  log : m.log = n.log ++ newEvents n m
  isPort : ∀ e ∈ newEvents n m, e.isPort

/-- `serial.Serial` is called between the two states. -/
def opensPort (n m : SerialBridgeNode) : Bool := (newEvents n m).any Event.isOpenPort

theorem newEvents_of_log {n m : SerialBridgeNode} {evs : List Event}
    (h : m.log = n.log ++ evs) : newEvents n m = evs := by
  simp [newEvents, h]

theorem newEvents_self (n : SerialBridgeNode) : newEvents n n = [] := by simp [newEvents]

@[simp] theorem opensPort_of_log {n m : SerialBridgeNode} (h : m.log = n.log) :
    opensPort n m = false := by
  simp [opensPort, newEvents, h]

theorem newEvents_trans {n m k : SerialBridgeNode} (h : n.log <+: m.log) (g : m.log <+: k.log) :
    newEvents n k = newEvents n m ++ newEvents m k := by
  obtain ⟨evs, hm⟩ := h
  obtain ⟨evs', hk⟩ := g
  rw [newEvents_of_log hm.symm, newEvents_of_log hk.symm]
  exact newEvents_of_log (by rw [← hk, ← hm, List.append_assoc])

theorem opensPort_trans {n m k : SerialBridgeNode} (h : n.log <+: m.log) (g : m.log <+: k.log) :
    opensPort n k = (opensPort n m || opensPort m k) := by
  rw [opensPort, newEvents_trans h g, List.any_append]
  rfl

theorem PortFrame.refl (n : SerialBridgeNode) : PortFrame n n :=
  ⟨rfl, by simp [newEvents], by simp [newEvents]⟩

section
variable {n m : SerialBridgeNode} (h : PortFrame n m)
include h

theorem PortFrame.running : m.running = n.running := by rw [h.same]

theorem PortFrame.inLoop : m.inLoop = n.inLoop := by rw [h.same]

theorem PortFrame.consecutiveErrors : m.consecutiveErrors = n.consecutiveErrors := by rw [h.same]

end

theorem PortFrame.extends {n m : SerialBridgeNode} (h : PortFrame n m) : n.log <+: m.log :=
  ⟨_, h.log.symm⟩

theorem PortFrame.newEvents_trans {n m k : SerialBridgeNode} (h : PortFrame n m)
    (g : PortFrame m k) : newEvents n k = newEvents n m ++ newEvents m k :=
  Bridge.newEvents_trans h.extends g.extends

theorem PortFrame.trans {n m k : SerialBridgeNode} (h : PortFrame n m) (g : PortFrame m k) :
    PortFrame n k := by
  refine ⟨?_, ?_, ?_⟩
  · rw [g.same, h.same]
  · rw [h.newEvents_trans g, ← List.append_assoc, ← h.log, ← g.log]
  · intro e he
    rw [h.newEvents_trans g, List.mem_append] at he
    exact he.elim (h.isPort e) (g.isPort e)

/-- Appending port events and rebinding `self.ser` is within the frame. -/
theorem PortFrame.of_log {n m : SerialBridgeNode} {evs : List Event}
    (same : m = { n with ser := m.ser, nextId := m.nextId, log := m.log })
    (hlog : m.log = n.log ++ evs) (hport : ∀ e ∈ evs, e.isPort) : PortFrame n m :=
  ⟨same, by rw [newEvents_of_log hlog, hlog], by rwa [newEvents_of_log hlog]⟩

end TitanRobot.Bridge

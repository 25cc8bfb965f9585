import TitanRobot.Bridge.Commands
import TitanRobot.Bridge.Connect
import TitanRobot.Bridge.Report

/-!
# The reader loop

One iteration of the loop of `read_serial` over arbitrary outcomes of its calls, and the
node as a machine: iterations of the loop, commands issued by callbacks and the shutdown
may come in any order. `step_pass` says once what an iteration can do.
-/
namespace TitanRobot.Bridge
open Effect Regex

/-- What `in_waiting` and `readline` raise: SerialException, or a plain OSError. -/
inductive PortFault where
  | serialException
  | osError
  deriving DecidableEq

def PortFault.error : PortFault → PyError
  | .serialException => .serialException
  | .osError => .osError

/-- The surroundings of one iteration. -/
structure Pass where
  rclpyOk : Bool
  inWaiting : Except PortFault ℕ
  readline : Except PortFault (List UInt8)
  now : Stamp
  attempts : ℕ → Attempt

inductive Input where
  | pass (p : Pass)
  | issue (i : Issue)
  | destroyNode

def maxConsecutiveErrors : ℕ := 10

/-! ## One line -/

def setOdomMsg (f : Odometry → Odometry) : Py Unit :=
  modify fun n => { n with odomMsg := f n.odomMsg }

def setOdomTransform (f : TransformStamped → TransformStamped) : Py Unit :=
  modify fun n => { n with odomTransform := f n.odomTransform }

def setConsecutiveErrors (k : ℕ) : Py Unit := modify fun n => { n with consecutiveErrors := k }

/-- The double nearest to `0.01`. -/
def hundredth : Double := .ofRat (1 / 100)

def setVariances (covariance : List Double) : List Double :=
  ((covariance.set 0 hundredth).set 7 hundredth).set 35 hundredth

/-- The inner `try` block. -/
def publishReport (libm : Libm) (now : Stamp) (groups : List (List Char)) : Py Unit := do
  let (x, y, theta) ← lift (floats groups)
  setOdomMsg fun m => { m with header := ⟨now, "odom"⟩, childFrameId := "base_link" }
  setOdomMsg fun m => { m with position := ⟨x, y, .finite 0⟩ }
  let q ← lift (yawToQuaternion libm theta)
  setOdomMsg fun m => { m with orientation := q }
  setOdomMsg fun m => { m with twistLinearX := .finite 0, twistAngularZ := .finite 0 }
  setOdomMsg fun m => { m with covariance := setVariances m.covariance }
  let n ← get
  setOdomTransform fun t => { t with header := { t.header with stamp := n.odomMsg.header.stamp } }
  setOdomTransform fun t => { t with translation := { t.translation with x, y }, rotation := q }
  let n ← get
  emit (.publish n.odomMsg)
  emit (.sendTransform n.odomTransform)
  setConsecutiveErrors 0

/-- What follows `readline`. -/
def handleLine (libm : Libm) (now : Stamp) (raw : List UInt8) : Py Unit :=
  if (lineText raw).isEmpty then pure ()
  else do
    modify fun n => { n with linesReceived := n.linesReceived + 1 }
    match search posRe (lineText raw) with
    | none => pure ()
    | some groups =>
      tryCatch (publishReport libm now groups) fun e =>
        match e with
        | .valueError => pure ()
        | e => throw e

/-! ## One iteration -/

def closePort : Py Unit := do
  emit .closePort
  setSer fun h => { h with isOpen := false }

def reconnect (attempts : ℕ → Attempt) : Py Unit := do
  let n ← get
  if n.ser.isSome then closePort else pure ()
  connectSerial n.serialPort n.baudRate attempts defaultRetries
  setConsecutiveErrors 0

def handleSerialException (attempts : ℕ → Attempt) : Py Unit := do
  modify fun n => { n with consecutiveErrors := n.consecutiveErrors + 1 }
  let n ← get
  if maxConsecutiveErrors ≤ n.consecutiveErrors then
    tryCatch (reconnect attempts) fun _ => pure ()
  else pure ()

/-- The outer `try` block. -/
def readBody (libm : Libm) (p : Pass) : Py Unit := do
  let n ← get
  if n.portOpen then
    let waiting ← lift (p.inWaiting.mapError PortFault.error)
    if 0 < waiting then
      let raw ← lift (p.readline.mapError PortFault.error)
      handleLine libm p.now raw
    else pure ()
  else pure ()

def readPass (libm : Libm) (p : Pass) : Py Unit :=
  tryCatch (readBody libm p) fun e =>
    match e with
    | .serialException => handleSerialException p.attempts
    | _ => pure ()

/-! ## The node -/

def destroyNode : Py Unit := do
  modify fun n => { n with running := false }
  let n ← get
  if n.portOpen then closePort else pure ()

def step (libm : Libm) : Input → SerialBridgeNode → SerialBridgeNode
  | .pass p, n =>
    if n.inLoop then
      if n.running && p.rclpyOk then (exec (readPass libm p) n).2 else { n with inLoop := false }
    else n
  | .issue i, n => (exec i.perform n).2
  | .destroyNode, n => (exec destroyNode n).2

/-- `__init__`; the transform is set up once the reader thread runs. -/
def construct (attempts : ℕ → Attempt) (restart : WriteOutcome) : Py Unit := do
  let n ← get
  connectSerial n.serialPort n.baudRate attempts defaultRetries
  sendRestart restart
  modify fun n => { n with odomMsg := {}, running := true, linesReceived := 0,
                           consecutiveErrors := 0, inLoop := true }
  setOdomTransform fun _ =>
    { header := { frameId := "odom" }, childFrameId := "base_footprint" }

/-! ## What a line does -/

/-- The message published for a pose. -/
def odometry (now : Stamp) (p : Pose) : Odometry where
  header := ⟨now, "odom"⟩
  childFrameId := "base_link"
  position := ⟨p.x, p.y, .finite 0⟩
  orientation := p.orientation
  covariance := setVariances (List.replicate 36 (.finite 0))

/-- The transform sent with it. -/
def transform (now : Stamp) (p : Pose) : TransformStamped where
  header := ⟨now, "odom"⟩
  childFrameId := "base_footprint"
  translation := ⟨p.x, p.y, .finite 0⟩
  rotation := p.orientation

/-- The messages published for a line. -/
def lineMessages (libm : Libm) (now : Stamp) (raw : List UInt8) : List Event :=
  match poseOf libm raw with
  | none => []
  | some p => [.publish (odometry now p), .sendTransform (transform now p)]

/-- The parts of the shared messages that no line overwrites are as constructed. -/
structure Ready (n : SerialBridgeNode) : Prop where
  covariance : setVariances n.odomMsg.covariance = setVariances (List.replicate 36 (.finite 0))
  frameId : n.odomTransform.header.frameId = "odom"
  childFrameId : n.odomTransform.childFrameId = "base_footprint"
  height : n.odomTransform.translation.z = .finite 0

/-- Readiness is about the covariance and the transform only. -/
theorem Ready.congr {n m : SerialBridgeNode} (ready : Ready n)
    (hcov : m.odomMsg.covariance = n.odomMsg.covariance)
    (htransform : m.odomTransform = n.odomTransform) : Ready m := by
  obtain ⟨hcovariance, hframe, hchild, hheight⟩ := ready
  refine ⟨?_, ?_, ?_, ?_⟩
  · rw [hcov, hcovariance]
  · rw [htransform, hframe]
  · rw [htransform, hchild]
  · rw [htransform, hheight]

theorem setVariances_idem (covariance : List Double) :
    setVariances (setVariances covariance) = setVariances covariance := by
  ext1 i
  simp only [setVariances, List.getElem?_set, List.length_set]
  split_ifs <;> rfl

/-- What processing a line changes, and what it leaves as it was. -/
structure LineEffect (libm : Libm) (now : Stamp) (raw : List UInt8) (n m : SerialBridgeNode) :
    Prop where
  same : m = { n with
    odomMsg := m.odomMsg, odomTransform := m.odomTransform, linesReceived := m.linesReceived,
    consecutiveErrors := m.consecutiveErrors, log := m.log }
  counter : m.consecutiveErrors = if (poseOf libm raw).isSome then 0 else n.consecutiveErrors
  log : m.log = n.log ++ lineMessages libm now raw
  ready : Ready m

theorem exec_publishReport_of_pose {libm : Libm} (now : Stamp) {groups : List (List Char)}
    {p : Pose} {n : SerialBridgeNode} (ready : Ready n)
    (h : groupsPose libm groups = .ok p) :
    exec (publishReport libm now groups) n =
      (.ok (), { n with
        odomMsg := odometry now p, odomTransform := transform now p, consecutiveErrors := 0,
        log := n.log ++ [.publish (odometry now p), .sendTransform (transform now p)] }) := by
  obtain ⟨hcov, hframe, hchild, hheight⟩ := ready
  unfold groupsPose at h
  cases hf : floats groups with
  | error e => simp [hf, bind, Except.bind] at h
  | ok v =>
    obtain ⟨x, y, theta⟩ := v
    cases hq : yawToQuaternion libm theta with
    | error e => simp [hf, hq, bind, Except.bind] at h
    | ok q =>
      simp only [hf, hq, bind, Except.bind, pure, Except.pure, Except.ok.injEq] at h
      subst h
      simp [publishReport, exec_bind, hf, hq, setOdomMsg, setOdomTransform, setConsecutiveErrors,
        odometry, transform, hcov, hframe, hchild, hheight]

/-- A line that raises may leave `odom_msg` half written, and nothing else. -/
theorem exec_publishReport_of_error {libm : Libm} {groups : List (List Char)} {e : PyError}
    (h : groupsPose libm groups = .error e) (now : Stamp) (n : SerialBridgeNode) :
    ∃ m : Odometry, m.covariance = n.odomMsg.covariance ∧
      exec (publishReport libm now groups) n = (.error .valueError, { n with odomMsg := m }) := by
  unfold groupsPose at h
  cases hf : floats groups with
  | error e =>
    obtain rfl := onlyValueError_floats groups e hf
    exact ⟨n.odomMsg, rfl, by simp [publishReport, exec_bind, hf]⟩
  | ok v =>
    obtain ⟨x, y, theta⟩ := v
    cases hq : yawToQuaternion libm theta with
    | error e =>
      obtain rfl := onlyValueError_yawToQuaternion libm theta e hq
      refine ⟨{ n.odomMsg with header := ⟨now, "odom"⟩, childFrameId := "base_link",
                               position := ⟨x, y, .finite 0⟩ }, rfl, ?_⟩
      simp [publishReport, exec_bind, hf, hq, setOdomMsg]
    | ok q => simp [hf, hq, bind, Except.bind, pure, Except.pure] at h

theorem poseOf_of_search {libm : Libm} {raw : List UInt8} {groups : List (List Char)}
    (h : search posRe (lineText raw) = some groups) :
    poseOf libm raw = (groupsPose libm groups).toOption := by
  rw [lineText, search_strip] at h
  simp [poseOf, h]

theorem poseOf_of_search_none {libm : Libm} {raw : List UInt8}
    (h : search posRe (lineText raw) = none) : poseOf libm raw = none := by
  rw [lineText, search_strip] at h
  simp [poseOf, h]

theorem handleLine_spec (libm : Libm) (now : Stamp) (raw : List UInt8) {n : SerialBridgeNode}
    (ready : Ready n) :
    (exec (handleLine libm now raw) n).1 = .ok () ∧
      LineEffect libm now raw n (exec (handleLine libm now raw) n).2 := by
  have hquiet : poseOf libm raw = none → ∀ (k : ℕ) (m : Odometry),
      m.covariance = n.odomMsg.covariance →
      LineEffect libm now raw n { n with odomMsg := m, linesReceived := k } := by
    intro hp k m hm
    exact ⟨rfl, by simp [hp], by simp [lineMessages, hp], ready.congr hm rfl⟩
  unfold handleLine
  split_ifs with hempty
  · have hnone : search posRe (lineText raw) = none := by
      rw [List.isEmpty_iff.mp hempty]
      rfl
    exact ⟨rfl, hquiet (poseOf_of_search_none hnone) n.linesReceived n.odomMsg rfl⟩
  · cases hs : search posRe (lineText raw) with
    | none =>
      simp only [exec_bind, exec_modify, exec_pure, true_and]
      exact hquiet (poseOf_of_search_none hs) _ _ rfl
    | some groups =>
      have hpose : poseOf libm raw = (groupsPose libm groups).toOption := poseOf_of_search hs
      cases hg : groupsPose libm groups with
      | error e =>
        obtain ⟨m, hm, hexec⟩ := exec_publishReport_of_error hg now
          { n with linesReceived := n.linesReceived + 1 }
        simp only [exec_bind, exec_modify, exec_tryCatch, hexec, exec_pure, true_and]
        exact hquiet (by rw [hpose, hg]; rfl) _ m hm
      | ok p =>
        have hexec := exec_publishReport_of_pose now
          (n := { n with linesReceived := n.linesReceived + 1 }) (ready.congr rfl rfl) hg
        have hsome : poseOf libm raw = some p := by rw [hpose, hg]; rfl
        simp only [exec_bind, exec_modify, exec_tryCatch, hexec, true_and]
        exact ⟨rfl, by simp [hsome], by simp [lineMessages, hsome],
          ⟨setVariances_idem _, rfl, rfl, rfl⟩⟩

/-! ## What an iteration does -/

/-- How the reading part of an iteration ends. -/
inductive Poll where
  | idle
  | fault (f : PortFault)
  | line (raw : List UInt8)

def Pass.poll (p : Pass) : Poll :=
  match p.inWaiting, p.readline with
  | .error f, _ => .fault f
  | .ok 0, _ => .idle
  | .ok (_ + 1), .error f => .fault f
  | .ok (_ + 1), .ok raw => .line raw

def SerialBridgeNode.afterLine (libm : Libm) (now : Stamp) (raw : List UInt8)
    (n : SerialBridgeNode) : SerialBridgeNode := (exec (handleLine libm now raw) n).2

theorem afterLine_effect (libm : Libm) (now : Stamp) (raw : List UInt8) {n : SerialBridgeNode}
    (ready : Ready n) : LineEffect libm now raw n (n.afterLine libm now raw) :=
  (handleLine_spec libm now raw ready).2

def SerialBridgeNode.afterFault (attempts : ℕ → Attempt) (n : SerialBridgeNode) :
    SerialBridgeNode := (exec (handleSerialException attempts) n).2

theorem exec_readPass (libm : Libm) (p : Pass) {n : SerialBridgeNode} (ready : Ready n) :
    (exec (readPass libm p) n).2 =
      match n.portOpen, p.poll with
      | false, _ => n
      | true, .idle => n
      | true, .fault .osError => n
      | true, .fault .serialException => n.afterFault p.attempts
      | true, .line raw => n.afterLine libm p.now raw := by
  obtain ⟨rclpyOk, inWaiting, readline, now, attempts⟩ := p
  cases hopen : n.portOpen with
  | false => simp [readPass, readBody, exec_tryCatch, exec_bind, hopen]
  | true =>
    rcases inWaiting with f | _ | waiting
    · cases f <;>
        simp [readPass, readBody, exec_tryCatch, exec_bind, hopen, Pass.poll, Except.mapError,
          PortFault.error, SerialBridgeNode.afterFault]
    · simp [readPass, readBody, exec_tryCatch, exec_bind, hopen, Pass.poll, Except.mapError]
    · rcases readline with f | raw
      · cases f <;>
          simp [readPass, readBody, exec_tryCatch, exec_bind, hopen, Pass.poll, Except.mapError,
            PortFault.error, SerialBridgeNode.afterFault]
      · have hok := (handleLine_spec libm now raw ready).1
        simp only [readPass, readBody, exec_tryCatch, exec_bind, exec_get, hopen, if_true,
          Except.mapError, exec_lift, Nat.zero_lt_succ, Pass.poll, SerialBridgeNode.afterLine]
        rw [← Prod.eta (exec (handleLine libm now raw) n), hok]

/-! ## What a fault does -/

def SerialBridgeNode.counted (n : SerialBridgeNode) : SerialBridgeNode :=
  { n with consecutiveErrors := n.consecutiveErrors + 1 }

def SerialBridgeNode.closed (n : SerialBridgeNode) : SerialBridgeNode :=
  { n with ser := n.ser.map fun h => { h with isOpen := false }, log := n.log ++ [.closePort] }

@[simp] theorem portOpen_closed (n : SerialBridgeNode) : n.closed.portOpen = false := by
  cases h : n.ser <;> simp [SerialBridgeNode.closed, SerialBridgeNode.portOpen, h]

theorem exec_closePort (n : SerialBridgeNode) : exec closePort n = (.ok (), n.closed) := rfl

/-- The call of `connect_serial` after a fault, on the port that was just closed. -/
def reconnection (attempts : ℕ → Attempt) (n : SerialBridgeNode) :
    Except PyError Unit × SerialBridgeNode :=
  exec (connectSerial n.serialPort n.baudRate attempts defaultRetries) n.counted.closed

/-- The reconnection touches the port only. -/
theorem reconnection_frame (attempts : ℕ → Attempt) (n : SerialBridgeNode) :
    PortFrame n.counted.closed (reconnection attempts n).2 :=
  connectFrom_frame ..

theorem afterFault_of_lt {n : SerialBridgeNode}
    (h : n.consecutiveErrors + 1 < maxConsecutiveErrors) (attempts : ℕ → Attempt) :
    n.afterFault attempts = n.counted := by
  simp [SerialBridgeNode.afterFault, handleSerialException, exec_bind, Nat.not_le.mpr h,
    SerialBridgeNode.counted]

/-- From the tenth counted fault on, the counter is cleared if the reconnection succeeds. -/
theorem afterFault_of_le {n : SerialBridgeNode} (hopen : n.portOpen = true)
    (h : maxConsecutiveErrors ≤ n.consecutiveErrors + 1) (attempts : ℕ → Attempt) :
    n.afterFault attempts =
      { (reconnection attempts n).2 with
        consecutiveErrors :=
          if (reconnection attempts n).1.toBool then 0 else n.consecutiveErrors + 1 } := by
  have hser : n.counted.ser.isSome := by
    cases hs : n.ser <;> simp_all [SerialBridgeNode.portOpen, SerialBridgeNode.counted]
  have hcall : exec (connectSerial n.counted.serialPort n.counted.baudRate attempts
      defaultRetries) n.counted.closed = reconnection attempts n := rfl
  have hfault : n.afterFault attempts =
      (exec (tryCatch (reconnect attempts) fun _ => pure ()) n.counted).2 := by
    simp [SerialBridgeNode.afterFault, handleSerialException, exec_bind, h,
      SerialBridgeNode.counted]
  have hcounter : (reconnection attempts n).2.consecutiveErrors = n.consecutiveErrors + 1 :=
    (reconnection_frame attempts n).consecutiveErrors
  rw [hfault, exec_tryCatch]
  simp only [reconnect, exec_bind, exec_get, hser, if_true, exec_closePort, hcall]
  generalize reconnection attempts n = r at hcounter ⊢
  obtain ⟨_ | _, m⟩ := r
  · rw [← hcounter]
    rfl
  · rfl

/-- A fault is counted; from the tenth on, it reconnects. -/
theorem afterFault_cases {n : SerialBridgeNode} (hopen : n.portOpen = true)
    (attempts : ℕ → Attempt) :
    (n.consecutiveErrors + 1 < maxConsecutiveErrors ∧ n.afterFault attempts = n.counted) ∨
      (maxConsecutiveErrors ≤ n.consecutiveErrors + 1 ∧ n.afterFault attempts =
        { (reconnection attempts n).2 with
          consecutiveErrors :=
            if (reconnection attempts n).1.toBool then 0 else n.consecutiveErrors + 1 }) := by
  rcases Nat.lt_or_ge (n.consecutiveErrors + 1) maxConsecutiveErrors with hlt | hle
  · exact .inl ⟨hlt, afterFault_of_lt hlt attempts⟩
  · exact .inr ⟨hle, afterFault_of_le hopen hle attempts⟩

theorem reconnection_portOpen (attempts : ℕ → Attempt) (n : SerialBridgeNode) :
    (reconnection attempts n).2.portOpen = true ↔
      ∃ k < defaultRetries, (attempts k).opens false = true := by
  have h := connectFrom_portOpen n.serialPort n.baudRate defaultRetries attempts 0 defaultRetries
    n.counted.closed
  simp only [portOpen_closed, Bool.false_eq_true, false_or, Nat.zero_add] at h
  exact h

/-! ## The machine -/

/-- An iteration that passes the guard of the loop. -/
structure Active (n : SerialBridgeNode) (p : Pass) : Prop where
  inLoop : n.inLoop = true
  running : n.running = true
  rclpyOk : p.rclpyOk = true

instance (n : SerialBridgeNode) (p : Pass) : Decidable (Active n p) :=
  decidable_of_iff (n.inLoop = true ∧ n.running = true ∧ p.rclpyOk = true)
    ⟨fun ⟨h, k, l⟩ => ⟨h, k, l⟩, fun ⟨h, k, l⟩ => ⟨h, k, l⟩⟩

section
variable (libm : Libm) {n : SerialBridgeNode}

theorem step_active {p : Pass} (h : Active n p) (ready : Ready n) :
    step libm (.pass p) n =
      match n.portOpen, p.poll with
      | false, _ => n
      | true, .idle => n
      | true, .fault .osError => n
      | true, .fault .serialException => n.afterFault p.attempts
      | true, .line raw => n.afterLine libm p.now raw := by
  rw [← exec_readPass libm p ready]
  simp [step, h.inLoop, h.running, h.rclpyOk]

/-- Anything but an active iteration only writes to the port, closes it or ends the loop. -/
structure Idle (n m : SerialBridgeNode) : Prop where
  same : m = { n with ser := m.ser, running := m.running, inLoop := m.inLoop, log := m.log }
  running : m.running = true → n.running = true
  inLoop : m.inLoop = true → n.inLoop = true
  log : m.log = n.log ∨ m.log = n.log ++ [.closePort]
  portOpen : m.running = true → m.portOpen = n.portOpen

theorem step_idle {i : Input} (h : ∀ p, i = .pass p → ¬ Active n p) :
    Idle n (step libm i n) := by
  cases i with
  | pass p =>
    have hp := h p rfl
    simp only [step]
    split_ifs with hl hr
    · rw [Bool.and_eq_true] at hr
      exact absurd ⟨hl, hr.1, hr.2⟩ hp
    · exact ⟨rfl, id, by simp, .inl rfl, fun _ => rfl⟩
    · exact ⟨rfl, id, id, .inl rfl, fun _ => rfl⟩
  | issue i =>
    simp only [step]
    cases hopen : n.portOpen with
    | true =>
      rw [exec_issue i hopen]
      refine ⟨rfl, id, id, .inl rfl, fun _ => ?_⟩
      rw [portOpen_map_sent]
    | false =>
      rw [exec_issue_closed i hopen]
      exact ⟨rfl, id, id, .inl rfl, fun _ => rfl⟩
  | destroyNode =>
    simp only [step, destroyNode, exec_bind, exec_modify, exec_get, exec_ite, exec_closePort,
      exec_pure]
    split_ifs
    · exact ⟨rfl, by simp [SerialBridgeNode.closed], by simp [SerialBridgeNode.closed],
        .inr rfl, by simp [SerialBridgeNode.closed]⟩
    · exact ⟨rfl, by simp, by simp, .inl rfl, by simp⟩

theorem Ready.of_frame {n m : SerialBridgeNode} (h : PortFrame n m) (ready : Ready n) :
    Ready m := by
  rw [h.same]
  exact ready.congr rfl rfl

/-- What an active iteration leaves as it was. -/
structure Kept (n m : SerialBridgeNode) : Prop where
  running : m.running = n.running
  inLoop : m.inLoop = n.inLoop
  log : n.log <+: m.log
  ready : Ready m

theorem afterFault_kept (attempts : ℕ → Attempt) (hopen : n.portOpen = true) (ready : Ready n) :
    Kept n (n.afterFault attempts) := by
  rcases afterFault_cases hopen attempts with ⟨-, hfault⟩ | ⟨-, hfault⟩
  · rw [hfault]
    exact ⟨rfl, rfl, List.prefix_rfl, ready.congr rfl rfl⟩
  · have hframe := reconnection_frame attempts n
    have hready : Ready (reconnection attempts n).2 := .of_frame hframe (ready.congr rfl rfl)
    have hlog : n.log <+: (reconnection attempts n).2.log :=
      (List.prefix_append n.log [.closePort]).trans hframe.extends
    rw [hfault]
    exact ⟨hframe.running, hframe.inLoop, hlog, hready.congr rfl rfl⟩

theorem afterLine_kept (now : Stamp) (raw : List UInt8) (ready : Ready n) :
    Kept n (n.afterLine libm now raw) := by
  have heffect := afterLine_effect libm now raw ready
  refine ⟨?_, ?_, ⟨_, heffect.log.symm⟩, heffect.ready⟩
  · rw [heffect.same]
  · rw [heffect.same]

theorem step_kept {p : Pass} (h : Active n p) (ready : Ready n) :
    Kept n (step libm (.pass p) n) := by
  have hrefl : Kept n n := ⟨rfl, rfl, List.prefix_rfl, ready⟩
  rw [step_active libm h ready]
  split
  · exact hrefl
  · exact hrefl
  · exact hrefl
  · rename_i hopen _
    exact afterFault_kept p.attempts hopen ready
  · exact afterLine_kept libm p.now _ ready

/-- A step is an active iteration, or it leaves all but the port and the loop alone. -/
theorem active_or_idle (n : SerialBridgeNode) (i : Input) :
    (∃ p, i = .pass p ∧ Active n p) ∨
      ((∀ p, i = .pass p → ¬ Active n p) ∧ Idle n (step libm i n)) := by
  by_cases hactive : ∃ p, i = .pass p ∧ Active n p
  · exact .inl hactive
  · have hnone : ∀ p, i = .pass p → ¬ Active n p := fun p hi hp => hactive ⟨p, hi, hp⟩
    exact .inr ⟨hnone, step_idle libm hnone⟩

/-- Every step extends the log and keeps the shared messages ready. -/
theorem step_ready (i : Input) (ready : Ready n) :
    Ready (step libm i n) ∧ n.log <+: (step libm i n).log := by
  rcases active_or_idle libm n i with ⟨p, rfl, hp⟩ | ⟨-, hidle⟩
  · have hkept := step_kept libm hp ready
    exact ⟨hkept.ready, hkept.log⟩
  · refine ⟨?_, ?_⟩
    · rw [hidle.same]
      exact ready.congr rfl rfl
    · rcases hidle.log with h | h
      · rw [h]
      · exact ⟨_, h.symm⟩

/-- Every state that a run reaches is ready. -/
theorem run_ready (is : List Input) (ready : Ready n) : Ready (Run.run (step libm) is n) :=
  Run.run_invariant (I := Ready) (fun _ i h => (step_ready libm i h).1) ready is

end

/-! ## Construction -/

/-- The node as `__init__` leaves it, with the reader thread running. -/
structure Started (n : SerialBridgeNode) : Prop where
  portOpen : n.portOpen = true
  running : n.running = true
  inLoop : n.inLoop = true
  counter : n.consecutiveErrors = 0
  ready : Ready n

/-- A constructor that returns has started the node. -/
theorem construct_started {attempts : ℕ → Attempt} {restart : WriteOutcome}
    {n m : SerialBridgeNode} (h : exec (construct attempts restart) n = (.ok (), m)) :
    Started m := by
  have hresult := connectFrom_result n.serialPort n.baudRate defaultRetries attempts 0
    defaultRetries n
  unfold construct at h
  simp only [exec_bind, exec_get, connectSerial] at h
  generalize exec (connectFrom n.serialPort n.baudRate defaultRetries attempts 0 defaultRetries)
    n = r at h hresult
  obtain ⟨result, c⟩ := r
  rcases hresult with ⟨hok, handle, hser, hopen, -⟩ | ⟨message, herr⟩
  · have hc : c.portOpen = true := by simp_all [SerialBridgeNode.portOpen]
    have hrestart := exec_issue ⟨.restart, restart⟩ hc
    simp only [Issue.perform] at hrestart
    simp only at hok
    simp only [hok, hrestart, exec_modify, setOdomTransform, Prod.mk.injEq, true_and] at h
    rw [← h]
    exact ⟨(portOpen_map_sent c _).trans hc, rfl, rfl, rfl, ⟨rfl, rfl, rfl, rfl⟩⟩
  · simp only at herr
    simp [herr] at h

/-- Every call on the port succeeds, unless the port is held open. -/
def working : ℕ → Attempt := fun _ => ⟨fun held => !held, true, true⟩

def startedNode : SerialBridgeNode :=
  (exec (construct working .sent) { serialPort := "/dev/esp32", baudRate := 115200 }).2

theorem startedNode_constructed :
    exec (construct working .sent) { serialPort := "/dev/esp32", baudRate := 115200 } =
      (.ok (), startedNode) := rfl

end TitanRobot.Bridge

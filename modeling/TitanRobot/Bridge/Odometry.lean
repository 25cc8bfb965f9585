import TitanRobot.Bridge.Reader
import TitanRobot.Lib.Run

/-!
# Published odometry

The two shared messages are filled in place and survive from line to line. What a run
publishes is nevertheless a function of the lines it handles, one line at a time:
`lineMessages` of each, in their order.
-/
namespace TitanRobot.Bridge
open Effect Regex Run

/-- The messages among the events of a run. -/
def messages (evs : List Event) : List Event := evs.filter fun e => !e.isPort

/-- A line as `readline` returns it, and the clock when it is handled. -/
structure Line where
  now : Stamp
  raw : List UInt8
  deriving DecidableEq

/-- The line that a step handles. -/
def handledBy (n : SerialBridgeNode) : Input → List Line
  | .pass p =>
    if Active n p ∧ n.portOpen = true then
      match p.poll with
      | .line raw => [⟨p.now, raw⟩]
      | _ => []
    else []
  | _ => []

/-- The lines that a run handles. -/
def handled (libm : Libm) : List Input → SerialBridgeNode → List Line
  | [], _ => []
  | i :: is, n => handledBy n i ++ handled libm is (step libm i n)

variable (libm : Libm) {n : SerialBridgeNode}

theorem messages_append (evs evs' : List Event) :
    messages (evs ++ evs') = messages evs ++ messages evs' := List.filter_append ..

theorem messages_of_isPort {evs : List Event} (h : ∀ e ∈ evs, e.isPort = true) :
    messages evs = [] := by
  simpa [messages] using h

theorem messages_lineMessages (now : Stamp) (raw : List UInt8) :
    messages (lineMessages libm now raw) = lineMessages libm now raw := by
  unfold lineMessages
  split <;> rfl

theorem afterFault_silent (attempts : ℕ → Attempt) (hopen : n.portOpen = true) :
    messages (newEvents n (n.afterFault attempts)) = [] := by
  rcases afterFault_cases hopen attempts with ⟨-, hfault⟩ | ⟨-, hfault⟩
  · have hlog : n.counted.log = n.log ++ [] := by simp [SerialBridgeNode.counted]
    rw [hfault, newEvents_of_log hlog]
    rfl
  · have hframe := reconnection_frame attempts n
    have hlog : (n.afterFault attempts).log =
        n.log ++ ([.closePort] ++ newEvents n.counted.closed (reconnection attempts n).2) := by
      rw [hfault, ← List.append_assoc]
      exact hframe.log
    rw [newEvents_of_log hlog, messages_append, messages_of_isPort hframe.isPort]
    rfl

/-- A step publishes the messages of the line it handles. -/
theorem step_publishes (i : Input) (ready : Ready n) :
    messages (newEvents n (step libm i n)) =
      (handledBy n i).flatMap fun l => lineMessages libm l.now l.raw := by
  rcases active_or_idle libm n i with ⟨p, rfl, hp⟩ | ⟨hinactive, hidle⟩
  · have hself : messages (newEvents n n) = [] := by rw [newEvents_self]; rfl
    rw [step_active libm hp ready]
    cases hopen : n.portOpen with
    | false => simp [handledBy, hopen, hself]
    | true =>
      simp only [handledBy, hp, hopen, and_self, if_true]
      cases p.poll with
      | idle => exact hself
      | line raw =>
        simp only [newEvents_of_log (afterLine_effect libm p.now raw ready).log,
          messages_lineMessages, List.flatMap_singleton]
      | fault f =>
        cases f with
        | osError => exact hself
        | serialException => exact afterFault_silent p.attempts hopen
  · have hnone : handledBy n i = [] := by
      cases i with
      | pass p => simp [handledBy, hinactive p rfl]
      | issue i => rfl
      | destroyNode => rfl
    rw [hnone]
    rcases hidle.log with h | h
    · have hlog : (step libm i n).log = n.log ++ [] := by simpa using h
      rw [newEvents_of_log hlog]
      rfl
    · rw [newEvents_of_log h]
      rfl

theorem run_extends (is : List Input) (ready : Ready n) : n.log <+: (run (step libm) is n).log := by
  induction is generalizing n with
  | nil => exact List.prefix_rfl
  | cons i is ih =>
    obtain ⟨hready, hlog⟩ := step_ready libm i ready
    exact hlog.trans (ih hready)

/-- A run publishes the messages of the lines it handles. -/
theorem run_publishes (is : List Input) (ready : Ready n) :
    messages (newEvents n (run (step libm) is n)) =
      (handled libm is n).flatMap fun l => lineMessages libm l.now l.raw := by
  induction is generalizing n with
  | nil => simp [handled, newEvents_self, messages]
  | cons i is ih =>
    obtain ⟨hready, hlog⟩ := step_ready libm i ready
    rw [run_cons, newEvents_trans hlog (run_extends libm is hready), messages_append,
      step_publishes libm i ready, ih hready, handled, List.flatMap_append]

theorem handledBy_of_mem {i : Input} {l : Line} (h : l ∈ handledBy n i) : handledBy n i = [l] := by
  cases i with
  | pass p =>
    simp only [handledBy] at h ⊢
    split at h
    · rename_i hread
      rw [if_pos hread]
      cases hpoll : p.poll <;> simp_all
    · simp at h
  | issue i => simp [handledBy] at h
  | destroyNode => simp [handledBy] at h

/-- Whether a line raises does not depend on the state it is handled in. -/
theorem poseOf_of_raise {now : Stamp} {raw : List UInt8} {groups : List (List Char)}
    (hs : search posRe (lineText raw) = some groups)
    (hraise : (exec (publishReport libm now groups) n).1 ≠ .ok ()) : poseOf libm raw = none := by
  rw [poseOf_of_search hs]
  unfold groupsPose
  cases hf : floats groups with
  | error e => rfl
  | ok v =>
    obtain ⟨x, y, theta⟩ := v
    cases hq : yawToQuaternion libm theta with
    | error e => simp [hq, bind, Except.bind, Except.toOption]
    | ok q => simp [publishReport, exec_bind, hf, hq, setOdomMsg, setOdomTransform,
        setConsecutiveErrors] at hraise

/-- The pairs that a run of a constructed node publishes are made of one line each, in the
order of the lines, and a step whose line raises publishes nothing. -/
theorem published_of_lines {attempts : ℕ → Attempt} {restart : WriteOutcome}
    {n₀ n : SerialBridgeNode} (h : exec (construct attempts restart) n₀ = (.ok (), n))
    (is : List Input) :
    (messages (newEvents n (run (step libm) is n)) =
      (handled libm is n).flatMap fun l =>
        match poseOf libm l.raw with
        | none => []
        | some p => [.publish (odometry l.now p), .sendTransform (transform l.now p)]) ∧
    ∀ pre i post, is = pre ++ i :: post → ∀ l ∈ handledBy (run (step libm) pre n) i,
      ∀ groups, search posRe (lineText l.raw) = some groups →
      ∀ m, (exec (publishReport libm l.now groups) m).1 ≠ .ok () →
        messages (newEvents (run (step libm) pre n) (run (step libm) (pre ++ [i]) n)) = [] := by
  have ready := (construct_started h).ready
  refine ⟨run_publishes libm is ready, ?_⟩
  intro pre i post _ l hl groups hs m hraise
  have hpre : Ready (run (step libm) pre n) := run_ready libm pre ready
  rw [run_append, run_cons, run_nil, step_publishes libm i hpre, handledBy_of_mem hl,
    List.flatMap_singleton, lineMessages, poseOf_of_raise libm hs hraise]

/-- The bytes of `POS: x =`, `y =` and `theta =` with three values, and a newline. -/
def reportOf (x y theta : List Char) : List UInt8 :=
  Utf8.bytes (['P', 'O', 'S', ':', ' ', 'x', ' ', '=', ' '] ++ x ++ [' ', 'y', ' ', '=', ' '] ++ y ++
    [' ', 't', 'h', 'e', 't', 'a', ' ', '=', ' '] ++ theta ++ ['\n'])

def reportLine : List UInt8 := reportOf ['1'] ['2'] ['0']

/-- A yaw beyond the range of `float`, of which the sine raises. -/
def hugeYaw : List Char := '1' :: List.replicate 309 '0'

def readAt (sec : ℤ) (raw : List UInt8) : Input :=
  .pass ⟨true, .ok raw.length, .ok raw, ⟨sec, 0⟩, working⟩

/-- Three reports. The second raises once its position is in the message; the third has a message of
its own. -/
theorem threeLines_published :
    messages (newEvents startedNode (run (step straight)
      ([readAt 7 reportLine] ++ readAt 8 (reportOf ['5'] ['6'] hugeYaw) ::
        [readAt 9 (reportOf ['3'] ['4'] ['0'])]) startedNode)) =
    [.publish (odometry ⟨7, 0⟩ ⟨.finite 1, .finite 2, { z := .finite 0, w := .finite 1 }⟩),
     .sendTransform (transform ⟨7, 0⟩ ⟨.finite 1, .finite 2, { z := .finite 0, w := .finite 1 }⟩),
     .publish (odometry ⟨9, 0⟩ ⟨.finite 3, .finite 4, { z := .finite 0, w := .finite 1 }⟩),
     .sendTransform (transform ⟨9, 0⟩ ⟨.finite 3, .finite 4, { z := .finite 0, w := .finite 1 }⟩)] ∧
    messages (newEvents (run (step straight) [readAt 7 reportLine] startedNode)
      (run (step straight) ([readAt 7 reportLine] ++
        [readAt 8 (reportOf ['5'] ['6'] hugeYaw)]) startedNode)) = [] := by
  have hpublished := published_of_lines straight startedNode_constructed
    ([readAt 7 reportLine] ++ readAt 8 (reportOf ['5'] ['6'] hugeYaw) ::
      [readAt 9 (reportOf ['3'] ['4'] ['0'])])
  have hraise : (exec (publishReport straight ⟨8, 0⟩ [['5'], ['6'], hugeYaw])
      startedNode).1.toOption.isNone := by decide +kernel
  refine ⟨hpublished.1.trans (by decide +kernel), ?_⟩
  refine hpublished.2 _ _ _ rfl ⟨⟨8, 0⟩, reportOf ['5'] ['6'] hugeYaw⟩ (by decide +kernel)
    [['5'], ['6'], hugeYaw] (by decide +kernel) startedNode fun hok => ?_
  rw [hok] at hraise
  simp [Except.toOption] at hraise

end TitanRobot.Bridge

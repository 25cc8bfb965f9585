import TitanRobot.Bridge.Reader
import TitanRobot.Lib.Run

/-!
# The fault counter

`consecutive_errors` beside the count that the history of the run gives. The two differ
from the first OSError on, which the counter never sees, and from the first non-empty line
that is not published while the counter is not zero, which the counter does not take for a
good read.
-/
namespace TitanRobot.Bridge
open Effect Run

variable (libm : Libm) {n : SerialBridgeNode}

/-- The call of `connect_serial` in this step returned. -/
def reconnected (n : SerialBridgeNode) (p : Pass) : Bool :=
  opensPort n (step libm (.pass p) n) && (reconnection p.attempts n).1.toBool

/-- The port faults since the start of the loop, the last successful reconnection or the last
non-empty line, as this step leaves them. -/
def faultsAfter (n : SerialBridgeNode) (i : Input) (faults : ℕ) : ℕ :=
  match i with
  | .pass p =>
    if Active n p ∧ n.portOpen = true then
      match p.poll with
      | .idle => faults
      | .fault _ => if reconnected libm n p then 0 else faults + 1
      | .line raw => if (lineText raw).isEmpty then faults else 0
    else faults
  | _ => faults

/-- The node together with the count that its history gives. -/
def track (i : Input) (s : SerialBridgeNode × ℕ) : SerialBridgeNode × ℕ :=
  (step libm i s.1, faultsAfter libm s.1 i s.2)

/-- After an iteration on an open port the counter is the count of the history, and the
iteration reconnects exactly at the tenth fault. -/
def Exact (s : SerialBridgeNode × ℕ) (i : Input) : Prop :=
  ∀ p, i = .pass p → Active s.1 p → s.1.portOpen = true →
    (step libm i s.1).consecutiveErrors = faultsAfter libm s.1 i s.2 ∧
      (opensPort s.1 (step libm i s.1) = true ↔
        (∃ f, p.poll = .fault f) ∧ s.2 + 1 = maxConsecutiveErrors)

/-- Faults are SerialExceptions and come while fewer than ten are counted, and a non-empty
line is a report that is published or comes while none is counted. -/
def Counted (n : SerialBridgeNode) (i : Input) : Prop :=
  ∀ p, i = .pass p → Active n p → n.portOpen = true →
    match p.poll with
    | .idle => True
    | .fault f => f = .serialException ∧ n.consecutiveErrors < maxConsecutiveErrors
    | .line raw => lineText raw ≠ [] → n.consecutiveErrors = 0 ∨ (poseOf libm raw).isSome

theorem afterFault_opensPort (attempts : ℕ → Attempt) (hopen : n.portOpen = true) :
    opensPort n (n.afterFault attempts) = true ↔
      maxConsecutiveErrors ≤ n.consecutiveErrors + 1 := by
  rcases afterFault_cases hopen attempts with ⟨hlt, hfault⟩ | ⟨hle, hfault⟩
  · rw [hfault, opensPort_of_log (n := n) (m := n.counted) rfl]
    exact iff_of_false (by simp) (by omega)
  · have hclosed : n.log <+: n.counted.closed.log := List.prefix_append ..
    have hopens : opensPort n (reconnection attempts n).2 = true := by
      rw [opensPort_trans hclosed (reconnection_frame attempts n).extends]
      rw [reconnection, connectSerial, defaultRetries, connectFrom_opensPort, Bool.or_true]
    refine iff_of_true ?_ hle
    rw [hfault]
    exact hopens

theorem afterFault_counter (attempts : ℕ → Attempt) (hopen : n.portOpen = true) :
    (n.afterFault attempts).consecutiveErrors =
      if opensPort n (n.afterFault attempts) && (reconnection attempts n).1.toBool then 0
      else n.consecutiveErrors + 1 := by
  have hopens := afterFault_opensPort attempts hopen
  rcases afterFault_cases hopen attempts with ⟨hlt, hfault⟩ | ⟨hle, hfault⟩
  · have hquiet : opensPort n (n.afterFault attempts) = false := by
      rw [← Bool.not_eq_true, hopens]
      omega
    rw [hquiet, hfault]
    rfl
  · rw [hopens.mpr hle, hfault, Bool.true_and]

theorem faultsAfter_pass {p : Pass} (hp : Active n p) (hopen : n.portOpen = true) (k : ℕ) :
    faultsAfter libm n (.pass p) k =
      match p.poll with
      | .idle => k
      | .fault _ => if reconnected libm n p then 0 else k + 1
      | .line raw => if (lineText raw).isEmpty then k else 0 := by
  simp [faultsAfter, hp, hopen]

theorem poseOf_of_isEmpty {raw : List UInt8} (h : (lineText raw).isEmpty = true) :
    poseOf libm raw = none :=
  poseOf_of_search_none (by rw [List.isEmpty_iff.mp h]; rfl)

/-- On a state whose counter is exact, an iteration on an open port is exact if and only if it
meets the condition. -/
theorem exact_pass_iff {p : Pass} (hp : Active n p) (hopen : n.portOpen = true)
    (ready : Ready n) :
    ((step libm (.pass p) n).consecutiveErrors =
        faultsAfter libm n (.pass p) n.consecutiveErrors ∧
      (opensPort n (step libm (.pass p) n) = true ↔
        (∃ f, p.poll = .fault f) ∧ n.consecutiveErrors + 1 = maxConsecutiveErrors)) ↔
    match p.poll with
    | .idle => True
    | .fault f => f = .serialException ∧ n.consecutiveErrors < maxConsecutiveErrors
    | .line raw => lineText raw ≠ [] → n.consecutiveErrors = 0 ∨ (poseOf libm raw).isSome := by
  have hstep := step_active libm hp ready
  rw [hopen] at hstep
  rw [faultsAfter_pass libm hp hopen]
  cases hpoll : p.poll with
  | idle =>
    rw [hpoll] at hstep
    simp [show step libm (.pass p) n = n from hstep]
  | line raw =>
    rw [hpoll] at hstep
    have heffect := afterLine_effect libm p.now raw ready
    have hquiet : opensPort n (n.afterLine libm p.now raw) = false := by
      rw [opensPort, newEvents_of_log heffect.log, lineMessages]
      split <;> rfl
    simp only at hstep ⊢
    rw [hstep, hquiet, heffect.counter]
    simp only [Bool.false_eq_true, reduceCtorEq, exists_false, false_and, and_true]
    by_cases hempty : (lineText raw).isEmpty = true
    · have hnone := poseOf_of_isEmpty libm hempty
      simp [hnone, List.isEmpty_iff.mp hempty]
    · rw [List.isEmpty_iff] at hempty
      cases hpose : poseOf libm raw <;> simp [hempty]
  | fault f =>
    rw [hpoll] at hstep
    cases f with
    | osError =>
      have hquiet : reconnected libm n p = false := by
        simp [reconnected, show step libm (.pass p) n = n from hstep]
      simp [show step libm (.pass p) n = n from hstep, hquiet]
    | serialException =>
      simp only at hstep ⊢
      have hrec : reconnected libm n p =
          (opensPort n (n.afterFault p.attempts) && (reconnection p.attempts n).1.toBool) := by
        rw [reconnected, hstep]
      have hopens := afterFault_opensPort p.attempts hopen
      rw [hstep, hrec, afterFault_counter p.attempts hopen, hopens]
      simp only [Poll.fault.injEq, exists_eq', true_and]
      omega

theorem exact_iff_counted (i : Input) (ready : Ready n) :
    Exact libm (n, n.consecutiveErrors) i ↔ Counted libm n i := by
  refine forall_congr' fun p => ?_
  constructor
  · rintro h rfl hp hopen
    exact (exact_pass_iff libm hp hopen ready).mp (h rfl hp hopen)
  · rintro h rfl hp hopen
    exact (exact_pass_iff libm hp hopen ready).mpr (h rfl hp hopen)

/-- An exact step keeps the counter and the count of the history equal. -/
theorem track_exact (i : Input) (ready : Ready n) (h : Exact libm (n, n.consecutiveErrors) i) :
    (track libm i (n, n.consecutiveErrors)).1.consecutiveErrors =
      (track libm i (n, n.consecutiveErrors)).2 := by
  rcases active_or_idle libm n i with ⟨p, rfl, hp⟩ | ⟨hnone, hidle⟩
  · cases hopen : n.portOpen with
    | true => exact (h p rfl hp hopen).1
    | false =>
      have hstep := step_active libm hp ready
      rw [hopen] at hstep
      simp [track, faultsAfter, hopen, show step libm (.pass p) n = n from hstep]
  · have hsame : (step libm i n).consecutiveErrors = n.consecutiveErrors := by rw [hidle.same]
    have hfaults : faultsAfter libm n i n.consecutiveErrors = n.consecutiveErrors := by
      cases i with
      | pass p => simp [faultsAfter, hnone p rfl]
      | issue i => rfl
      | destroyNode => rfl
    exact hsame.trans hfaults.symm

/-- When the counter is exact along a run: every iteration of the run meets the condition. -/
theorem counter_exact_iff {attempts : ℕ → Attempt} {restart : WriteOutcome}
    {n₀ n : SerialBridgeNode} (h : exec (construct attempts restart) n₀ = (.ok (), n))
    (is : List Input) :
    (∀ pre i post, is = pre ++ i :: post → Exact libm (run (track libm) pre (n, 0)) i) ↔
      ∀ pre i post, is = pre ++ i :: post → Counted libm (run (step libm) pre n) i := by
  have hstarted := construct_started h
  have hmap : Along (track libm) (fun s i => Counted libm s.1 i) is (n, 0) ↔
      Along (step libm) (Counted libm) is n := along_map Prod.fst fun _ _ => rfl
  rw [← along_iff (P := Exact libm), ← along_iff (P := Counted libm), ← hmap]
  refine along_congr (I := fun s => Ready s.1 ∧ s.1.consecutiveErrors = s.2) ?_ ?_
    ⟨hstarted.ready, hstarted.counter⟩
  · rintro ⟨m, k⟩ i ⟨ready, heq⟩
    obtain rfl : m.consecutiveErrors = k := heq
    exact exact_iff_counted libm i ready
  · rintro ⟨m, k⟩ i ⟨ready, heq⟩ hexact
    obtain rfl : m.consecutiveErrors = k := heq
    exact ⟨(step_ready libm i ready).1, track_exact libm i ready hexact⟩

/-- A reading fault. -/
def portFault (f : PortFault) : Input := .pass ⟨true, .error f, .ok [], ⟨0, 0⟩, working⟩

/-- A line that is no report. -/
def greeting : Input := .pass ⟨true, .ok 1, .ok [79, 75, 10], ⟨0, 0⟩, working⟩

/-- After a fault and a good read the counter is still one. -/
theorem counter_not_exact :
    ¬ ∀ (libm : Libm) (attempts : ℕ → Attempt) (restart : WriteOutcome)
        (n₀ n : SerialBridgeNode), exec (construct attempts restart) n₀ = (.ok (), n) →
      ∀ is pre i post, is = pre ++ i :: post → Exact libm (run (track libm) pre (n, 0)) i := by
  intro hall
  have hexact := hall straight _ _ _ _ startedNode_constructed [portFault .serialException, greeting]
    [portFault .serialException] greeting [] rfl _ rfl (by decide +kernel) (by decide +kernel)
  exact absurd hexact.1 (by decide +kernel)

/-- The second of two faults without a good read in between is counted. -/
theorem two_faults_counted :
    Exact straight (run (track straight) [portFault .serialException] (startedNode, 0))
      (portFault .serialException) := by
  have halong : Along (step straight) (Counted straight)
      [portFault .serialException, portFault .serialException] startedNode := by
    refine ⟨?_, ?_, trivial⟩
    · rintro p hp - -
      obtain rfl := Input.pass.inj hp
      exact ⟨rfl, by decide +kernel⟩
    · rintro p hp - -
      obtain rfl := Input.pass.inj hp
      exact ⟨rfl, by decide +kernel⟩
  exact (counter_exact_iff straight startedNode_constructed
    [portFault .serialException, portFault .serialException]).mpr (along_iff.mp halong)
    [portFault .serialException] (portFault .serialException) [] rfl

end TitanRobot.Bridge

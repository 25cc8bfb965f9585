import TitanRobot.Bridge.Reader
import TitanRobot.Lib.Run

/-!
# Recovery of a closed port

An iteration that finds the port closed sleeps and goes on; only the handler of a fault
reopens it, and a fault needs an open port. So once a reconnection has failed with the port
closed, the loop never tries again.
-/
namespace TitanRobot.Bridge
open Effect Run

variable (libm : Libm) {n : SerialBridgeNode}

/-- While the loop runs and the port is not open, the next iteration calls `serial.Serial`. -/
def Recoverable (n : SerialBridgeNode) : Prop :=
  n.running = true → n.inLoop = true → n.portOpen = false → ∀ p : Pass, p.rclpyOk = true →
    opensPort n (step libm (.pass p) n) = true

/-- A fault that is at least the tenth counted one, with every open of the reconnection
failing. -/
def Exhausts (n : SerialBridgeNode) (i : Input) : Prop :=
  ∃ p, i = .pass p ∧ Active n p ∧ n.portOpen = true ∧ p.poll = .fault .serialException ∧
    maxConsecutiveErrors ≤ n.consecutiveErrors + 1 ∧
    ∀ k < defaultRetries, (p.attempts k).opens false = false

/-- No iteration on a closed port reopens it. -/
theorem recoverable_iff (ready : Ready n) :
    Recoverable libm n ↔ (n.running = true → n.inLoop = true → n.portOpen = true) := by
  constructor
  · intro h hrun hloop
    by_contra hopen
    rw [Bool.not_eq_true] at hopen
    let p : Pass := ⟨true, .ok 0, .ok [], ⟨0, 0⟩, working⟩
    have hreopens := h hrun hloop hopen p rfl
    rw [step_active libm ⟨hloop, hrun, rfl⟩ ready, hopen, opensPort_of_log rfl] at hreopens
    simp at hreopens
  · intro h hrun hloop hopen
    rw [h hrun hloop] at hopen
    simp at hopen

theorem afterFault_portOpen (attempts : ℕ → Attempt) (hopen : n.portOpen = true) :
    (n.afterFault attempts).portOpen = true ↔
      (maxConsecutiveErrors ≤ n.consecutiveErrors + 1 →
        ∃ k < defaultRetries, (attempts k).opens false = true) := by
  rcases afterFault_cases hopen attempts with ⟨hlt, hfault⟩ | ⟨hle, hfault⟩
  · rw [hfault]
    exact iff_of_true hopen fun h => absurd h (by omega)
  · rw [hfault, ← reconnection_portOpen attempts n]
    simp [hle, SerialBridgeNode.portOpen]

theorem recoverable_step_iff (i : Input) (ready : Ready n) (h : Recoverable libm n) :
    Recoverable libm (step libm i n) ↔ ¬ Exhausts n i := by
  rw [recoverable_iff libm (step_ready libm i ready).1]
  rw [recoverable_iff libm ready] at h
  rcases active_or_idle libm n i with ⟨p, rfl, hp⟩ | ⟨hnone, hidle⟩
  · have hopen := h hp.running hp.inLoop
    have hkept := step_kept libm hp ready
    rw [hkept.running, hkept.inLoop, hp.running, hp.inLoop]
    simp only [forall_const]
    have hother : p.poll ≠ .fault .serialException → ¬ Exhausts n (.pass p) := by
      rintro hne ⟨q, heq, -, -, hpoll, -⟩
      obtain rfl := Input.pass.inj heq
      exact hne hpoll
    rw [step_active libm hp ready, hopen]
    cases hpoll : p.poll with
    | idle => exact iff_of_true hopen (hother (by simp [hpoll]))
    | line raw =>
      refine iff_of_true ?_ (hother (by simp [hpoll]))
      have hsame := (afterLine_effect libm p.now raw ready).same
      simp only
      rw [hsame]
      exact hopen
    | fault f =>
      cases f with
      | osError => exact iff_of_true hopen (hother (by simp [hpoll]))
      | serialException =>
        rw [afterFault_portOpen p.attempts hopen]
        constructor
        · rintro hreopen ⟨q, heq, -, -, -, hle, hfail⟩
          obtain rfl := Input.pass.inj heq
          obtain ⟨k, hk, hopens⟩ := hreopen hle
          simp [hfail k hk] at hopens
        · intro hex hle
          by_contra hnone
          refine hex ⟨p, rfl, hp, hopen, hpoll, hle, fun k hk => ?_⟩
          by_contra hopens
          exact hnone ⟨k, hk, by simpa using hopens⟩
  · refine iff_of_true ?_ ?_
    · intro hrun hloop
      rw [hidle.portOpen hrun]
      exact h (hidle.running hrun) (hidle.inLoop hloop)
    · rintro ⟨p, hi, hp, -⟩
      exact hnone p hi hp

theorem Started.recoverable (h : Started n) : Recoverable libm n :=
  (recoverable_iff libm h.ready).mpr fun _ _ => h.portOpen

/-- When every reached state is recoverable: no fault of the run exhausts the reconnection. -/
theorem reached_recoverable_iff {attempts : ℕ → Attempt} {restart : WriteOutcome}
    {n₀ n : SerialBridgeNode} (h : exec (construct attempts restart) n₀ = (.ok (), n))
    (is : List Input) :
    (∀ pre, pre <+: is → Recoverable libm (run (step libm) pre n)) ↔
      ∀ pre i post, is = pre ++ i :: post → ¬ Exhausts (run (step libm) pre n) i := by
  have hstarted := construct_started h
  rw [reached_iff (hstarted.recoverable libm), ← along_iff (P := fun m i => ¬ Exhausts m i)]
  refine along_congr (I := fun m => Ready m ∧ Recoverable libm m) ?_ ?_
    ⟨hstarted.ready, hstarted.recoverable libm⟩
  · rintro m i ⟨ready, hrec⟩
    exact recoverable_step_iff libm i ready hrec
  · rintro m i ⟨ready, -⟩ hrec
    exact ⟨(step_ready libm i ready).1, hrec⟩

/-- A reading fault while the device is unplugged. -/
def unplugged : Input :=
  .pass ⟨true, .error .serialException, .ok [], ⟨0, 0⟩, fun _ => ⟨fun _ => false, true, true⟩⟩

/-- Ten faults and five failed opens leave the loop running on a closed port for good. -/
theorem reached_not_recoverable :
    ¬ ∀ (libm : Libm) (attempts : ℕ → Attempt) (restart : WriteOutcome)
        (n₀ n : SerialBridgeNode), exec (construct attempts restart) n₀ = (.ok (), n) →
      ∀ is, Recoverable libm (run (step libm) is n) := by
  intro hall
  have hrec := hall straight _ _ _ _ startedNode_constructed (List.replicate 10 unplugged)
  have hready : Ready startedNode := (construct_started startedNode_constructed).ready
  rw [recoverable_iff straight (run_ready straight _ hready)] at hrec
  exact absurd (hrec (by decide +kernel) (by decide +kernel)) (by decide +kernel)

/-- Two faults are far from exhausting the reconnection. -/
theorem two_faults_recoverable :
    Recoverable straight (run (step straight) [unplugged, unplugged] startedNode) := by
  have halong : Along (step straight) (fun m i => ¬ Exhausts m i) [unplugged, unplugged]
      startedNode := by
    refine ⟨?_, ?_, trivial⟩
    · rintro ⟨p, -, -, -, -, hle, -⟩
      exact absurd hle (by decide +kernel)
    · rintro ⟨p, -, -, -, -, hle, -⟩
      exact absurd hle (by decide +kernel)
  exact (reached_recoverable_iff straight startedNode_constructed [unplugged, unplugged]).mpr
    (along_iff.mp halong) _ List.prefix_rfl

end TitanRobot.Bridge

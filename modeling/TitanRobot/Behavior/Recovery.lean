import TitanRobot.Behavior.Activity

/-!
# Recovery

What a `RecoveryNode` hears from its children until it finishes.
-/
namespace TitanRobot.Behavior
open Program

namespace RecoveryNode

/-- So many failures of the first child, each made good by the second. -/
def rounds (k : ℕ) : List (ℕ × NodeStatus) :=
  (List.replicate k [(0, .failure), (1, .success)]).flatten

theorem rounds_succ (k : ℕ) : rounds (k + 1) = rounds k ++ [(0, .failure), (1, .success)] := by
  simp [rounds, List.replicate_succ']

/-- The answers that have led to a state. -/
def history (n : RecoveryNode) : List (ℕ × NodeStatus) :=
  rounds n.retryCount ++ if n.currentChildIdx = 1 then [(0, .failure)] else []

/-- The states between ticks. -/
structure Valid (n : RecoveryNode) : Prop where
  idx_lt : n.currentChildIdx < 2
  count_le : n.retryCount ≤ n.numberOfRetries
  count_lt : n.currentChildIdx = 1 → n.retryCount < n.numberOfRetries

/-- The last answers, after so many rounds, and the status that they give. -/
inductive Ending (numberOfRetries k : ℕ) : List (ℕ × NodeStatus) → NodeStatus → Prop where
  | success : Ending numberOfRetries k [(0, .success)] .success
  | noRetries (h : k = numberOfRetries) : Ending numberOfRetries k [(0, .failure)] .failure
  | recoveryFailed (h : k < numberOfRetries) :
    Ending numberOfRetries k [(0, .failure), (1, .failure)] .failure

/-- All the answers of an activity, and its status: the first child succeeds after some rounds, or
fails when there are no retries left, or the second child fails. -/
def Outcome (numberOfRetries : ℕ) (answers : List (ℕ × NodeStatus)) (status : NodeStatus) : Prop :=
  ∃ k ≤ numberOfRetries, ∃ last, answers = rounds k ++ last ∧ Ending numberOfRetries k last status

/-- One run of the loop. -/
theorem loop_trace {n n' : RecoveryNode} {es : List (Event ChildOp.Answer)} {status : NodeStatus}
    (hv : n.Valid) (h : n.loop.Trace es (status, n')) :
    if status = .running then
      n'.Valid ∧ n'.history = n.history ++ settled es ∧ n'.reset = n.reset
    else n' = n.reset ∧ Outcome n.numberOfRetries (n.history ++ settled es) status := by
  induction n using loop.induct generalizing es with
  | case1 n hloop hidx ih =>
    rw [loop, if_pos hloop, if_pos hidx] at h
    obtain ⟨answer, es', rfl, hnext⟩ := trace_perform_bind.mp h
    have hhistory : n.history = rounds n.retryCount := by simp [history, hidx]
    cases answer with
    | success =>
      obtain ⟨hhalt, hresult⟩ := trace_halt_bind hnext
      obtain ⟨rfl, rfl⟩ := Prod.mk.inj hresult
      have hsettled := settled_of_answers hhalt
      rw [if_neg (by decide), settled_tick (by decide), hsettled, hhistory]
      exact ⟨rfl, n.retryCount, hv.count_le, _, rfl, .success⟩
    | failure =>
      rw [settled_tick (by decide)]
      by_cases hretry : n.retryCount < n.numberOfRetries
      · simp only [if_pos hretry] at hnext
        obtain ⟨a, es'', rfl, hagain⟩ := trace_perform_bind.mp hnext
        have hrest := ih ⟨Nat.one_lt_two, hv.count_le, fun _ => hretry⟩ hagain
        have hhistory' : ({ n with currentChildIdx := 1 } : RecoveryNode).history =
            n.history ++ [(0, .failure)] := by simp [history, hidx]
        rw [hhistory', List.append_assoc] at hrest
        exact hrest
      · simp only [if_neg hretry] at hnext
        obtain ⟨hhalt, hresult⟩ := trace_halt_bind hnext
        obtain ⟨rfl, rfl⟩ := Prod.mk.inj hresult
        have hsettled := settled_of_answers hhalt
        have hcount := hv.count_le
        rw [if_neg (by decide), hsettled, hhistory]
        exact ⟨rfl, n.retryCount, hcount, _, rfl, .noRetries (by omega)⟩
    | running =>
      obtain ⟨rfl, hresult⟩ := trace_pure.mp hnext
      obtain ⟨rfl, rfl⟩ := Prod.mk.inj hresult
      rw [if_pos rfl]
      exact ⟨hv, by simp, rfl⟩
    | idle => exact absurd hnext not_trace_throw
  | case2 n hloop hidx ih =>
    have hone : n.currentChildIdx = 1 := by
      have hlt := hv.idx_lt
      omega
    have hretry := hv.count_lt hone
    rw [loop, if_pos hloop, if_neg hidx] at h
    obtain ⟨answer, es', rfl, hnext⟩ := trace_perform_bind.mp h
    have hhistory : n.history = rounds n.retryCount ++ [(0, .failure)] := by simp [history, hone]
    cases answer with
    | success =>
      rw [settled_tick (by decide)]
      obtain ⟨a, es'', rfl, hagain⟩ := trace_perform_bind.mp hnext
      have hrest := ih ⟨Nat.zero_lt_two, hretry, fun h => absurd h Nat.zero_ne_one⟩ hagain
      have hhistory' : ({ n with
          retryCount := n.retryCount + 1
          currentChildIdx := 0 } : RecoveryNode).history = n.history ++ [(1, .success)] := by
        simp [history, hone, rounds_succ]
      rw [hhistory', List.append_assoc] at hrest
      exact hrest
    | failure =>
      obtain ⟨hhalt, hresult⟩ := trace_halt_bind hnext
      obtain ⟨rfl, rfl⟩ := Prod.mk.inj hresult
      have hsettled := settled_of_answers hhalt
      rw [if_neg (by decide), settled_tick (by decide), hsettled, hhistory]
      exact ⟨rfl, n.retryCount, hv.count_le, _, List.append_assoc _ _ _, .recoveryFailed hretry⟩
    | running =>
      obtain ⟨rfl, hresult⟩ := trace_pure.mp hnext
      obtain ⟨rfl, rfl⟩ := Prod.mk.inj hresult
      rw [if_pos rfl]
      exact ⟨hv, by simp, rfl⟩
    | idle => exact absurd hnext not_trace_throw
  | case3 n hout => exact absurd ⟨hv.idx_lt, hv.count_le⟩ hout

theorem activity_history {n n' : RecoveryNode} {es : List (Event ChildOp.Answer)}
    {status : NodeStatus} (hv : n.Valid) (h : Activity loop n es status n') :
    n' = n.reset ∧ Outcome n.numberOfRetries (n.history ++ settled es) status := by
  induction h with
  | last htick hstatus =>
    have hstep := loop_trace hv htick
    rw [if_neg hstatus] at hstep
    exact hstep
  | more htick hrest ih =>
    have hstep := loop_trace hv htick
    rw [if_pos rfl] at hstep
    obtain ⟨hv₁, hhistory, hreset⟩ := hstep
    obtain ⟨hresult, houtcome⟩ := ih hv₁
    have hretries := congrArg (·.numberOfRetries) hreset
    rw [hhistory, List.append_assoc, ← settled_append] at houtcome
    exact ⟨hresult.trans hreset, hretries ▸ houtcome⟩

/-- A round, and whatever can follow it. -/
theorem exists_trace_round {n : RecoveryNode} {es : List (Event ChildOp.Answer)}
    {r : NodeStatus × RecoveryNode} (hidx : n.currentChildIdx = 0)
    (hretry : n.retryCount < n.numberOfRetries)
    (h : ({ n with retryCount := n.retryCount + 1 } : RecoveryNode).loop.Trace es r) :
    ∃ es', n.loop.Trace es' r ∧ settled es' = [(0, .failure), (1, .success)] ++ settled es := by
  refine ⟨⟨.executeTick 0, NodeStatus.failure⟩ :: ⟨.haltChild 0, ()⟩ ::
    ⟨.executeTick 1, NodeStatus.success⟩ :: ⟨.haltChild 1, ()⟩ :: es, ?_, ?_⟩
  · rw [loop, if_pos ⟨by omega, hretry.le⟩, if_pos hidx]
    refine trace_perform_bind.mpr ⟨NodeStatus.failure, _, rfl, ?_⟩
    simp only [if_pos hretry]
    refine trace_perform_bind.mpr ⟨(), _, rfl, ?_⟩
    rw [loop, if_pos ⟨Nat.one_lt_two, hretry.le⟩, if_neg Nat.one_ne_zero]
    refine trace_perform_bind.mpr ⟨NodeStatus.success, _, rfl, ?_⟩
    refine trace_perform_bind.mpr ⟨(), _, rfl, ?_⟩
    rw [← hidx]
    exact h
  · rw [settled_tick (by decide), settled_halt, settled_tick (by decide), settled_halt]
    rfl

theorem exists_trace_ending {n : RecoveryNode} {last : List (ℕ × NodeStatus)}
    {status : NodeStatus} (hidx : n.currentChildIdx = 0) (hcount : n.retryCount ≤ n.numberOfRetries)
    (h : Ending n.numberOfRetries n.retryCount last status) :
    ∃ es, n.loop.Trace es (status, n.reset) ∧ settled es = last := by
  obtain ⟨es, hes, hhalt⟩ := exists_trace_halt_bind n.reset (Prod.mk status)
  have hsettled := settled_of_answers hhalt
  have hloop : n.currentChildIdx < 2 ∧ n.retryCount ≤ n.numberOfRetries := ⟨by omega, hcount⟩
  cases h with
  | success =>
    refine ⟨⟨.executeTick 0, NodeStatus.success⟩ :: es, ?_, by simp [settled_tick, hsettled]⟩
    rw [loop, if_pos hloop, if_pos hidx]
    exact trace_perform_bind.mpr ⟨NodeStatus.success, es, rfl, hes⟩
  | noRetries hk =>
    refine ⟨⟨.executeTick 0, NodeStatus.failure⟩ :: es, ?_, by simp [settled_tick, hsettled]⟩
    rw [loop, if_pos hloop, if_pos hidx]
    refine trace_perform_bind.mpr ⟨NodeStatus.failure, es, rfl, ?_⟩
    simp only [if_neg hk.not_lt]
    exact hes
  | recoveryFailed hk =>
    refine ⟨⟨.executeTick 0, NodeStatus.failure⟩ :: ⟨.haltChild 0, ()⟩ ::
      ⟨.executeTick 1, NodeStatus.failure⟩ :: es, ?_, by simp [settled_tick, hsettled]⟩
    rw [loop, if_pos hloop, if_pos hidx]
    refine trace_perform_bind.mpr ⟨NodeStatus.failure, _, rfl, ?_⟩
    simp only [if_pos hk]
    refine trace_perform_bind.mpr ⟨(), _, rfl, ?_⟩
    rw [loop, if_pos ⟨Nat.one_lt_two, hcount⟩, if_neg Nat.one_ne_zero]
    exact trace_perform_bind.mpr ⟨NodeStatus.failure, es, rfl, hes⟩

/-- Every outcome can come about, even in a single tick. -/
theorem exists_trace_outcome (k : ℕ) {n : RecoveryNode} {last : List (ℕ × NodeStatus)}
    {status : NodeStatus} (hidx : n.currentChildIdx = 0)
    (hcount : n.retryCount + k ≤ n.numberOfRetries)
    (h : Ending n.numberOfRetries (n.retryCount + k) last status) :
    ∃ es, n.loop.Trace es (status, n.reset) ∧ settled es = rounds k ++ last := by
  induction k generalizing n with
  | zero => exact exists_trace_ending hidx hcount h
  | succ k ih =>
    obtain ⟨es, hes, hsettled⟩ := ih (n := { n with retryCount := n.retryCount + 1 }) hidx
      (by simp only; omega) (by rw [show n.retryCount + 1 + k = n.retryCount + (k + 1) by omega]; exact h)
    obtain ⟨es', hes', hround⟩ := exists_trace_round hidx (by omega) hes
    refine ⟨es', hes', ?_⟩
    rw [hround, hsettled]
    rfl

/-- From its first state the node finishes on exactly these answers: any number of rounds up to that
of the retries, in each a failure of the first child and a success of the second, and then a success
of the first child, which is that of the node, or a failure. -/
theorem activity_iff {n : RecoveryNode} (hidx : n.currentChildIdx = 0) (hcount : n.retryCount = 0)
    {answers : List (ℕ × NodeStatus)} {status : NodeStatus} :
    (∃ es n', Activity (fun n => n.tick 2) n es status n' ∧ settled es = answers) ↔
      Outcome n.numberOfRetries answers status := by
  have htick : (fun n : RecoveryNode => n.tick 2) = loop := by
    funext n
    exact if_neg (not_not.mpr rfl)
  rw [htick]
  constructor
  · rintro ⟨es, n', h, rfl⟩
    have hv : n.Valid := ⟨by omega, by omega, fun hone => by omega⟩
    have hhistory : n.history = [] := by simp [history, hidx, hcount, rounds]
    have houtcome := (activity_history hv h).2
    rwa [hhistory] at houtcome
  · rintro ⟨k, hk, last, rfl, hlast⟩
    obtain ⟨es, hes, hsettled⟩ := exists_trace_outcome k hidx (by omega)
      (by rw [hcount, Nat.zero_add]; exact hlast)
    refine ⟨es, n.reset, .last hes ?_, hsettled⟩
    cases hlast <;> decide

/-- With one retry, a failure may be made good. -/
theorem oneRetry_success : ∃ es n', Activity (fun n => RecoveryNode.tick n 2) ⟨"FollowPath", 1, 0, 0⟩ es
    .success n' ∧ settled es = [(0, .failure), (1, .success), (0, .success)] :=
  (activity_iff (n := ⟨"FollowPath", 1, 0, 0⟩) rfl rfl).mpr ⟨1, le_rfl, _, rfl, .success⟩

end RecoveryNode

end TitanRobot.Behavior

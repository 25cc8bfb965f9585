import TitanRobot.Behavior.Activity

/-!
# Pipelines

A `PipelineSequence` ticks the children before the last one again in every tick, so that a failure
of any of them ends it, and goes past a running child only if that child has succeeded before.
-/
namespace TitanRobot.Behavior
open Program

namespace PipelineSequence

/-- A child answers only after all children before it have succeeded. -/
inductive InOrder : List (ℕ × NodeStatus) → Prop where
  | none : InOrder []
  | next {as : List (ℕ × NodeStatus)} {child : ℕ} (status : NodeStatus) (has : InOrder as)
    (hbefore : ∀ c < child, (c, .success) ∈ as) : InOrder (as ++ [(child, status)])

/-- The answers of an activity while it goes on. -/
structure Ongoing (as : List (ℕ × NodeStatus)) : Prop where
  inOrder : InOrder as
  noFailure : ∀ a ∈ as, a.2 ≠ .failure

/-- All the answers of an activity and its status: a success when every child has succeeded at some
time and none has failed, and a failure with the first failure of a child. -/
inductive Outcome (childrenCount : ℕ) : List (ℕ × NodeStatus) → NodeStatus → Prop where
  | success {as : List (ℕ × NodeStatus)} (has : Ongoing as)
    (hall : ∀ c < childrenCount, (c, .success) ∈ as) : Outcome childrenCount as .success
  | failure {as : List (ℕ × NodeStatus)} {child : ℕ} (has : Ongoing as)
    (hchild : child < childrenCount) (hbefore : ∀ c < child, (c, .success) ∈ as) :
    Outcome childrenCount (as ++ [(child, .failure)]) .failure

/-- The children before the last one have succeeded. -/
structure Behind (n : PipelineSequence) (as : List (ℕ × NodeStatus)) : Prop where
  ongoing : Ongoing as
  succeeded : ∀ c < n.lastChildTicked, (c, .success) ∈ as

variable {n n' : PipelineSequence} {m : ℕ} {es : List (Event ChildOp.Answer)}
  {as : List (ℕ × NodeStatus)} {status : NodeStatus}

theorem Ongoing.next {child : ℕ} (h : Ongoing as) (hstatus : status ≠ .failure)
    (hbefore : ∀ c < child, (c, .success) ∈ as) : Ongoing (as ++ [(child, status)]) := by
  refine ⟨.next status h.inOrder hbefore, fun a ha => ?_⟩
  rcases List.mem_append.mp ha with ha | ha
  · exact h.noFailure a ha
  · obtain rfl := List.mem_singleton.mp ha
    exact hstatus

/-- One tick, from a child on. -/
theorem loop_trace {i k : ℕ} (hik : i + k = m) (h : Behind n as)
    (hbefore : ∀ c < i, (c, .success) ∈ as)
    (hloop : (n.loop (List.range' i k)).Trace es (status, n')) :
    if status = .running then n.lastChildTicked ≤ n'.lastChildTicked ∧ Behind n' (as ++ answers es)
    else n' = ⟨0⟩ ∧ Outcome m (as ++ answers es) status := by
  induction k generalizing i as es with
  | zero =>
    obtain ⟨hhalt, hresult⟩ := trace_haltsAll .haltChildren hloop
    obtain ⟨rfl, rfl⟩ := Prod.mk.inj hresult
    rw [if_neg (by decide), hhalt, List.append_nil]
    exact ⟨rfl, .success h.ongoing fun c hc => hbefore c (by omega)⟩
  | succ k ih =>
    rw [List.range'_succ, loop] at hloop
    obtain ⟨answer, es', rfl, hnext⟩ := trace_perform_bind.mp hloop
    rw [answers_tick]
    -- what holds once the child is passed
    have hpass : answer ≠ .failure → (i < n.lastChildTicked ∨ answer = .success) →
        Behind n (as ++ [(i, answer)]) ∧ ∀ c < i + 1, (c, .success) ∈ as ++ [(i, answer)] := by
      intro hanswer hpassed
      have hmono : ∀ c, (c, .success) ∈ as → (c, .success) ∈ as ++ [(i, answer)] :=
        fun c hc => List.mem_append_left _ hc
      refine ⟨⟨h.ongoing.next hanswer hbefore, fun c hc => hmono c (h.succeeded c hc)⟩,
        fun c hc => ?_⟩
      rcases Nat.lt_succ_iff_lt_or_eq.mp hc with hlt | rfl
      · exact hmono c (hbefore c hlt)
      · rcases hpassed with hlast | rfl
        · exact hmono c (h.succeeded c hlast)
        · simp
    cases answer with
    | success =>
      obtain ⟨hbehind, hsucceeded⟩ := hpass nofun (Or.inr rfl)
      have hrest := ih (by omega) hbehind hsucceeded hnext
      rwa [List.append_assoc] at hrest
    | failure =>
      obtain ⟨hhalt, hresult⟩ := trace_haltsAll .haltChildren hnext
      obtain ⟨rfl, rfl⟩ := Prod.mk.inj hresult
      rw [if_neg (by decide), hhalt]
      exact ⟨rfl, .failure h.ongoing (by omega) hbefore⟩
    | running =>
      by_cases hlast : n.lastChildTicked ≤ i
      · simp only [if_pos hlast] at hnext
        obtain ⟨rfl, hresult⟩ := trace_pure.mp hnext
        obtain ⟨rfl, rfl⟩ := Prod.mk.inj hresult
        rw [if_pos rfl]
        refine ⟨hlast, h.ongoing.next (by decide) hbefore, fun c hc => ?_⟩
        exact List.mem_append_left _ (hbefore c hc)
      · simp only [if_neg hlast] at hnext
        obtain ⟨hbehind, hsucceeded⟩ := hpass nofun (Or.inl (by omega))
        have hrest := ih (by omega) hbehind hsucceeded hnext
        rwa [List.append_assoc] at hrest
    | idle => exact absurd hnext not_trace_throw

theorem tick_trace (h : Behind n as) (htick : (n.tick m).Trace es (status, n')) :
    if status = .running then n.lastChildTicked ≤ n'.lastChildTicked ∧ Behind n' (as ++ answers es)
    else n' = ⟨0⟩ ∧ Outcome m (as ++ answers es) status := by
  refine loop_trace (Nat.zero_add m) h (fun c hc => absurd hc (Nat.not_lt_zero c)) ?_
  rw [← List.range_eq_range']
  exact htick

theorem activity_behind (h : Behind n as)
    (hactivity : Activity (fun n => n.tick m) n es status n') :
    n' = ⟨0⟩ ∧ Outcome m (as ++ answers es) status := by
  induction hactivity generalizing as with
  | last htick hstatus =>
    have hstep := tick_trace h htick
    rw [if_neg hstatus] at hstep
    exact hstep
  | more htick hrest ih =>
    have hstep := tick_trace h htick
    rw [if_pos rfl] at hstep
    rw [answers_append, ← List.append_assoc]
    exact ih hstep.2

/-- Over any activity of a new node, a child answers only after all children before it have
succeeded; it ends with the first failure of a child, or else when all children have succeeded, and
the node is as new. -/
theorem activity_outcome (hactivity : Activity (fun n => n.tick m) ⟨0⟩ es status n') :
    n' = ⟨0⟩ ∧ Outcome m (answers es) status := by
  have hnew : Behind ⟨0⟩ [] :=
    ⟨⟨.none, fun _ ha => absurd ha List.not_mem_nil⟩, fun c hc => absurd hc (Nat.not_lt_zero c)⟩
  exact activity_behind hnew hactivity

/-- The second child succeeds while the first, which succeeded before, is running again. -/
theorem runningChild_outcome : ∃ es n', Activity (fun n => tick n 2) ⟨0⟩ es .success n' ∧
    answers es = [(0, .success), (1, .running), (0, .running), (1, .success)] ∧ n' = ⟨0⟩ := by
  obtain ⟨ehalt, hend, hhalt⟩ := exists_trace_haltsAll .haltChildren
    (NodeStatus.success, PipelineSequence.mk 0)
  have hfirst : (tick ⟨0⟩ 2).Trace [⟨.executeTick 0, NodeStatus.success⟩,
      ⟨.executeTick 1, NodeStatus.running⟩] (.running, ⟨1⟩) :=
    ⟨NodeStatus.success, _, rfl, NodeStatus.running, _, rfl, rfl, rfl⟩
  have hsecond : (tick ⟨1⟩ 2).Trace (⟨.executeTick 0, NodeStatus.running⟩ ::
      ⟨.executeTick 1, NodeStatus.success⟩ :: ehalt) (.success, ⟨0⟩) :=
    ⟨NodeStatus.running, _, rfl, NodeStatus.success, _, rfl, hend⟩
  have hactivity : Activity (fun n => tick n 2) ⟨0⟩ _ .success ⟨0⟩ :=
    .more hfirst (.last hsecond (by decide))
  refine ⟨_, _, hactivity, ?_, (activity_outcome hactivity).1⟩
  simp [answers_tick, hhalt]

end PipelineSequence

end TitanRobot.Behavior

import TitanRobot.Behavior.Activity

/-!
# Taking turns

A `RoundRobinNode` tries its children one after the other, and goes on where it was after a success:
the children have equal turns however often the node is used, until all of them fail in a row.
-/
namespace TitanRobot.Behavior
open Program

namespace RoundRobinNode

/-- The failures of so many children from the first one on. -/
def failures (childrenCount first k : ℕ) : List (ℕ × NodeStatus) :=
  (List.range k).map fun i => ((first + i) % childrenCount, .failure)

theorem failures_succ (childrenCount first k : ℕ) : failures childrenCount first (k + 1) =
    failures childrenCount first k ++ [((first + k) % childrenCount, .failure)] := by
  simp [failures, List.range_succ]

/-- All the answers of an activity that begins with the first child, its status and the state after
it. -/
inductive Outcome (childrenCount first : ℕ) :
    List (ℕ × NodeStatus) → NodeStatus → RoundRobinNode → Prop where
  | success (k : ℕ) (h : k < childrenCount) :
    Outcome childrenCount first
      (failures childrenCount first k ++ [((first + k) % childrenCount, .success)]) .success
      ⟨(first + k + 1) % childrenCount, 0⟩
  | failure :
    Outcome childrenCount first (failures childrenCount first childrenCount) .failure ⟨0, 0⟩

/-- The state after so many failures in an activity. -/
structure After (n : RoundRobinNode) (childrenCount first k : ℕ) : Prop where
  idx_eq : n.currentChildIdx = (first + k) % childrenCount
  failed_eq : n.numFailedChildren = k

variable {n n' : RoundRobinNode} {m first k : ℕ} {es : List (Event ChildOp.Answer)}
  {es₀ : List (ℕ × NodeStatus)} {status : NodeStatus}

theorem After.nextIdx_eq (h : n.After m first k) (hm : 0 < m) :
    n.nextIdx m = (first + k + 1) % m := by
  have hlt := Nat.mod_lt (first + k) hm
  have hmod : (first + k + 1) % m = ((first + k) % m + 1) % m := (Nat.mod_add_mod _ _ _).symm
  unfold nextIdx
  rw [h.idx_eq, hmod]
  split_ifs with hlast
  · have heq : (first + k) % m + 1 = m := by omega
    rw [heq, Nat.mod_self]
  · exact (Nat.mod_eq_of_lt (by omega)).symm

/-- One tick. -/
theorem tick_trace (h : n.After m first k) (hk : k ≤ m) (hm : 0 < m)
    (htick : (n.tick m).Trace es (status, n')) :
    if status = .running then
      ∃ k' ≤ m, n'.After m first k' ∧ failures m first k' = failures m first k ++ settled es
    else Outcome m first (failures m first k ++ settled es) status n' := by
  induction n using tick.induct m generalizing es k with
  | case1 n hloop ih =>
    rw [tick, if_pos hloop] at htick
    obtain ⟨answer, es', rfl, hnext⟩ := trace_perform_bind.mp htick
    have hlt : k < m := h.failed_eq ▸ hloop
    cases answer with
    | success =>
      obtain ⟨hhalt, hresult⟩ := trace_haltsAll .haltChildren hnext
      obtain ⟨rfl, rfl⟩ := Prod.mk.inj hresult
      rw [if_neg (by decide), settled_tick (by decide), settled_of_answers hhalt, h.idx_eq,
        h.nextIdx_eq hm]
      exact .success k hlt
    | failure =>
      have hrest := ih (k := k + 1) ⟨h.nextIdx_eq hm, by rw [h.failed_eq]⟩ hlt hnext
      rw [settled_tick (by decide), h.idx_eq]
      rw [failures_succ, List.append_assoc] at hrest
      exact hrest
    | running =>
      obtain ⟨rfl, hresult⟩ := trace_pure.mp hnext
      obtain ⟨rfl, rfl⟩ := Prod.mk.inj hresult
      rw [if_pos rfl]
      exact ⟨k, hk, h, by simp⟩
    | idle => exact absurd hnext not_trace_throw
  | case2 n hout =>
    obtain rfl : k = m := by
      have hfailed := h.failed_eq
      omega
    rw [tick, if_neg hout] at htick
    obtain ⟨hhalt, hresult⟩ := trace_halt_bind htick
    obtain ⟨rfl, rfl⟩ := Prod.mk.inj hresult
    rw [if_neg (by decide), settled_of_answers hhalt, List.append_nil]
    exact .failure

theorem activity_after (h : n.After m first k) (hk : k ≤ m) (hm : 0 < m)
    (hactivity : Activity (fun n => n.tick m) n es status n') :
    Outcome m first (failures m first k ++ settled es) status n' := by
  induction hactivity generalizing k with
  | last htick hstatus =>
    have hstep := tick_trace h hk hm htick
    rw [if_neg hstatus] at hstep
    exact hstep
  | more htick hrest ih =>
    have hstep := tick_trace h hk hm htick
    rw [if_pos rfl] at hstep
    obtain ⟨k', hk', hafter, hfailures⟩ := hstep
    have houtcome := ih hafter hk'
    rw [hfailures, List.append_assoc, ← settled_append] at houtcome
    exact houtcome

/-! ## Every outcome comes about -/

/-- A failure, and whatever can follow it. -/
theorem exists_trace_failure {r : NodeStatus × RoundRobinNode} (h : n.After m first k) (hk : k < m)
    (hm : 0 < m) (hnext : ∀ n₁ : RoundRobinNode, n₁.After m first (k + 1) →
      ∃ es, (n₁.tick m).Trace es r ∧ failures m first (k + 1) ++ settled es = es₀) :
    ∃ es, (n.tick m).Trace es r ∧ failures m first k ++ settled es = es₀ := by
  obtain ⟨es, hes, hsettled⟩ := hnext ⟨n.nextIdx m, n.numFailedChildren + 1⟩
    ⟨h.nextIdx_eq hm, by rw [h.failed_eq]⟩
  refine ⟨⟨.executeTick n.currentChildIdx, NodeStatus.failure⟩ :: es, ?_, ?_⟩
  · have hlt : n.numFailedChildren < m := h.failed_eq.trans_lt hk
    rw [tick, if_pos hlt]
    exact trace_perform_bind.mpr ⟨NodeStatus.failure, es, rfl, hes⟩
  · rw [failures_succ, List.append_assoc] at hsettled
    rw [settled_tick (by decide), h.idx_eq]
    exact hsettled

theorem exists_trace_failures (j : ℕ) {r : NodeStatus × RoundRobinNode} (h : n.After m first k)
    (hk : k + j ≤ m) (hm : 0 < m) (hnext : ∀ n₁ : RoundRobinNode, n₁.After m first (k + j) →
      ∃ es, (n₁.tick m).Trace es r ∧ failures m first (k + j) ++ settled es = es₀) :
    ∃ es, (n.tick m).Trace es r ∧ failures m first k ++ settled es = es₀ := by
  induction j generalizing n k with
  | zero => exact hnext n h
  | succ j ih =>
    refine exists_trace_failure h (by omega) hm fun n₁ h₁ => ih h₁ (by omega) ?_
    rwa [show k + 1 + j = k + (j + 1) by omega]

theorem exists_trace_outcome {answers : List (ℕ × NodeStatus)} (h : n.After m first 0) (hm : 0 < m)
    (houtcome : Outcome m first answers status n') :
    ∃ es, (n.tick m).Trace es (status, n') ∧ settled es = answers := by
  cases houtcome with
  | success k hk =>
    refine exists_trace_failures k h (by omega) hm fun n₁ h₁ => ?_
    rw [Nat.zero_add] at h₁ ⊢
    obtain ⟨es, hes, hhalt⟩ := exists_trace_haltsAll .haltChildren
      (NodeStatus.success, RoundRobinNode.mk (n₁.nextIdx m) 0)
    refine ⟨⟨.executeTick n₁.currentChildIdx, NodeStatus.success⟩ :: es, ?_, ?_⟩
    · have hlt : n₁.numFailedChildren < m := h₁.failed_eq.trans_lt hk
      rw [tick, if_pos hlt, ← h₁.nextIdx_eq hm]
      exact trace_perform_bind.mpr ⟨NodeStatus.success, es, rfl, hes⟩
    · simp [settled_tick, settled_of_answers hhalt, h₁.idx_eq]
  | failure =>
    refine exists_trace_failures m h (by omega) hm fun n₁ h₁ => ?_
    rw [Nat.zero_add] at h₁ ⊢
    obtain ⟨es, hes, hhalt⟩ := exists_trace_halt_bind (RoundRobinNode.mk 0 0)
      (Prod.mk NodeStatus.failure)
    refine ⟨es, ?_, by simp [settled_of_answers hhalt]⟩
    have hout : ¬ n₁.numFailedChildren < m := h₁.failed_eq.not_lt
    rw [tick, if_neg hout]
    exact hes

/-- The activities of a node with children: from the current child on they are tried in turn until
one succeeds, and the node goes on after that one, or until each has failed, and the node is as new.
-/
theorem answers_iff (hidx : n.currentChildIdx < m) (hfailed : n.numFailedChildren = 0)
    {answers : List (ℕ × NodeStatus)} :
    (∃ es, Activity (fun n => n.tick m) n es status n' ∧ settled es = answers) ↔
      Outcome m n.currentChildIdx answers status n' := by
  have hafter : n.After m n.currentChildIdx 0 := ⟨(Nat.mod_eq_of_lt hidx).symm, hfailed⟩
  have hm : 0 < m := by omega
  constructor
  · rintro ⟨es, h, rfl⟩
    exact activity_after hafter (Nat.zero_le m) hm h
  · intro h
    obtain ⟨es, hes, hsettled⟩ := exists_trace_outcome hafter hm h
    refine ⟨es, .last hes ?_, hsettled⟩
    cases h <;> decide

/-- Of two children the first fails and the second succeeds, and the first is next. -/
theorem twoChildren_answers : ∃ es, Activity (fun n => RoundRobinNode.tick n 2) ⟨0, 0⟩ es
    .success ⟨0, 0⟩ ∧ settled es = [(0, .failure), (1, .success)] :=
  (answers_iff (n := ⟨0, 0⟩) Nat.two_pos rfl).mpr (.success 1 Nat.one_lt_two)

/-! ## Equal turns -/

/-- Activities that succeed, one after the other, with all that the children answer. -/
inductive Successes (childrenCount : ℕ) :
    RoundRobinNode → List (Event ChildOp.Answer) → RoundRobinNode → Prop where
  | none (n : RoundRobinNode) : Successes childrenCount n [] n
  | more {n n₁ n' : RoundRobinNode} {es es' : List (Event ChildOp.Answer)}
    (hfirst : Activity (fun n => n.tick childrenCount) n es .success n₁)
    (hrest : Successes childrenCount n₁ es' n') : Successes childrenCount n (es ++ es') n'

/-- So many children in turn. -/
def turns (childrenCount first k : ℕ) : List ℕ :=
  (List.range k).map fun i => (first + i) % childrenCount

theorem turns_add (childrenCount first k l : ℕ) : turns childrenCount first (k + l) =
    turns childrenCount first k ++ turns childrenCount ((first + k) % childrenCount) l := by
  simp [turns, List.range_add, Nat.add_assoc]

theorem Outcome.turns_eq {answers : List (ℕ × NodeStatus)}
    (h : Outcome m first answers .success n') :
    answers.map Prod.fst = turns m first answers.length ∧
      n' = ⟨(first + answers.length) % m, 0⟩ := by
  cases h with
  | success k hk => simp [failures, turns, List.range_succ, Function.comp_def, Nat.add_assoc]

/-- The children are in turn over all the activities. -/
theorem Successes.turns_eq (h : Successes m n es n') (hidx : n.currentChildIdx < m)
    (hfailed : n.numFailedChildren = 0) :
    (settled es).map Prod.fst = turns m n.currentChildIdx (settled es).length := by
  have hm : 0 < m := by omega
  induction h with
  | none n => rfl
  | more hfirst hrest ih =>
    have hafter : RoundRobinNode.After _ m _ 0 := ⟨(Nat.mod_eq_of_lt hidx).symm, hfailed⟩
    have houtcome := activity_after hafter (Nat.zero_le m) hm hfirst
    obtain ⟨hturns, rfl⟩ := houtcome.turns_eq
    have hlater := ih (Nat.mod_lt _ hm) rfl
    rw [settled_append, List.map_append, List.length_append, turns_add, hlater]
    exact congrArg (· ++ _) hturns

/-- When a child has its turn. -/
theorem turn_eq_iff {child : ℕ} (hchild : child < m) (first i : ℕ) :
    (first + i) % m = child ↔ i ≡ child + (m - first % m) [MOD m] := by
  have hm : 0 < m := by omega
  have hfirst := (Nat.mod_lt first hm).le
  have hback : first + (m - first % m) ≡ 0 [MOD m] := by
    refine (Nat.ModEq.add_right _ (Nat.mod_modEq first m).symm).trans ?_
    rw [Nat.add_sub_cancel' hfirst]
    exact Nat.mod_self m
  have hshift : first + (child + (m - first % m)) ≡ child [MOD m] := by
    rw [Nat.add_left_comm]
    exact Nat.ModEq.add_left child hback
  constructor
  · intro h
    have heq : first + i ≡ child [MOD m] := h.trans (Nat.mod_eq_of_lt hchild).symm
    exact Nat.ModEq.add_left_cancel' first (heq.trans hshift.symm)
  · intro h
    have heq := (Nat.ModEq.add_left first h).trans hshift
    exact Eq.trans heq (Nat.mod_eq_of_lt hchild)

theorem count_turns {child : ℕ} (hchild : child < m) (first k : ℕ) :
    (turns m first k).count child =
      k / m + if (child + (m - first % m)) % m < k % m then 1 else 0 := by
  have hm : 0 < m := by omega
  rw [← Nat.count_modEq_card k hm, turns, List.count_eq_countP, List.countP_map, Nat.count]
  refine List.countP_congr fun i _ => ?_
  simp only [Function.comp_apply, beq_iff_eq, decide_eq_true_eq]
  exact turn_eq_iff hchild first i

/-- While no activity fails, any two children have had the same number of turns, up to one. -/
theorem Successes.equal_turns (h : Successes m n es n') (hidx : n.currentChildIdx < m)
    (hfailed : n.numFailedChildren = 0) {a b : ℕ} (ha : a < m) (hb : b < m) :
    ((settled es).map Prod.fst).count a ≤ ((settled es).map Prod.fst).count b + 1 := by
  rw [h.turns_eq hidx hfailed, count_turns ha, count_turns hb]
  split_ifs <;> omega

/-- Of two children the first has failed and the second succeeded. -/
theorem twoChildren_turns : ∃ es n', Successes 2 ⟨0, 0⟩ es n' ∧
    settled es = [(0, .failure), (1, .success)] ∧
    ((settled es).map Prod.fst).count 0 ≤ ((settled es).map Prod.fst).count 1 + 1 := by
  have hafter : RoundRobinNode.After ⟨0, 0⟩ 2 0 0 := ⟨rfl, rfl⟩
  obtain ⟨es, hes, hsettled⟩ := exists_trace_outcome hafter Nat.two_pos (.success 1 Nat.one_lt_two)
  have h : Successes 2 ⟨0, 0⟩ (es ++ []) ⟨0, 0⟩ := .more (.last hes (by decide)) (.none _)
  rw [List.append_nil] at h
  exact ⟨es, _, h, hsettled, h.equal_turns Nat.two_pos rfl Nat.two_pos Nat.one_lt_two⟩

end RoundRobinNode

end TitanRobot.Behavior

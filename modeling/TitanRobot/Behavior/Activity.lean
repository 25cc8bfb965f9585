import TitanRobot.Behavior.Control

/-!
# Activities

A control node is ticked as long as it is running. Of what its children answer from the first tick
to the last, in whatever way they come to it, the answers other than running tell everything.
-/
namespace TitanRobot.Behavior
open Program

/-- The child that was ticked and its answer. -/
def childTick : Event ChildOp.Answer → Option (ℕ × NodeStatus)
  | ⟨.executeTick child, status⟩ => some (child, status)
  | _ => none

/-- All answers, in the order of the ticks. -/
def answers (es : List (Event ChildOp.Answer)) : List (ℕ × NodeStatus) := es.filterMap childTick

/-- The answers of children that have finished. -/
def settled (es : List (Event ChildOp.Answer)) : List (ℕ × NodeStatus) :=
  (es.filterMap childTick).filter (·.2 ≠ .running)

theorem answers_append (es es' : List (Event ChildOp.Answer)) :
    answers (es ++ es') = answers es ++ answers es' :=
  List.filterMap_append

theorem answers_tick (child : ℕ) (status : NodeStatus) (es : List (Event ChildOp.Answer)) :
    answers (⟨.executeTick child, status⟩ :: es) = (child, status) :: answers es := rfl

theorem settled_append (es es' : List (Event ChildOp.Answer)) :
    settled (es ++ es') = settled es ++ settled es' := by
  simp [settled]

@[simp] theorem settled_nil : settled [] = [] := rfl

theorem settled_tick {child : ℕ} {status : NodeStatus} (h : status ≠ .running)
    (es : List (Event ChildOp.Answer)) :
    settled (⟨.executeTick child, status⟩ :: es) = (child, status) :: settled es := by
  simp [settled, childTick, h]

@[simp] theorem settled_running (child : ℕ) (es : List (Event ChildOp.Answer)) :
    settled (⟨.executeTick child, NodeStatus.running⟩ :: es) = settled es := by
  simp [settled, childTick]

@[simp] theorem settled_halt {child : ℕ} (a : ChildOp.Answer (.haltChild child))
    (es : List (Event ChildOp.Answer)) : settled (⟨.haltChild child, a⟩ :: es) = settled es := rfl

theorem not_trace_throw {β : Type} {message : String} {es : List (Event ChildOp.Answer)} {r : β} :
    ¬ (throw message : NodeProgram β).Trace es r := by
  rintro ⟨a, -⟩
  exact a.elim

/-- The calls that halt all children. -/
inductive ChildOp.HaltsAll : ChildOp → Prop where
  | haltChildren : HaltsAll .haltChildren
  | halt : HaltsAll .halt

section
variable {β γ : Type} {o : ChildOp} {es : List (Event ChildOp.Answer)}

/-- Halting all children, and a result. -/
theorem trace_haltsAll (ho : o.HaltsAll) {c r : γ}
    (h : (perform o >>= fun _ => pure c : NodeProgram γ).Trace es r) : answers es = [] ∧ r = c := by
  obtain ⟨⟨a, rfl⟩, hr⟩ := trace_perform_pure.mp h
  cases ho <;> exact ⟨rfl, hr⟩

theorem exists_trace_haltsAll (ho : o.HaltsAll) (c : γ) :
    ∃ es, (perform o >>= fun _ => pure c : NodeProgram γ).Trace es c ∧ answers es = [] := by
  cases ho with
  | haltChildren => exact ⟨[⟨.haltChildren, ()⟩], trace_perform_pure.mpr ⟨⟨(), rfl⟩, rfl⟩, rfl⟩
  | halt => exact ⟨[⟨.halt, ()⟩], trace_perform_pure.mpr ⟨⟨(), rfl⟩, rfl⟩, rfl⟩

/-- The same, in a halt of the node. -/
theorem trace_halt_bind {b : β} {f : β → γ} {r : γ}
    (h : ((do ControlNode.halt; return b) >>= fun b => pure (f b) : NodeProgram γ).Trace es r) :
    answers es = [] ∧ r = f b := by
  have hcall : (perform ChildOp.halt >>= fun _ => pure (f b) : NodeProgram γ).Trace es r := h
  exact trace_haltsAll .halt hcall

theorem exists_trace_halt_bind (b : β) (f : β → γ) :
    ∃ es, ((do ControlNode.halt; return b) >>= fun b => pure (f b) : NodeProgram γ).Trace es (f b) ∧
      answers es = [] :=
  exists_trace_haltsAll .halt (f b)

theorem settled_of_answers (h : answers es = []) : settled es = [] := congrArg (List.filter _) h

end

section
variable {N : Type}

/-- From the first tick until the node has finished, with all that the children answer. -/
inductive Activity (tick : N → NodeProgram (NodeStatus × N)) :
    N → List (Event ChildOp.Answer) → NodeStatus → N → Prop where
  | last {n n' : N} {es : List (Event ChildOp.Answer)} {status : NodeStatus}
      (htick : (tick n).Trace es (status, n')) (hstatus : status ≠ .running) :
      Activity tick n es status n'
  | more {n n₁ n' : N} {es es' : List (Event ChildOp.Answer)} {status : NodeStatus}
      (htick : (tick n).Trace es (.running, n₁)) (hrest : Activity tick n₁ es' status n') :
      Activity tick n (es ++ es') status n'

end

end TitanRobot.Behavior

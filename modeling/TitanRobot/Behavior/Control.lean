import TitanRobot.Lib.Program

/-!
# Control nodes of behavior trees

The control nodes of the navigator as programs over what they call of the library. The children are
numbered; what the calls do is left open.
-/
namespace TitanRobot.Behavior

/-- `BT::NodeStatus` -/
inductive NodeStatus where
  | idle
  | running
  | success
  | failure
  deriving DecidableEq

/-- What a control node calls, and the exception. -/
inductive ChildOp where
  | executeTick (child : ℕ)
  | haltChild (child : ℕ)
  | haltChildren
  | halt
  | throw (message : String)

@[reducible] def ChildOp.Answer : ChildOp → Type
  | executeTick _ => NodeStatus
  | haltChild _ => Unit
  | haltChildren => Unit
  | halt => Unit
  | throw _ => Empty

abbrev NodeProgram := Program ChildOp ChildOp.Answer

def executeTick (child : ℕ) : NodeProgram NodeStatus := Program.perform (ChildOp.executeTick child)

/-- `ControlNode::haltChild` -/
def haltChild (child : ℕ) : NodeProgram Unit := Program.perform (ChildOp.haltChild child)

/-- `ControlNode::haltChildren` -/
def haltChildren : NodeProgram Unit := Program.perform ChildOp.haltChildren

/-- `ControlNode::halt` -/
def ControlNode.halt : NodeProgram Unit := Program.perform ChildOp.halt

def throw {β : Type} (message : String) : NodeProgram β := .call (ChildOp.throw message) nofun

/-! ## `RecoveryNode` -/

structure RecoveryNode where
  name : String
  numberOfRetries : ℕ
  currentChildIdx : ℕ
  retryCount : ℕ

namespace RecoveryNode

/-- The members as they are at first. -/
def reset (n : RecoveryNode) : RecoveryNode := { n with retryCount := 0, currentChildIdx := 0 }

def halt (n : RecoveryNode) : NodeProgram RecoveryNode := do
  ControlNode.halt
  return n.reset

/-- The loop of `tick`. -/
def loop (n : RecoveryNode) : NodeProgram (NodeStatus × RecoveryNode) :=
  if n.currentChildIdx < 2 ∧ n.retryCount ≤ n.numberOfRetries then
    if n.currentChildIdx = 0 then do
      match ← executeTick 0 with
      | .success => return (.success, ← n.halt)
      | .failure =>
        if n.retryCount < n.numberOfRetries then
          haltChild 0
          loop { n with currentChildIdx := 1 }
        else return (.failure, ← n.halt)
      | .running => return (.running, n)
      | .idle => throw "A child node must never return IDLE"
    else do
      match ← executeTick 1 with
      | .success =>
        haltChild 1
        loop { n with retryCount := n.retryCount + 1, currentChildIdx := 0 }
      | .failure => return (.failure, ← n.halt)
      | .running => return (.running, n)
      | .idle => throw "A child node must never return IDLE"
  else do return (.failure, ← n.halt)
termination_by 2 * (n.numberOfRetries + 1 - n.retryCount) + (1 - n.currentChildIdx)

def tick (n : RecoveryNode) (childrenCount : ℕ) : NodeProgram (NodeStatus × RecoveryNode) :=
  if childrenCount ≠ 2 then throw s!"Recovery Node '{n.name}' must only have 2 children."
  else n.loop

end RecoveryNode

/-! ## `PipelineSequence` -/

structure PipelineSequence where
  lastChildTicked : ℕ

namespace PipelineSequence

def halt (n : PipelineSequence) : NodeProgram PipelineSequence := do
  ControlNode.halt
  return { n with lastChildTicked := 0 }

/-- The loop over the children. -/
def loop (n : PipelineSequence) : List ℕ → NodeProgram (NodeStatus × PipelineSequence)
  | [] => do
    haltChildren
    return (.success, { n with lastChildTicked := 0 })
  | i :: is => do
    match ← executeTick i with
    | .failure =>
      haltChildren
      return (.failure, { n with lastChildTicked := 0 })
    | .success => n.loop is
    | .running =>
      if n.lastChildTicked ≤ i then return (.running, { n with lastChildTicked := i })
      else n.loop is
    -- the name of the child follows
    | .idle => throw "Invalid node status. Received status IDLEfrom child "

def tick (n : PipelineSequence) (childrenCount : ℕ) :
    NodeProgram (NodeStatus × PipelineSequence) :=
  n.loop (List.range childrenCount)

end PipelineSequence

/-! ## `RoundRobinNode` -/

structure RoundRobinNode where
  currentChildIdx : ℕ
  numFailedChildren : ℕ

namespace RoundRobinNode

def halt (n : RoundRobinNode) : NodeProgram RoundRobinNode := do
  ControlNode.halt
  return { n with currentChildIdx := 0, numFailedChildren := 0 }

/-- The index after the current one, from the last to the first. -/
def nextIdx (n : RoundRobinNode) (childrenCount : ℕ) : ℕ :=
  if childrenCount ≤ n.currentChildIdx + 1 then 0 else n.currentChildIdx + 1

def tick (n : RoundRobinNode) (childrenCount : ℕ) : NodeProgram (NodeStatus × RoundRobinNode) :=
  if n.numFailedChildren < childrenCount then do
    match ← executeTick n.currentChildIdx with
    | .success =>
      haltChildren
      return (.success, { currentChildIdx := n.nextIdx childrenCount, numFailedChildren := 0 })
    | .failure =>
      tick
        { currentChildIdx := n.nextIdx childrenCount
          numFailedChildren := n.numFailedChildren + 1 } childrenCount
    | .running => return (.running, n)
    | .idle => throw "Invalid status return from BT node"
  else do return (.failure, ← n.halt)
termination_by childrenCount - n.numFailedChildren

end RoundRobinNode

end TitanRobot.Behavior

import TitanRobot.Behavior.Control

/-!
# Trees

Control nodes over control nodes, down to actions and conditions of any kind. The library that ticks
and halts the children is a parameter, with what it documents as hypotheses. It halts a child only
if its status is running: what ends must leave nothing running below it, or nobody will halt that.
-/
namespace TitanRobot.Behavior
open Program

/-- How a node is ticked and halted. An exception leaves nothing to go on with. -/
structure TreeNode (τ : Type) where
  tick : τ → Except String (NodeStatus × τ)
  halt : τ → Except String τ

/-- A child with the status that the library keeps for it. -/
structure Child (τ : Type) where
  status : NodeStatus
  node : τ

/-- What control nodes and the engine call of the library, on nodes of any kind. -/
structure Library where
  call : {τ : Type} → TreeNode τ → (op : ChildOp) → List (Child τ) →
    Except String (op.Answer × List (Child τ))
  tickRoot : {τ : Type} → TreeNode τ → τ → Except String (NodeStatus × τ)

/-- A child before and after it is halted: the node is halted if it was running. -/
def Halted {τ : Type} (b : TreeNode τ) (child child' : Child τ) : Prop :=
  child'.status = .idle ∧
    if child.status = .running then b.halt child.node = .ok child'.node
    else child'.node = child.node

/-- What the library documents of its calls, where they return. -/
structure Library.Documented (lib : Library) : Prop where
  /-- The child is ticked, and its status is the one that it returns. -/
  executeTick : ∀ {τ : Type} {b : TreeNode τ} {i : ℕ} {status : NodeStatus}
    {children children' : List (Child τ)},
    lib.call b (.executeTick i) children = .ok (status, children') →
      ∃ child node, children[i]? = some child ∧ b.tick child.node = .ok (status, node) ∧
        children' = children.set i ⟨status, node⟩
  haltChild : ∀ {τ : Type} {b : TreeNode τ} {i : ℕ} {a : Unit}
    {children children' : List (Child τ)},
    lib.call b (.haltChild i) children = .ok (a, children') →
      ∃ child child', children[i]? = some child ∧ Halted b child child' ∧
        children' = children.set i child'
  haltChildren : ∀ {τ : Type} {b : TreeNode τ} {a : Unit} {children children' : List (Child τ)},
    lib.call b .haltChildren children = .ok (a, children') →
      List.Forall₂ (Halted b) children children'
  halt : ∀ {τ : Type} {b : TreeNode τ} {a : Unit} {children children' : List (Child τ)},
    lib.call b .halt children = .ok (a, children') → List.Forall₂ (Halted b) children children'
  tickRoot : ∀ {τ : Type} {b : TreeNode τ} {root root' : τ} {status : NodeStatus},
    lib.tickRoot b root = .ok (status, root') → b.tick root = .ok (status, root')

/-! ## Children at rest -/

/-- The valid states are kept, and nothing is left running where a tick ends with another status, or
by a halt. -/
structure Settles {τ : Type} (b : TreeNode τ) (Valid Quiet : τ → Prop) : Prop where
  tick : ∀ {t t' status}, Valid t → b.tick t = .ok (status, t') →
    Valid t' ∧ (status ≠ .running → Quiet t')
  halt : ∀ {t t'}, Valid t → b.halt t = .ok t' → Valid t' ∧ Quiet t'

section
variable {lib : Library} {τ : Type} {b : TreeNode τ} {Valid Quiet : τ → Prop} {m i : ℕ}
  {children children' : List (Child τ)} {child child' : Child τ}

/-- So many valid children, of which those that are not running are quiet. -/
structure Calm (Valid Quiet : τ → Prop) (m : ℕ) (children : List (Child τ)) : Prop where
  length : children.length = m
  valid : ∀ child ∈ children, Valid child.node
  quiet : ∀ child ∈ children, child.status ≠ .running → Quiet child.node

theorem Calm.set (h : Calm Valid Quiet m children) (hvalid : Valid child.node)
    (hquiet : child.status ≠ .running → Quiet child.node) :
    Calm Valid Quiet m (children.set i child) := by
  refine ⟨by rw [List.length_set, h.length], fun c hc => ?_, fun c hc => ?_⟩
  · rcases List.mem_or_eq_of_mem_set hc with hc | rfl
    · exact h.valid c hc
    · exact hvalid
  · rcases List.mem_or_eq_of_mem_set hc with hc | rfl
    · exact h.quiet c hc
    · exact hquiet

/-- The children after a tick of their parent. -/
def Rests (Valid Quiet : τ → Prop) (m : ℕ) (status : NodeStatus) (children : List (Child τ)) :
    Prop :=
  Calm Valid Quiet m children ∧ (status ≠ .running → ∀ child ∈ children, Quiet child.node)

variable (hlib : lib.Documented) (hb : Settles b Valid Quiet)

include hb in
theorem Halted.settles (h : Halted b child child') (hvalid : Valid child.node)
    (hquiet : child.status ≠ .running → Quiet child.node) :
    Valid child'.node ∧ Quiet child'.node := by
  obtain ⟨-, hnode⟩ := h
  split_ifs at hnode with hrunning
  · exact hb.halt hvalid hnode
  · rw [hnode]
    exact ⟨hvalid, hquiet hrunning⟩

include hb in
/-- Once all children are halted, they are quiet. -/
theorem Calm.halted (h : Calm Valid Quiet m children)
    (hall : List.Forall₂ (Halted b) children children') :
    Calm Valid Quiet m children' ∧ ∀ child ∈ children', Quiet child.node := by
  have hsettled : ∀ child' ∈ children', Valid child'.node ∧ Quiet child'.node := by
    intro child' hchild'
    obtain ⟨j, hj, rfl⟩ := List.getElem_of_mem hchild'
    have hj' : j < children.length := hall.length_eq ▸ hj
    have hmem := List.getElem_mem hj'
    exact (hall.get hj' hj).settles hb (h.valid _ hmem) (h.quiet _ hmem)
  refine ⟨⟨hall.length_eq ▸ h.length, ?_, ?_⟩, ?_⟩
  · exact fun child hchild => (hsettled child hchild).1
  · exact fun child hchild _ => (hsettled child hchild).2
  · exact fun child hchild => (hsettled child hchild).2

include hlib hb

theorem triple_executeTick : Triple (lib.call b) (Calm Valid Quiet m) (executeTick i)
    fun _ => Calm Valid Quiet m := by
  refine triple_perform fun children status children' h hcall => ?_
  obtain ⟨child, node, hchild, htick, rfl⟩ := hlib.executeTick hcall
  obtain ⟨hvalid, hquiet⟩ := hb.tick (h.valid child (List.mem_of_getElem? hchild)) htick
  exact h.set hvalid hquiet

theorem triple_haltChild : Triple (lib.call b) (Calm Valid Quiet m) (haltChild i)
    fun _ => Calm Valid Quiet m := by
  refine triple_perform fun children a children' h hcall => ?_
  obtain ⟨child, child', hchild, hhalted, rfl⟩ := hlib.haltChild hcall
  have hmem := List.mem_of_getElem? hchild
  obtain ⟨hvalid, hquiet⟩ := hhalted.settles hb (h.valid child hmem) (h.quiet child hmem)
  exact h.set hvalid fun _ => hquiet

theorem triple_haltChildren : Triple (lib.call b) (Calm Valid Quiet m) haltChildren
    fun _ children => Calm Valid Quiet m children ∧ ∀ child ∈ children, Quiet child.node :=
  triple_perform fun _ _ _ h hcall => h.halted hb (hlib.haltChildren hcall)

theorem triple_halt : Triple (lib.call b) (Calm Valid Quiet m) ControlNode.halt
    fun _ children => Calm Valid Quiet m children ∧ ∀ child ∈ children, Quiet child.node :=
  triple_perform fun _ _ _ h hcall => h.halted hb (hlib.halt hcall)

/-- All children are halted, and then there is a result. -/
theorem triple_resting {γ : Type} {x : NodeStatus × γ} :
    Triple (lib.call b) (Calm Valid Quiet m) (do haltChildren; return x)
      fun r => Rests Valid Quiet m r.1 :=
  triple_bind (triple_haltChildren hlib hb) fun _ => triple_pure fun _ h => ⟨h.1, fun _ => h.2⟩

/-- The node is halted, and then there is a result. -/
theorem triple_halt_resting {β γ : Type} {x : β} {f : β → NodeStatus × γ} :
    Triple (lib.call b) (Calm Valid Quiet m)
      ((do ControlNode.halt; return x) >>= fun y => pure (f y))
      fun r => Rests Valid Quiet m r.1 := by
  refine triple_bind
    (Q := fun _ children => Calm Valid Quiet m children ∧ ∀ child ∈ children, Quiet child.node)
    (triple_bind (triple_halt hlib hb) fun _ => triple_pure fun _ h => h) fun _ => ?_
  exact triple_pure fun children h => ⟨h.1, fun _ => h.2⟩

omit hlib hb in
theorem triple_throw {β : Type} {P : List (Child τ) → Prop} {Q : β → List (Child τ) → Prop}
    {message : String} : Triple (lib.call b) P (throw message) Q := by
  rintro children r children' - hrun
  obtain ⟨⟨a, -⟩, -⟩ := bind_eq_ok_iff.mp hrun
  exact a.elim

omit hlib hb in
/-- A tick that ends while a child is running. -/
theorem triple_running {γ : Type} {n : γ} : Triple (lib.call b) (Calm Valid Quiet m)
    (pure (NodeStatus.running, n) : NodeProgram (NodeStatus × γ))
    fun r => Rests Valid Quiet m r.1 :=
  triple_pure fun _ h => ⟨h, fun hstatus => absurd rfl hstatus⟩

theorem RecoveryNode.triple_loop (n : RecoveryNode) :
    Triple (lib.call b) (Calm Valid Quiet 2) n.loop fun r => Rests Valid Quiet 2 r.1 := by
  induction n using RecoveryNode.loop.induct with
  | case1 n hloop hidx ih =>
    rw [RecoveryNode.loop, if_pos hloop, if_pos hidx]
    refine triple_bind (triple_executeTick hlib hb) fun answer => ?_
    cases answer with
    | success => exact triple_halt_resting hlib hb
    | failure =>
      by_cases hretry : n.retryCount < n.numberOfRetries
      · simp only [if_pos hretry]
        exact triple_bind (triple_haltChild hlib hb) fun _ => ih
      · simp only [if_neg hretry]
        exact triple_halt_resting hlib hb
    | running => exact triple_running
    | idle => exact triple_throw
  | case2 n hloop hidx ih =>
    rw [RecoveryNode.loop, if_pos hloop, if_neg hidx]
    refine triple_bind (triple_executeTick hlib hb) fun answer => ?_
    cases answer with
    | success => exact triple_bind (triple_haltChild hlib hb) fun _ => ih
    | failure => exact triple_halt_resting hlib hb
    | running => exact triple_running
    | idle => exact triple_throw
  | case3 n hout =>
    rw [RecoveryNode.loop, if_neg hout]
    exact triple_halt_resting hlib hb

theorem PipelineSequence.triple_loop (n : PipelineSequence) (is : List ℕ) :
    Triple (lib.call b) (Calm Valid Quiet m) (n.loop is) fun r => Rests Valid Quiet m r.1 := by
  induction is with
  | nil => exact triple_resting hlib hb
  | cons i is ih =>
    refine triple_bind (triple_executeTick hlib hb) fun answer => ?_
    cases answer with
    | success => exact ih
    | failure => exact triple_resting hlib hb
    | running =>
      by_cases hlast : n.lastChildTicked ≤ i
      · simp only [if_pos hlast]
        exact triple_running
      · simp only [if_neg hlast]
        exact ih
    | idle => exact triple_throw

theorem RoundRobinNode.triple_tick (n : RoundRobinNode) :
    Triple (lib.call b) (Calm Valid Quiet m) (n.tick m) fun r => Rests Valid Quiet m r.1 := by
  induction n using RoundRobinNode.tick.induct m with
  | case1 n hloop ih =>
    rw [RoundRobinNode.tick, if_pos hloop]
    refine triple_bind (triple_executeTick hlib hb) fun answer => ?_
    cases answer with
    | success => exact triple_resting hlib hb
    | failure => exact ih
    | running => exact triple_running
    | idle => exact triple_throw
  | case2 n hout =>
    rw [RoundRobinNode.tick, if_neg hout]
    exact triple_halt_resting hlib hb

end

/-! ## Nodes -/

inductive Control where
  | recovery (n : RecoveryNode)
  | pipelineSequence (n : PipelineSequence)
  | roundRobin (n : RoundRobinNode)

namespace Control

/-- A recovery node has two children. -/
def Fits (m : ℕ) : Control → Prop
  | recovery _ => m = 2
  | _ => True

def tick (m : ℕ) : Control → NodeProgram (NodeStatus × Control)
  | recovery n => do
    let r ← n.tick m
    return (r.1, .recovery r.2)
  | pipelineSequence n => do
    let r ← n.tick m
    return (r.1, .pipelineSequence r.2)
  | roundRobin n => do
    let r ← n.tick m
    return (r.1, .roundRobin r.2)

def halt : Control → NodeProgram Control
  | recovery n => do return .recovery (← n.halt)
  | pipelineSequence n => do return .pipelineSequence (← n.halt)
  | roundRobin n => do return .roundRobin (← n.halt)

section
variable {lib : Library} {τ : Type} {b : TreeNode τ} {Valid Quiet : τ → Prop} {m : ℕ}
  {c : Control} (hlib : lib.Documented) (hb : Settles b Valid Quiet)
include hlib hb

theorem triple_tick (hc : c.Fits m) : Triple (lib.call b) (Calm Valid Quiet m) (c.tick m)
    fun r children => Rests Valid Quiet m r.1 children ∧ r.2.Fits m := by
  cases c with
  | recovery n =>
    obtain rfl : m = 2 := hc
    refine triple_bind (Q := fun r => Rests Valid Quiet 2 r.1) ?_ fun r =>
      triple_pure fun children h => ⟨h, rfl⟩
    rw [RecoveryNode.tick, if_neg (not_not.mpr rfl)]
    exact n.triple_loop hlib hb
  | pipelineSequence n =>
    exact triple_bind (n.triple_loop hlib hb _) fun r => triple_pure fun children h => ⟨h, trivial⟩
  | roundRobin n =>
    exact triple_bind (n.triple_tick hlib hb) fun r => triple_pure fun children h => ⟨h, trivial⟩

theorem triple_halt (hc : c.Fits m) : Triple (lib.call b) (Calm Valid Quiet m) c.halt
    fun c' children =>
      (Calm Valid Quiet m children ∧ ∀ child ∈ children, Quiet child.node) ∧ c'.Fits m := by
  cases c with
  | recovery n =>
    obtain rfl : m = 2 := hc
    exact triple_bind (triple_bind (triple_halt hlib hb) fun _ => triple_pure fun _ h => h) fun _ =>
      triple_pure fun children h => ⟨h, rfl⟩
  | pipelineSequence n =>
    exact triple_bind (triple_bind (triple_halt hlib hb) fun _ => triple_pure fun _ h => h) fun _ =>
      triple_pure fun children h => ⟨h, trivial⟩
  | roundRobin n =>
    exact triple_bind (triple_bind (triple_halt hlib hb) fun _ => triple_pure fun _ h => h) fun _ =>
      triple_pure fun children h => ⟨h, trivial⟩

end

end Control

/-- An action or a condition, or a control node with its children. -/
inductive Node (α τ : Type) where
  | leaf (a : α)
  | control (c : Control) (children : List (Child τ))

section
variable {α τ : Type} {lib : Library} {leaf : TreeNode α} {child : TreeNode τ}
  {LeafValid LeafQuiet : α → Prop} {ChildValid ChildQuiet : τ → Prop}

def Library.node (lib : Library) (leaf : TreeNode α) (child : TreeNode τ) :
    TreeNode (Node α τ) where
  tick
    | .leaf a => do
      let r ← leaf.tick a
      return (r.1, .leaf r.2)
    | .control c children => do
      let r ← (c.tick children.length).run (lib.call child) children
      return (r.1.1, .control r.1.2 r.2)
  halt
    | .leaf a => do return .leaf (← leaf.halt a)
    | .control c children => do
      let r ← c.halt.run (lib.call child) children
      return .control r.1 r.2

def Node.Valid (LeafValid : α → Prop) (ChildValid ChildQuiet : τ → Prop) :
    Node α τ → Prop
  | .leaf a => LeafValid a
  | .control c children =>
    c.Fits children.length ∧ Calm ChildValid ChildQuiet children.length children

def Node.Quiet (LeafQuiet : α → Prop) (ChildQuiet : τ → Prop) : Node α τ → Prop
  | .leaf a => LeafQuiet a
  | .control _ children => ∀ child ∈ children, ChildQuiet child.node

/-- A node settles if its leaves and its children do. -/
theorem settles_node (hlib : lib.Documented) (hleaf : Settles leaf LeafValid LeafQuiet)
    (hchild : Settles child ChildValid ChildQuiet) :
    Settles (lib.node leaf child) (Node.Valid LeafValid ChildValid ChildQuiet)
      (Node.Quiet LeafQuiet ChildQuiet) where
  tick := by
    intro t t' status hvalid htick
    cases t with
    | leaf a =>
      obtain ⟨r, hr, hresult⟩ := bind_eq_ok_iff.mp htick
      cases hresult
      exact hleaf.tick hvalid hr
    | control c children =>
      obtain ⟨r, hr, hresult⟩ := bind_eq_ok_iff.mp htick
      cases hresult
      obtain ⟨⟨hcalm, hquiet⟩, hfits⟩ := Control.triple_tick hlib hchild hvalid.1 _ _ _ hvalid.2 hr
      rw [← hcalm.length] at hfits hcalm
      exact ⟨⟨hfits, hcalm⟩, hquiet⟩
  halt := by
    intro t t' hvalid hhalt
    cases t with
    | leaf a =>
      obtain ⟨r, hr, hresult⟩ := bind_eq_ok_iff.mp hhalt
      cases hresult
      exact hleaf.halt hvalid hr
    | control c children =>
      obtain ⟨r, hr, hresult⟩ := bind_eq_ok_iff.mp hhalt
      cases hresult
      obtain ⟨⟨hcalm, hquiet⟩, hfits⟩ := Control.triple_halt hlib hchild hvalid.1 _ _ _ hvalid.2 hr
      rw [← hcalm.length] at hfits hcalm
      exact ⟨⟨hfits, hcalm⟩, hquiet⟩

/-! ## Trees of any depth -/

def Tree (α : Type) : ℕ → Type
  | 0 => α
  | depth + 1 => Node α (Tree α depth)

def tree (lib : Library) (leaf : TreeNode α) : (depth : ℕ) → TreeNode (Tree α depth)
  | 0 => leaf
  | depth + 1 => lib.node leaf (tree lib leaf depth)

namespace Tree

/-- No action is running anywhere. -/
def Quiet (LeafQuiet : α → Prop) : (depth : ℕ) → Tree α depth → Prop
  | 0 => LeafQuiet
  | depth + 1 => Node.Quiet LeafQuiet (Quiet LeafQuiet depth)

/-- Recovery nodes have two children, and below a child that is not running nothing is. -/
def Valid (LeafValid LeafQuiet : α → Prop) : (depth : ℕ) → Tree α depth → Prop
  | 0 => LeafValid
  | depth + 1 =>
    Node.Valid LeafValid (Valid LeafValid LeafQuiet depth) (Quiet LeafQuiet depth)

theorem settles (hlib : lib.Documented) (hleaf : Settles leaf LeafValid LeafQuiet) (depth : ℕ) :
    Settles (tree lib leaf depth) (Valid LeafValid LeafQuiet depth) (Quiet LeafQuiet depth) := by
  induction depth with
  | zero => exact hleaf
  | succ depth ih => exact settles_node hlib hleaf ih

end Tree

end

end TitanRobot.Behavior

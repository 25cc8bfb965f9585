import TitanRobot.Behavior.Tree

/-!
# The engine

`BehaviorTreeEngine::run` ticks the root until it finishes, or halts it on a request to cancel.
-/
namespace TitanRobot.Behavior
open Program

inductive BtStatus where
  | succeeded
  | failed
  | canceled
  deriving DecidableEq

/-- What the loop asks for before each tick. -/
structure Iteration where
  ok : Bool
  cancelRequested : Bool

namespace BehaviorTreeEngine
variable {τ : Type}

/-- `BehaviorTreeEngine::run`, so far as it gets in the iterations. After an exception there is no
tree to go on with. -/
def run (lib : Library) (b : TreeNode τ) :
    List Iteration → NodeStatus → τ → Option (BtStatus × Option τ)
  | [], _, _ => none
  | i :: is, result, root =>
    if i.ok ∧ result = .running then
      if i.cancelRequested then
        match b.halt root with
        | .ok root => some (.canceled, some root)
        | .error _ => some (.failed, none)
      else
        match lib.tickRoot b root with
        | .ok (result, root) => run lib b is result root
        | .error _ => some (.failed, none)
    else some (if result = .success then .succeeded else .failed, some root)

/-- Runs one after the other on the same tree. -/
def runAll (lib : Library) (b : TreeNode τ) (runs : List (List Iteration)) (root : τ) : Option τ :=
  runs.foldlM (fun root is => (run lib b is .running root).bind (·.2)) root

variable {lib : Library} {b : TreeNode τ} {Valid Quiet : τ → Prop} {root root' : τ}
  {is : List Iteration} {result : NodeStatus} {status : BtStatus}

/-- One run keeps the tree valid, and leaves it quiet unless ROS has shut down. -/
theorem run_settles (hlib : lib.Documented) (hb : Settles b Valid Quiet) (hvalid : Valid root)
    (hquiet : result ≠ .running → Quiet root)
    (h : run lib b is result root = some (status, some root')) :
    Valid root' ∧ ((∀ i ∈ is, i.ok = true) → Quiet root') := by
  induction is generalizing result root with
  | nil => cases h
  | cons i is ih =>
    rw [run] at h
    by_cases hloop : i.ok = true ∧ result = .running
    · rw [if_pos hloop] at h
      by_cases hcancel : i.cancelRequested = true
      · rw [if_pos hcancel] at h
        cases hhalt : b.halt root with
        | error e => simp [hhalt] at h
        | ok t =>
          simp only [hhalt, Option.some.injEq, Prod.mk.injEq] at h
          obtain ⟨-, rfl⟩ := h
          obtain ⟨hvalid', hquiet'⟩ := hb.halt hvalid hhalt
          exact ⟨hvalid', fun _ => hquiet'⟩
      · rw [if_neg hcancel] at h
        cases htick : lib.tickRoot b root with
        | error e => simp [htick] at h
        | ok r =>
          simp only [htick] at h
          obtain ⟨hvalid', hquiet'⟩ := hb.tick hvalid (hlib.tickRoot htick)
          obtain ⟨hvalid'', hquiet''⟩ := ih hvalid' hquiet' h
          exact ⟨hvalid'', fun hok => hquiet'' (List.forall_mem_cons.mp hok).2⟩
    · rw [if_neg hloop] at h
      simp only [Option.some.injEq, Prod.mk.injEq] at h
      obtain ⟨-, rfl⟩ := h
      exact ⟨hvalid, fun hok => hquiet fun hrunning =>
        hloop ⟨(List.forall_mem_cons.mp hok).1, hrunning⟩⟩

theorem runAll_valid (hlib : lib.Documented) (hb : Settles b Valid Quiet)
    {runs : List (List Iteration)} (hvalid : Valid root)
    (h : runAll lib b runs root = some root') : Valid root' := by
  induction runs generalizing root with
  | nil =>
    obtain rfl := Option.some.inj h
    exact hvalid
  | cons is runs ih =>
    obtain ⟨t, ht, hrest⟩ := Option.bind_eq_some_iff.mp (List.foldlM_cons.symm.trans h)
    obtain ⟨⟨status, last⟩, hrun, rfl⟩ := Option.bind_eq_some_iff.mp ht
    exact ih (run_settles hlib hb hvalid (absurd rfl) hrun).1 hrest

section
variable {α : Type} {leaf : TreeNode α} {LeafValid LeafQuiet : α → Prop} {depth : ℕ}
  {tree₁ tree₂ : Tree α depth}

/-- However deep a tree of these nodes is and however often it has been run, when the engine returns
nothing in it is running, whether it has succeeded, failed or been cancelled, unless it was left
by an exception or a shutdown. -/
theorem nothing_running (hlib : lib.Documented) (hleaf : Settles leaf LeafValid LeafQuiet)
    (hvalid : tree₁.Valid LeafValid LeafQuiet) {runs : List (List Iteration)}
    (h : runAll lib (tree lib leaf depth) (runs ++ [is]) tree₁ = some tree₂)
    (hok : ∀ i ∈ is, i.ok = true) : tree₂.Quiet LeafQuiet := by
  have hsettles := Tree.settles hlib hleaf depth
  obtain ⟨t, ht, hlast⟩ := Option.bind_eq_some_iff.mp (List.foldlM_append.symm.trans h)
  have hvalid' := runAll_valid hlib hsettles hvalid ht
  obtain ⟨t', ht', hsame⟩ := Option.bind_eq_some_iff.mp (List.foldlM_cons.symm.trans hlast)
  obtain rfl := Option.some.inj hsame
  obtain ⟨⟨status, last⟩, hrun, rfl⟩ := Option.bind_eq_some_iff.mp ht'
  exact (run_settles hlib hsettles hvalid' (absurd rfl) hrun).2 hok

end

/-! ## A library and a tree -/

section
variable {τ : Type} {b : TreeNode τ} {child child' : Child τ} {children children' : List (Child τ)}

def childAt (children : List (Child τ)) (i : ℕ) : Except String (Child τ) :=
  children[i]?.elim (.error "no such child") .ok

theorem childAt_eq_ok_iff {i : ℕ} : childAt children i = .ok child ↔ children[i]? = some child := by
  unfold childAt
  cases children[i]? <;> simp

def haltOne (b : TreeNode τ) (child : Child τ) : Except String (Child τ) := do
  let node ← (if child.status = .running then b.halt child.node else .ok child.node)
  return ⟨.idle, node⟩

theorem halted_of_haltOne (h : haltOne b child = .ok child') : Halted b child child' := by
  obtain ⟨node, hnode, hresult⟩ := bind_eq_ok_iff.mp h
  obtain rfl := Except.ok.inj hresult
  refine ⟨rfl, ?_⟩
  split_ifs at hnode ⊢
  · exact hnode
  · exact (Except.ok.inj hnode).symm

/-- Halting one child after the other. -/
def haltEach (b : TreeNode τ) : List (Child τ) → Except String (List (Child τ))
  | [] => .ok []
  | child :: children => do
    let child' ← haltOne b child
    let children' ← haltEach b children
    return child' :: children'

theorem forall₂_of_haltEach (h : haltEach b children = .ok children') :
    List.Forall₂ (Halted b) children children' := by
  induction children generalizing children' with
  | nil =>
    obtain rfl := Except.ok.inj h
    exact .nil
  | cons child children ih =>
    obtain ⟨child', hone, hrest⟩ := bind_eq_ok_iff.mp h
    obtain ⟨rest, heach, hresult⟩ := bind_eq_ok_iff.mp hrest
    obtain rfl := Except.ok.inj hresult
    exact .cons (halted_of_haltOne hone) (ih heach)

end

/-- A library that does what is documented. -/
def plainLibrary : Library where
  call b
    | .executeTick i, children => do
      let child ← childAt children i
      let r ← b.tick child.node
      return (r.1, children.set i ⟨r.1, r.2⟩)
    | .haltChild i, children => do
      let child ← childAt children i
      return ((), children.set i (← haltOne b child))
    | .haltChildren, children => do return ((), ← haltEach b children)
    | .halt, children => do return ((), ← haltEach b children)
    | .throw message, _ => .error message
  tickRoot b root := b.tick root

theorem plainLibrary_documented : plainLibrary.Documented where
  executeTick h := by
    obtain ⟨child, hchild, hrest⟩ := bind_eq_ok_iff.mp h
    obtain ⟨r, htick, hresult⟩ := bind_eq_ok_iff.mp hrest
    cases hresult
    exact ⟨child, r.2, childAt_eq_ok_iff.mp hchild, htick, rfl⟩
  haltChild h := by
    obtain ⟨child, hchild, hrest⟩ := bind_eq_ok_iff.mp h
    obtain ⟨child', hone, hresult⟩ := bind_eq_ok_iff.mp hrest
    cases hresult
    exact ⟨child, child', childAt_eq_ok_iff.mp hchild, halted_of_haltOne hone, rfl⟩
  haltChildren h := by
    obtain ⟨rest, heach, hresult⟩ := bind_eq_ok_iff.mp h
    cases hresult
    exact forall₂_of_haltEach heach
  halt h := by
    obtain ⟨rest, heach, hresult⟩ := bind_eq_ok_iff.mp h
    cases hresult
    exact forall₂_of_haltEach heach
  tickRoot := id

/-- An action that takes two ticks, by whether it is running. -/
def twoTicks : TreeNode Bool where
  tick running := .ok (if running then .success else .running, !running)
  halt _ := .ok false

theorem twoTicks_settles : Settles twoTicks (fun _ => True) (fun running => running = false) where
  tick := by
    rintro running _ _ - ⟨⟩
    cases running <;> simp
  halt := by
    rintro _ _ - ⟨⟩
    simp

/-- A sequence of two such actions. The first is running again when the second succeeds. -/
def twoActions : Tree Bool 1 :=
  .control (.pipelineSequence ⟨0⟩) [⟨.idle, false⟩, ⟨.idle, false⟩]

theorem twoActions_nothing_running : ∃ root',
    runAll plainLibrary (tree plainLibrary twoTicks 1) ([] ++ [List.replicate 4 ⟨true, false⟩])
      twoActions = some root' ∧ root'.Quiet fun running => running = false := by
  have hvalid : twoActions.Valid (fun _ => True) fun running => running = false :=
    ⟨trivial, rfl, by simp [Tree.Valid], by simp [Tree.Quiet]⟩
  have hrun : runAll plainLibrary (tree plainLibrary twoTicks 1)
      ([] ++ [List.replicate 4 ⟨true, false⟩]) twoActions = some twoActions := rfl
  have hok : ∀ i ∈ List.replicate 4 (⟨true, false⟩ : Iteration), i.ok = true := by simp
  exact ⟨twoActions, hrun, nothing_running plainLibrary_documented twoTicks_settles hvalid hrun hok⟩

end BehaviorTreeEngine

end TitanRobot.Behavior

import TitanRobot.Nav.Layers

/-!
# Parameter names

Below `ros__parameters` a key path names a parameter by its keys joined with points, so that one
name can be spelled by several key paths. The merge goes by key paths: a spelling is left in the
merged mapping if a document has it and all later overlays are silent on it.
-/
namespace TitanRobot.Nav
open Dict Node

def parameterName (p : List String) : String := ".".intercalate p

/-- The key path of a node section. -/
def IsSection (s : List String) : Prop := s.getLast? = some "ros__parameters"

/-- In the section `s` the document sets the parameter to `v`, by the key path `p`. -/
def Mapping.Sets (m : Mapping) (s : List String) (name : String) (p : List String) (v : Node) :
    Prop :=
  p ≠ [] ∧ parameterName p = name ∧ m.get (s ++ p) = some v ∧ v.IsValue

def Mapping.Spells (m : Mapping) (s : List String) (name : String) (p : List String) : Prop :=
  ∃ v, m.Sets s name p v

def Mapping.DefinesOnce (m : Mapping) (s : List String) (name : String) : Prop :=
  ∀ p p', m.Spells s name p → m.Spells s name p' → p = p'

/-- The documents that define the name spell it by the same key path. -/
def SpelledAlike (docs : List Mapping) (s : List String) (name : String) : Prop :=
  ∀ d ∈ docs, ∀ d' ∈ docs, ∀ p p', d.Spells s name p → d'.Spells s name p' → p = p'

/-! ## Names -/

section
variable (base : Mapping) (overlays : List Mapping) (s : List String) (name : String)

theorem mergeAll_sets_iff (p : List String) (v : Node) :
    (mergeAll base overlays).Sets s name p v ↔
      p ≠ [] ∧ parameterName p = name ∧ v.IsValue ∧ Left (base :: overlays) (s ++ p) v := by
  unfold Mapping.Sets
  constructor
  · rintro ⟨hp, hname, hget, hv⟩
    exact ⟨hp, hname, hv, (get_mergeAll_iff_left base overlays hv).mp hget⟩
  · rintro ⟨hp, hname, hv, hleft⟩
    exact ⟨hp, hname, (get_mergeAll_iff_left base overlays hv).mpr hleft, hv⟩

/-- A name that the merged mapping sets is set so by a document. -/
theorem exists_of_mergeAll_sets {p : List String} {v : Node}
    (h : (mergeAll base overlays).Sets s name p v) : ∃ d ∈ base :: overlays, d.Sets s name p v := by
  obtain ⟨hp, hname, hv, pre, d, post, heq, hget, -⟩ := (mergeAll_sets_iff ..).mp h
  exact ⟨d, by simp [heq], hp, hname, hget, hv⟩

theorem mergeAll_definesOnce (h : SpelledAlike (base :: overlays) s name) :
    (mergeAll base overlays).DefinesOnce s name := by
  rintro p p' ⟨v, hv⟩ ⟨v', hv'⟩
  obtain ⟨d, hd, hset⟩ := exists_of_mergeAll_sets base overlays s name hv
  obtain ⟨d', hd', hset'⟩ := exists_of_mergeAll_sets base overlays s name hv'
  exact h d hd d' hd' p p' ⟨v, hset⟩ ⟨v', hset'⟩

/-- What is left at a key path after its last definition. -/
theorem left_of_last {docs pre post : List Mapping} {o : Mapping} {p : List String} {v w : Node}
    (hdocs : docs = pre ++ o :: post) (ho : o.get p = some v)
    (hpost : ∀ o' ∈ post, o'.get p ≠ some w) :
    Left docs p w ↔ w = v ∧ ∀ o' ∈ post, o'.Silent p := by
  subst hdocs
  have hnone : ¬ Left post p w := by
    rintro ⟨pre', d, post', rfl, hget, -⟩
    exact hpost d (by simp) hget
  have hsilent : ¬ o.Silent p := by
    intro h
    have hget := ho.symm.trans h.1
    simp at hget
  induction pre with
  | nil =>
    rw [List.nil_append, left_cons, ho]
    simp only [hnone, or_false, Option.some.injEq, eq_comm]
  | cons d pre ih =>
    rw [List.cons_append, left_cons]
    have hearlier : ¬ (d.get p = some w ∧ ∀ o' ∈ pre ++ o :: post, o'.Silent p) :=
      fun h => hsilent (h.2 o (by simp))
    rw [or_iff_right hearlier]
    exact ih

/-- What the merge makes of a parameter name: a spelling is in the merged mapping if a document has
left it there; there is at most one, if the documents spell the name alike; and the value of the
last overlay that defines the name is there, if all later overlays are silent on its key path. -/
theorem mergeAll_names :
    (∀ p v, (mergeAll base overlays).Sets s name p v ↔
      p ≠ [] ∧ parameterName p = name ∧ v.IsValue ∧ Left (base :: overlays) (s ++ p) v) ∧
    (SpelledAlike (base :: overlays) s name → (mergeAll base overlays).DefinesOnce s name) ∧
    ∀ pre o post p v, overlays = pre ++ o :: post → o.Sets s name p v →
      (∀ o' ∈ post, ∀ q, ¬ o'.Spells s name q) →
      ((mergeAll base overlays).Sets s name p v ↔ ∀ o' ∈ post, o'.Silent (s ++ p)) ∧
      (SpelledAlike (base :: overlays) s name →
        ∀ q w, (mergeAll base overlays).Sets s name q w → w = v) := by
  refine ⟨mergeAll_sets_iff base overlays s name, mergeAll_definesOnce base overlays s name, ?_⟩
  rintro pre o post p v rfl ⟨hp, hname, hget, hv⟩ hlast
  have hleft (w : Node) (hw : w.IsValue) :
      Left (base :: (pre ++ o :: post)) (s ++ p) w ↔ w = v ∧ ∀ o' ∈ post, o'.Silent (s ++ p) := by
    have hpost : ∀ o' ∈ post, o'.get (s ++ p) ≠ some w :=
      fun o' ho' hget' => hlast o' ho' p ⟨w, hp, hname, hget', hw⟩
    exact left_of_last (List.cons_append ..).symm hget hpost
  constructor
  · rw [mergeAll_sets_iff, hleft v hv]
    simp [hp, hname, hv]
  · intro halike q w hset
    obtain ⟨d, hd, hdset⟩ := exists_of_mergeAll_sets base _ s name hset
    obtain rfl : q = p := halike d hd o (by simp) q p ⟨w, hdset⟩ ⟨v, hp, hname, hget, hv⟩
    obtain ⟨-, -, hw, hl⟩ := (mergeAll_sets_iff ..).mp hset
    exact ((hleft w hw).mp hl).1

end

/-! ## Two spellings -/

/-- A document with a single value. -/
def nested (v : Node) : List String → Node
  | [] => v
  | k :: p => .mapping [(k, nested v p)]

theorem get_nested {v n : Node} (hv : ¬ v.IsMapping) {p q : List String}
    (h : (nested v p).get q = some n) : ∃ r, p = q ++ r ∧ n = nested v r := by
  induction q generalizing p with
  | nil => exact ⟨p, rfl, by simpa using h.symm⟩
  | cons k q ih =>
    cases p with
    | nil =>
      rw [nested, get_cons_of_not_mapping hv] at h
      simp at h
    | cons k' p =>
      rw [nested, get_mapping_cons, lookup_cons] at h
      split_ifs at h with hk
      · obtain rfl : k = k' := hk
        obtain ⟨r, rfl, hn⟩ := ih h
        exact ⟨r, rfl, hn⟩
      · simp at h

/-- Each name of the section is set by one key path, and not also the name of a group. -/
def Mapping.Proper (m : Mapping) (s : List String) : Prop :=
  ∀ name, m.DefinesOnce s name ∧
    ∀ p q entries, m.Spells s name p → q ≠ [] → m.get (s ++ q) = some (.mapping entries) →
      parameterName q ≠ name

def Mapping.NullFree (m : Mapping) : Prop := ∀ p, m.get p ≠ some .null

theorem parameterName_append_ne {q r : List String} (hq : q ≠ []) (hr : r ≠ []) :
    parameterName (q ++ r) ≠ parameterName q := by
  intro heq
  have hlength := congrArg String.length heq
  rw [parameterName, String.intercalate_append_of_ne_nil hq hr, parameterName] at hlength
  simp only [String.length_append] at hlength
  have hpoint : ".".length = 1 := rfl
  omega

/-- All documents are proper, and the overlays hold no nulls. -/
structure Admissible (base : Mapping) (overlays : List Mapping) : Prop where
  nullFree : ∀ o ∈ overlays, o.NullFree
  proper : ∀ d ∈ base :: overlays, ∀ s, IsSection s → d.Proper s

section
variable {m : Mapping} {x : Scalar} {path : List String}

theorem spells_of_nested (hm : Node.mapping m.entries = nested (.scalar x) path)
    {s : List String} {name : String} {p : List String} (h : m.Spells s name p) :
    path = s ++ p ∧ parameterName p = name := by
  obtain ⟨v, -, hname, hget, hv⟩ := h
  rw [Mapping.get, hm] at hget
  obtain ⟨r, hr, rfl⟩ := get_nested (by simp [IsMapping]) hget
  cases r with
  | nil => exact ⟨by simpa using hr, hname⟩
  | cons k r => exact hv.elim

theorem nullFree_of_nested (hm : Node.mapping m.entries = nested (.scalar x) path) :
    m.NullFree := by
  intro p hnull
  rw [Mapping.get, hm] at hnull
  obtain ⟨r, -, hn⟩ := get_nested (by simp [IsMapping]) hnull
  cases r <;> simp [nested] at hn

theorem proper_of_nested (hm : Node.mapping m.entries = nested (.scalar x) path)
    (s : List String) : m.Proper s := by
  refine fun name => ⟨?_, ?_⟩
  · intro p p' hp hp'
    have heq := (spells_of_nested hm hp).1.symm.trans (spells_of_nested hm hp').1
    exact List.append_cancel_left heq
  · rintro p q entries hp hq hgroup rfl
    rw [Mapping.get, hm] at hgroup
    obtain ⟨r, hr, hn⟩ := get_nested (by simp [IsMapping]) hgroup
    obtain ⟨hpath, hname⟩ := spells_of_nested hm hp
    rw [hpath, List.append_assoc] at hr
    obtain rfl := List.append_cancel_left hr
    refine parameterName_append_ne hq ?_ hname
    rintro rfl
    simp [nested] at hn

end

def controllerSection : List String := ["controller_server", "ros__parameters"]

/-- The baseline gives the scale of a critic by a key with a point. -/
def dottedBaseline : Mapping :=
  ⟨[("controller_server", .mapping [("ros__parameters", .mapping [("FollowPath",
    .mapping [("BaseObstacle.scale", .scalar (.int 1))])])])], by decide⟩

/-- An overlay gives it by a mapping for the critic. -/
def nestedOverlay : Mapping :=
  ⟨[("controller_server", .mapping [("ros__parameters", .mapping [("FollowPath",
    .mapping [("BaseObstacle", .mapping [("scale", .scalar (.int 2))])])])])], by decide⟩

/-- A later overlay has a number where the others have the mapping of the plugin. -/
def scalarOverlay : Mapping :=
  ⟨[("controller_server", .mapping [("ros__parameters", .mapping [("FollowPath",
    .scalar (.int 3))])])], by decide⟩

theorem dottedBaseline_nested : Node.mapping dottedBaseline.entries =
    nested (.scalar (.int 1)) (controllerSection ++ ["FollowPath", "BaseObstacle.scale"]) := rfl

theorem nestedOverlay_nested : Node.mapping nestedOverlay.entries =
    nested (.scalar (.int 2)) (controllerSection ++ ["FollowPath", "BaseObstacle", "scale"]) := rfl

theorem scalarOverlay_nested : Node.mapping scalarOverlay.entries =
    nested (.scalar (.int 3)) (controllerSection ++ ["FollowPath"]) := rfl

theorem admissible_dotted : Admissible dottedBaseline [nestedOverlay] where
  nullFree := by simpa using nullFree_of_nested nestedOverlay_nested
  proper d hd s _ := by
    simp only [List.mem_cons, List.not_mem_nil, or_false] at hd
    rcases hd with rfl | rfl
    · exact proper_of_nested dottedBaseline_nested s
    · exact proper_of_nested nestedOverlay_nested s

theorem admissible_scalar : Admissible nestedOverlay [nestedOverlay, scalarOverlay] where
  nullFree := by
    simpa using ⟨nullFree_of_nested nestedOverlay_nested, nullFree_of_nested scalarOverlay_nested⟩
  proper d hd s _ := by
    simp only [List.mem_cons, List.not_mem_nil, or_false] at hd
    rcases hd with rfl | rfl | rfl
    · exact proper_of_nested nestedOverlay_nested s
    · exact proper_of_nested nestedOverlay_nested s
    · exact proper_of_nested scalarOverlay_nested s

/-- Both spellings of the scale are in the merged mapping. -/
theorem scale_defined_twice :
    ¬ (mergeAll dottedBaseline [nestedOverlay]).DefinesOnce controllerSection
      "FollowPath.BaseObstacle.scale" := by
  intro honce
  have hsilent : ∀ o ∈ [nestedOverlay],
      o.Silent (controllerSection ++ ["FollowPath", "BaseObstacle.scale"]) := by
    intro o ho
    obtain rfl := List.mem_singleton.mp ho
    exact silentAt_of_check (by decide)
  have hdotted := (get_mergeAll_of_silent dottedBaseline hsilent).trans
    (show _ = some (.scalar (.int 1)) from rfl)
  have hnested : (mergeAll dottedBaseline ([] ++ nestedOverlay :: [])).get
      (controllerSection ++ ["FollowPath", "BaseObstacle", "scale"]) = some (.scalar (.int 2)) :=
    get_mergeAll_of_value dottedBaseline rfl trivial (by simp)
  have heq := honce ["FollowPath", "BaseObstacle.scale"] ["FollowPath", "BaseObstacle", "scale"]
    ⟨_, by simp, by decide, hdotted, trivial⟩ ⟨_, by simp, by decide, hnested, trivial⟩
  simp at heq

/-- A name may be left with two spellings, and one that is spelled alike may be lost with the
mapping that it was in. -/
theorem names_not_kept :
    (¬ ∀ (base : Mapping) (overlays : List Mapping), Admissible base overlays →
      ∀ s, IsSection s → ∀ name, (mergeAll base overlays).DefinesOnce s name) ∧
    ¬ ∀ (base : Mapping) (overlays : List Mapping), Admissible base overlays →
      ∀ s, IsSection s → ∀ name, SpelledAlike (base :: overlays) s name →
        ∀ pre o post p v, overlays = pre ++ o :: post → o.Sets s name p v →
          (∀ o' ∈ post, ∀ q, ¬ o'.Spells s name q) →
          ∃ q, (mergeAll base overlays).Sets s name q v := by
  constructor
  · intro hall
    exact scale_defined_twice (hall _ _ admissible_dotted controllerSection rfl _)
  · intro hall
    have hscalar (q : List String) :
        ¬ scalarOverlay.Spells controllerSection "FollowPath.BaseObstacle.scale" q := by
      intro h
      obtain ⟨hpath, hname⟩ := spells_of_nested scalarOverlay_nested h
      obtain rfl := List.append_cancel_left hpath
      exact absurd hname (by decide)
    have hspelled : ∀ d ∈ [nestedOverlay, nestedOverlay, scalarOverlay], ∀ q,
        d.Spells controllerSection "FollowPath.BaseObstacle.scale" q →
          q = ["FollowPath", "BaseObstacle", "scale"] := by
      intro d hd q h
      simp only [List.mem_cons, List.not_mem_nil, or_false] at hd
      rcases hd with rfl | rfl | rfl
      · exact (List.append_cancel_left (spells_of_nested nestedOverlay_nested h).1).symm
      · exact (List.append_cancel_left (spells_of_nested nestedOverlay_nested h).1).symm
      · exact absurd h (hscalar q)
    obtain ⟨q, hset⟩ := hall _ _ admissible_scalar controllerSection rfl
      "FollowPath.BaseObstacle.scale"
      (fun d hd d' hd' p p' h h' => (hspelled d hd p h).trans (hspelled d' hd' p' h').symm)
      [] nestedOverlay [scalarOverlay] ["FollowPath", "BaseObstacle", "scale"] _ rfl
      ⟨by simp, by decide, rfl, trivial⟩ (by simpa using hscalar)
    obtain ⟨d, hd, hdset⟩ := exists_of_mergeAll_sets _ _ _ _ hset
    obtain rfl := hspelled d hd q ⟨_, hdset⟩
    have hnone : (mergeAll nestedOverlay [nestedOverlay, scalarOverlay]).get
        (controllerSection ++ ["FollowPath", "BaseObstacle", "scale"]) = none := rfl
    have hvalue := hnone.symm.trans hset.2.2.1
    simp at hvalue

end TitanRobot.Nav

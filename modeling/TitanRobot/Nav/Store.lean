import TitanRobot.Nav.Layers

/-!
# The loaded document in memory

`deep_merge` on the mappings in memory, where an anchor and its aliases are one mapping. A store
holds the mappings by address; lists and scalars are never changed and are values. The merge
recurses into the mappings of the base and writes deep copies of the overriding values.
-/
namespace TitanRobot.Nav
open Dict Node

inductive Val where
  | null
  | scalar (s : Scalar)
  | list (items : List Val)
  | ref (address : ℕ)

/-- The mappings by address. -/
abbrev Store := List (List (String × Val))

def Store.entries (σ : Store) (a : ℕ) : List (String × Val) := σ.getD a []

/-! ## The merge -/

mutual

/-- `copy.deepcopy` of a value of an overlay, which is a tree. -/
def deepcopy (σ : Store) : Node → Store × Val
  | .null => (σ, .null)
  | .scalar s => (σ, .scalar s)
  | .list items => ((deepcopyItems σ items).1, .list (deepcopyItems σ items).2)
  | .mapping entries =>
    ((deepcopyEntries σ entries).1 ++ [(deepcopyEntries σ entries).2],
      .ref (deepcopyEntries σ entries).1.length)

def deepcopyItems (σ : Store) : List Node → Store × List Val
  | [] => (σ, [])
  | n :: items =>
    ((deepcopyItems (deepcopy σ n).1 items).1,
      (deepcopy σ n).2 :: (deepcopyItems (deepcopy σ n).1 items).2)

def deepcopyEntry (σ : Store) : String × Node → Store × (String × Val)
  | (k, n) => ((deepcopy σ n).1, (k, (deepcopy σ n).2))

def deepcopyEntries (σ : Store) : List (String × Node) → Store × List (String × Val)
  | [] => (σ, [])
  | e :: entries =>
    ((deepcopyEntries (deepcopyEntry σ e).1 entries).1,
      (deepcopyEntry σ e).2 :: (deepcopyEntries (deepcopyEntry σ e).1 entries).2)

end

/-- `base.pop(key, None)` -/
def Store.pop (σ : Store) (base : ℕ) (key : String) : Store :=
  σ.set base (erase key (σ.entries base))

/-- `base[key] = copy.deepcopy(value)` -/
def Store.assign (σ : Store) (base : ℕ) (key : String) (value : Node) : Store :=
  (deepcopy σ value).1.set base (insert key (deepcopy σ value).2 (σ.entries base))

mutual

/-- `deep_merge` into the mapping at the address `base`. -/
def mergeInto (σ : Store) (base : ℕ) : List (String × Node) → Store
  | [] => σ
  | entry :: rest => mergeInto (mergeEntryInto σ base entry) base rest

/-- The body of the loop over `override.items()`. -/
def mergeEntryInto (σ : Store) (base : ℕ) : String × Node → Store
  | (key, value) => mergeValueInto σ base key value

def mergeValueInto (σ : Store) (base : ℕ) (key : String) : Node → Store
  | .null => σ.pop base key
  | .mapping entries =>
    match (σ.entries base).lookup key with
    | some (.ref prior) => mergeInto σ prior entries
    | _ => σ.assign base key (.mapping entries)
  | value => σ.assign base key value

end

/-- The loop over the overlays. -/
def mergeAllInto (σ : Store) (root : ℕ) : List Mapping → Store
  | [] => σ
  | o :: overlays => mergeAllInto (mergeInto σ root o.entries) root overlays

/-! ## Writes -/

/-- A write of the merge: the store before it, the mapping, its key, and the overriding value. -/
structure Write where
  store : Store
  base : ℕ
  key : String
  value : Node

mutual

/-- The writes that `mergeInto` makes, in order. -/
def writes (σ : Store) (base : ℕ) : List (String × Node) → List Write
  | [] => []
  | entry :: rest => writesEntry σ base entry ++ writes (mergeEntryInto σ base entry) base rest

def writesEntry (σ : Store) (base : ℕ) : String × Node → List Write
  | (key, value) => writesValue σ base key value

def writesValue (σ : Store) (base : ℕ) (key : String) : Node → List Write
  | .mapping entries =>
    match (σ.entries base).lookup key with
    | some (.ref prior) => writes σ prior entries
    | _ => [⟨σ, base, key, .mapping entries⟩]
  | value => [⟨σ, base, key, value⟩]

end

def writesAll (σ : Store) (root : ℕ) : List Mapping → List Write
  | [] => []
  | o :: overlays => writes σ root o.entries ++ writesAll (mergeInto σ root o.entries) root overlays

/-! ## Denoted documents -/

mutual

/-- In the store the value stands for a document, all mappings of which are at addresses in `S`. -/
inductive Denotes (σ : Store) (S : Set ℕ) : Val → Node → Prop
  | null : Denotes σ S .null .null
  | scalar (s : Scalar) : Denotes σ S (.scalar s) (.scalar s)
  | list {vs : List Val} {items : List Node} (h : DenotesItems σ S vs items) :
      Denotes σ S (.list vs) (.list items)
  | mapping {a : ℕ} {entries : Entries} (ha : a ∈ S) (hlt : a < σ.length)
      (h : DenotesEntries σ S (σ.entries a) entries) : Denotes σ S (.ref a) (.mapping entries)

inductive DenotesItems (σ : Store) (S : Set ℕ) : List Val → List Node → Prop
  | nil : DenotesItems σ S [] []
  | cons {v : Val} {n : Node} {vs : List Val} {items : List Node} (h : Denotes σ S v n)
      (ht : DenotesItems σ S vs items) : DenotesItems σ S (v :: vs) (n :: items)

inductive DenotesEntries (σ : Store) (S : Set ℕ) : List (String × Val) → Entries → Prop
  | nil : DenotesEntries σ S [] []
  | cons {k : String} {v : Val} {n : Node} {d : List (String × Val)} {entries : Entries}
      (h : Denotes σ S v n) (ht : DenotesEntries σ S d entries) :
      DenotesEntries σ S ((k, v) :: d) ((k, n) :: entries)

end

section
variable {σ : Store} {S : Set ℕ}

theorem denotesItems_iff {vs : List Val} {items : List Node} :
    DenotesItems σ S vs items ↔ List.Forall₂ (Denotes σ S) vs items := by
  constructor
  · intro h
    induction items generalizing vs with
    | nil =>
      cases h
      exact List.Forall₂.nil
    | cons n items ih =>
      cases h with
      | cons h ht => exact List.Forall₂.cons h (ih ht)
  · intro h
    induction h with
    | nil => exact DenotesItems.nil
    | cons h _ ih => exact DenotesItems.cons h ih

theorem denotesEntries_iff {d : List (String × Val)} {entries : Entries} :
    DenotesEntries σ S d entries ↔ Matches (Denotes σ S) d entries := by
  constructor
  · intro h
    induction entries generalizing d with
    | nil =>
      cases h
      exact List.Forall₂.nil
    | cons e entries ih =>
      cases h with
      | cons h ht => exact List.Forall₂.cons ⟨rfl, h⟩ (ih ht)
  · intro h
    induction h with
    | nil => exact DenotesEntries.nil
    | @cons x y d entries hxy _ ih =>
      obtain ⟨k, v⟩ := x
      obtain ⟨k', n⟩ := y
      obtain ⟨rfl, hv⟩ := hxy
      exact DenotesEntries.cons hv ih

theorem denotes_list_iff {v : Val} {items : List Node} :
    Denotes σ S v (.list items) ↔ ∃ vs, v = .list vs ∧ List.Forall₂ (Denotes σ S) vs items := by
  constructor
  · intro h
    cases h with
    | list h => exact ⟨_, rfl, denotesItems_iff.mp h⟩
  · rintro ⟨vs, rfl, h⟩
    exact Denotes.list (denotesItems_iff.mpr h)

theorem denotes_mapping_iff {v : Val} {entries : Entries} :
    Denotes σ S v (.mapping entries) ↔
      ∃ a, v = .ref a ∧ a ∈ S ∧ a < σ.length ∧ Matches (Denotes σ S) (σ.entries a) entries := by
  constructor
  · intro h
    cases h with
    | mapping ha hlt h => exact ⟨_, rfl, ha, hlt, denotesEntries_iff.mp h⟩
  · rintro ⟨a, rfl, ha, hlt, h⟩
    exact Denotes.mapping ha hlt (denotesEntries_iff.mpr h)

theorem denotes_ref_iff {a : ℕ} {entries : Entries} :
    Denotes σ S (.ref a) (.mapping entries) ↔
      a ∈ S ∧ a < σ.length ∧ Matches (Denotes σ S) (σ.entries a) entries := by
  rw [denotes_mapping_iff]
  constructor
  · rintro ⟨b, heq, h⟩
    obtain rfl := Val.ref.inj heq
    exact h
  · exact fun h => ⟨a, rfl, h⟩

/-- The keys of a mapping are those of the document. -/
theorem uniqueKeys_entries {a : ℕ} {entries : Entries}
    (h : Denotes σ S (.ref a) (.mapping entries)) (hwf : (Node.mapping entries).wf = true) :
    UniqueKeys (σ.entries a) := by
  rw [UniqueKeys, (denotes_ref_iff.mp h).2.2.keys_eq]
  exact (wf_mapping.mp hwf).1

end

end TitanRobot.Nav

import TitanRobot.Lib.Binary64
import TitanRobot.Lib.Dict

/-!
# YAML values

The values that `yaml.safe_load` builds from parameter files, and what a mapping holds at a
key path. A `Mapping` carries the proof that no dictionary inside it has a key twice.
-/
namespace TitanRobot.Nav
open Dict

inductive Scalar where
  | str (s : String)
  | int (n : ℤ)
  | float (d : Double)
  | bool (b : Bool)
  deriving DecidableEq

inductive Node where
  | null
  | scalar (s : Scalar)
  | list (items : List Node)
  | mapping (entries : List (String × Node))

abbrev Entries := List (String × Node)

namespace Node

def IsMapping : Node → Prop
  | mapping _ => True
  | _ => False

/-- A scalar or a list. -/
def IsValue : Node → Prop
  | scalar _ => True
  | list _ => True
  | _ => False

theorem IsValue.not_isMapping {n : Node} (h : n.IsValue) : ¬ n.IsMapping := by
  cases n <;> simp_all [IsValue, IsMapping]

/-- The value is null, or has a null somewhere inside. -/
inductive HasNull : Node → Prop where
  | null : HasNull null
  | item {items : List Node} {n : Node} : n ∈ items → HasNull n → HasNull (list items)
  | entry {entries : List (String × Node)} {e : String × Node} :
      e ∈ entries → HasNull e.2 → HasNull (mapping entries)

/-- What the value holds at a key path: nothing, if the path leaves the mappings. -/
def get : Node → List String → Option Node
  | n, [] => some n
  | mapping entries, k :: p => (entries.lookup k).bind fun n => n.get p
  | _, _ :: _ => none
  termination_by structural _ p => p

mutual

def wf : Node → Bool
  | null => true
  | scalar _ => true
  | list items => wfItems items
  | mapping entries => decide (UniqueKeys entries) && wfEntries entries

def wfItems : List Node → Bool
  | [] => true
  | n :: items => n.wf && wfItems items

def wfEntry : String × Node → Bool
  | (_, n) => n.wf

def wfEntries : List (String × Node) → Bool
  | [] => true
  | e :: entries => wfEntry e && wfEntries entries

end

theorem sizeOf_lt_of_mem_entries {entries : Entries} {e : String × Node} (h : e ∈ entries) :
    sizeOf e.2 < sizeOf (mapping entries) := by
  have hmem := List.sizeOf_lt_of_mem h
  obtain ⟨k, n⟩ := e
  simp only [Prod.mk.sizeOf_spec, mapping.sizeOf_spec] at *
  omega

theorem sizeOf_lt_of_mem_items {items : List Node} {n : Node} (h : n ∈ items) :
    sizeOf n < sizeOf (list items) := by
  have hmem := List.sizeOf_lt_of_mem h
  simp only [list.sizeOf_spec]
  omega

/-- Induction over the values inside a value. -/
theorem induction {P : Node → Prop} (null : P .null) (scalar : ∀ s, P (.scalar s))
    (list : ∀ items, (∀ n ∈ items, P n) → P (.list items))
    (mapping : ∀ entries : Entries, (∀ e ∈ entries, P e.2) → P (.mapping entries)) :
    ∀ n, P n
  | .null => null
  | .scalar s => scalar s
  | .list items => list items fun n _ => induction null scalar list mapping n
  | .mapping entries => mapping entries fun e _ => induction null scalar list mapping e.2
  decreasing_by
    · exact sizeOf_lt_of_mem_items ‹_›
    · exact sizeOf_lt_of_mem_entries ‹_›

theorem isMapping_iff {n : Node} : n.IsMapping ↔ ∃ entries, n = mapping entries := by
  cases n <;> simp [IsMapping]

/-- A dictionary holds a mapping at a key, or it does not. -/
theorem lookup_mapping_or (entries : Entries) (k : String) :
    (∃ inner, entries.lookup k = some (mapping inner)) ∨
      ∀ n, entries.lookup k = some n → ¬ n.IsMapping := by
  by_cases h : ∃ inner, entries.lookup k = some (mapping inner)
  · exact .inl h
  · refine .inr fun n hn hmap => h ?_
    obtain ⟨inner, rfl⟩ := isMapping_iff.mp hmap
    exact ⟨inner, hn⟩

@[simp] theorem get_nil (n : Node) : n.get [] = some n := by
  cases n <;> rfl

@[simp] theorem get_mapping_cons (entries : Entries) (k : String) (p : List String) :
    (mapping entries).get (k :: p) = (entries.lookup k).bind fun n => n.get p := rfl

theorem get_cons_of_not_mapping {n : Node} (h : ¬ n.IsMapping) (k : String) (p : List String) :
    n.get (k :: p) = none := by
  cases n with
  | mapping entries => exact absurd trivial h
  | _ => rfl

theorem get_append (n : Node) (p q : List String) :
    n.get (p ++ q) = (n.get p).bind fun m => m.get q := by
  induction p generalizing n with
  | nil => simp
  | cons k p ih =>
    cases n with
    | mapping entries => cases h : entries.lookup k <;> simp [h, ih]
    | _ => simp [get]

theorem wfEntries_iff {entries : Entries} : wfEntries entries = true ↔ ∀ e ∈ entries, e.2.wf := by
  induction entries with
  | nil => simp [wfEntries]
  | cons e entries ih =>
    obtain ⟨k, n⟩ := e
    simp [wfEntries, wfEntry, ih]

theorem wfItems_iff {items : List Node} : wfItems items = true ↔ ∀ n ∈ items, n.wf := by
  induction items with
  | nil => simp [wfItems]
  | cons n items ih => simp [wfItems, ih]

theorem wf_mapping {entries : Entries} :
    (mapping entries).wf = true ↔ UniqueKeys entries ∧ ∀ e ∈ entries, e.2.wf := by
  simp [wf, wfEntries_iff]

theorem wf_of_lookup {entries : Entries} (h : (mapping entries).wf = true) {k : String} {n : Node}
    (hn : entries.lookup k = some n) : n.wf = true := by
  obtain ⟨l, r, rfl, -⟩ := List.lookup_eq_some_iff.mp hn
  exact (wf_mapping.mp h).2 (k, n) (by simp)

theorem wf_insert {entries : Entries} (h : (mapping entries).wf = true) (k : String) {n : Node}
    (hn : n.wf = true) : (mapping (insert k n entries)).wf = true := by
  obtain ⟨hunique, hall⟩ := wf_mapping.mp h
  refine wf_mapping.mpr ⟨hunique.insert k n, fun e he => ?_⟩
  rcases mem_insert he with rfl | he
  · exact hn
  · exact hall e he

theorem wf_erase {entries : Entries} (h : (mapping entries).wf = true) (k : String) :
    (mapping (erase k entries)).wf = true := by
  obtain ⟨hunique, hall⟩ := wf_mapping.mp h
  exact wf_mapping.mpr ⟨hunique.erase k, fun e he => hall e (List.mem_of_mem_filter he)⟩

/-! ## Replacing a part -/

/-- The value with another one at a key path that it has. -/
def put : Node → List String → Node → Node
  | _, [], m => m
  | mapping entries, k :: p, m =>
    match entries.lookup k with
    | some n => mapping (insert k (n.put p m) entries)
    | none => mapping entries
  | n, _ :: _, _ => n
  termination_by structural _ p _ => p

@[simp] theorem put_nil (n m : Node) : n.put [] m = m := by
  cases n <;> rfl

theorem put_cons {entries : Entries} {k : String} {n : Node} (hk : entries.lookup k = some n)
    (p : List String) (m : Node) :
    (mapping entries).put (k :: p) m = mapping (insert k (n.put p m) entries) := by
  simp [put, hk]

theorem get_cons_eq_some_iff {n x : Node} {k : String} {p : List String} :
    n.get (k :: p) = some x ↔
      ∃ entries n', n = mapping entries ∧ entries.lookup k = some n' ∧ n'.get p = some x := by
  cases n with
  | mapping entries => simp [Option.bind_eq_some_iff]
  | _ => simp [get]

section
variable {n x : Node} {p : List String}

theorem get_put (h : n.get p = some x) (m : Node) : (n.put p m).get p = some m := by
  induction p generalizing n with
  | nil => simp
  | cons k p ih =>
    obtain ⟨entries, n', rfl, hk, hn⟩ := get_cons_eq_some_iff.mp h
    rw [put_cons hk, get_mapping_cons, lookup_insert, if_pos rfl]
    exact ih hn

theorem put_put (h : n.get p = some x) (m m' : Node) : (n.put p m).put p m' = n.put p m' := by
  induction p generalizing n with
  | nil => simp
  | cons k p ih =>
    obtain ⟨entries, n', rfl, hk, hn⟩ := get_cons_eq_some_iff.mp h
    rw [put_cons hk, put_cons hk, put_cons (n := n'.put p m) (by rw [lookup_insert, if_pos rfl]),
      insert_insert, ih hn]

theorem put_get (h : n.get p = some x) : n.put p x = n := by
  induction p generalizing n with
  | nil => simpa using h.symm
  | cons k p ih =>
    obtain ⟨entries, n', rfl, hk, hn⟩ := get_cons_eq_some_iff.mp h
    rw [put_cons hk, ih hn, insert_of_lookup hk]

/-- Replacing the value of a key of a mapping inside. -/
theorem put_append {entries : Entries} (h : n.get p = some (mapping entries)) {k : String}
    (hk : entries.lookup k = some x) (m : Node) :
    n.put (p ++ [k]) m = n.put p (mapping (insert k m entries)) := by
  induction p generalizing n with
  | nil =>
    obtain rfl : n = mapping entries := by simpa using h
    rw [List.nil_append, put_cons hk, put_nil, put_nil]
  | cons k' p ih =>
    obtain ⟨entries', n', rfl, hk', hn⟩ := get_cons_eq_some_iff.mp h
    rw [List.cons_append, put_cons hk', put_cons hk', ih hn]

theorem wf_put (hn : n.wf = true) (h : n.get p = some x) {m : Node} (hm : m.wf = true) :
    (n.put p m).wf = true := by
  induction p generalizing n with
  | nil => simpa using hm
  | cons k p ih =>
    obtain ⟨entries, n', rfl, hk, hget⟩ := get_cons_eq_some_iff.mp h
    rw [put_cons hk]
    exact wf_insert hn k (ih (wf_of_lookup hn hk) hget)

theorem wf_of_get (hn : n.wf = true) (h : n.get p = some x) : x.wf = true := by
  induction p generalizing n with
  | nil =>
    obtain rfl : n = x := by simpa using h
    exact hn
  | cons k p ih =>
    obtain ⟨entries, n', rfl, hk, hget⟩ := get_cons_eq_some_iff.mp h
    exact ih (wf_of_lookup hn hk) hget

end

end Node

/-- A mapping none of whose dictionaries has a key twice. -/
structure Mapping where
  entries : Entries
  wf : (Node.mapping entries).wf = true

/-- What the mapping holds at a key path. -/
def Mapping.get (m : Mapping) (p : List String) : Option Node := (Node.mapping m.entries).get p

end TitanRobot.Nav

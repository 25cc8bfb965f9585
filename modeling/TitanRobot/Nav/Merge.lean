import TitanRobot.Nav.Node

/-!
# Deep merge

`deep_merge` and what its result holds at a key path. `lookup_deepMerge` says what happens
at one key; everything about paths follows from it by induction on the path.
-/
namespace TitanRobot.Nav
open Dict Node

/-! ## The merge -/

mutual

def deepMerge (base : Entries) : List (String × Node) → Entries
  | [] => base
  | entry :: rest => deepMerge (mergeEntry base entry) rest

/-- The body of the loop over `override.items()`. -/
def mergeEntry (base : Entries) : String × Node → Entries
  | (key, value) => mergeValue base key value

def mergeValue (base : Entries) (key : String) : Node → Entries
  | .null => erase key base
  | .mapping entries =>
    match base.lookup key with
    | some (.mapping prior) => insert key (.mapping (deepMerge prior entries)) base
    | _ => insert key (.mapping entries) base
  | value => insert key value base

end

/-- What the merge leaves at a key, from what the base held there and the overriding value. -/
def override : Option Node → Node → Option Node
  | _, .null => none
  | some (.mapping prior), .mapping entries => some (.mapping (deepMerge prior entries))
  | _, value => some value

theorem deepMerge_eq_foldl (base o : Entries) : deepMerge base o = o.foldl mergeEntry base := by
  induction o generalizing base with
  | nil => rfl
  | cons entry o ih => exact ih _

theorem lookup_mergeEntry (base : Entries) (entry : String × Node) (k : String) :
    (mergeEntry base entry).lookup k =
      if k = entry.1 then override (base.lookup k) entry.2 else base.lookup k := by
  obtain ⟨key, value⟩ := entry
  cases value with
  | null =>
    rw [mergeEntry, mergeValue, lookup_erase]
    rfl
  | mapping entries =>
    rw [mergeEntry, mergeValue]
    split
    · rename_i prior hprior
      rw [lookup_insert]
      split_ifs with hk
      · rw [hk, hprior]
        rfl
      · rfl
    · rename_i hprior
      rw [lookup_insert]
      split_ifs with hk
      · rw [hk]
        unfold override
        split <;> simp_all
      · rfl
  | scalar s =>
    rw [mergeEntry, mergeValue, lookup_insert]
    · rfl
    · simp
    · simp
  | list items =>
    rw [mergeEntry, mergeValue, lookup_insert]
    · rfl
    · simp
    · simp

/-- The merge at one key. -/
theorem lookup_deepMerge {o : Entries} (ho : UniqueKeys o) (base : Entries) (k : String) :
    (deepMerge base o).lookup k =
      (o.lookup k).elim (base.lookup k) (override (base.lookup k)) := by
  rw [deepMerge_eq_foldl]
  exact lookup_foldl lookup_mergeEntry ho base k

theorem override_value {value : Node} (h : value.IsValue) (prior : Option Node) :
    override prior value = some value := by
  cases value <;> simp_all [IsValue, override]

/-- The overriding mapping is taken as a whole where the base holds no mapping. -/
theorem override_of_not_mapping {prior : Option Node} (h : ∀ n, prior = some n → ¬ n.IsMapping)
    (entries : Entries) : override prior (.mapping entries) = some (.mapping entries) := by
  unfold override
  split <;> simp_all [IsMapping]

/-! ## Well-formed results -/

mutual

theorem wf_deepMerge (base o : Entries) (hbase : (mapping base).wf = true)
    (ho : wfEntries o = true) : (mapping (deepMerge base o)).wf = true := by
  match o with
  | [] => exact hbase
  | entry :: rest =>
    rw [wfEntries, Bool.and_eq_true] at ho
    exact wf_deepMerge _ rest (wf_mergeEntry base entry hbase ho.1) ho.2
  termination_by structural o

theorem wf_mergeEntry (base : Entries) (entry : String × Node) (hbase : (mapping base).wf = true)
    (hentry : wfEntry entry = true) : (mapping (mergeEntry base entry)).wf = true := by
  match entry with
  | (key, value) => exact wf_mergeValue base key value hbase hentry
  termination_by structural entry

theorem wf_mergeValue (base : Entries) (key : String) (value : Node)
    (hbase : (mapping base).wf = true) (hvalue : value.wf = true) :
    (mapping (mergeValue base key value)).wf = true := by
  match value with
  | .null => exact wf_erase hbase key
  | .scalar s => exact wf_insert hbase key hvalue
  | .list items => exact wf_insert hbase key hvalue
  | .mapping entries =>
    rw [mergeValue]
    split
    · rename_i prior hprior
      refine wf_insert hbase key (wf_deepMerge prior entries (wf_of_lookup hbase hprior) ?_)
      rw [wf, Bool.and_eq_true] at hvalue
      exact hvalue.2
    · exact wf_insert hbase key hvalue
  termination_by structural value

end

end TitanRobot.Nav

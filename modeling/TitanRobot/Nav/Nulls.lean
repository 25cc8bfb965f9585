import TitanRobot.Nav.Layers

/-!
# Nulls of the overlays

A null of an overlay removes the entry at its key path where mappings stand all along the path. It
stays where the subtree around it is taken over as a whole, and inside a list.
-/
namespace TitanRobot.Nav
open Dict Node

/-! ## One merge -/

/-- The base holds a mapping at every non-empty proper prefix of the path. -/
def MappedAbove (entries : Entries) (p : List String) : Prop :=
  ∀ q r, p = q ++ r → q ≠ [] → r ≠ [] → ∃ n, (mapping entries).get q = some n ∧ n.IsMapping

theorem mappedAbove_singleton (entries : Entries) (k : String) : MappedAbove entries [k] := by
  intro q r heq hq hr
  obtain ⟨k', q, rfl⟩ := List.exists_cons_of_ne_nil hq
  simp_all

theorem mappedAbove_cons {entries inner : Entries} {k : String} {p : List String}
    (hk : entries.lookup k = some (.mapping inner)) :
    MappedAbove entries (k :: p) ↔ MappedAbove inner p := by
  constructor
  · rintro h q r rfl hq hr
    obtain ⟨n, hn, hmap⟩ := h (k :: q) r rfl (by simp) hr
    exact ⟨n, by simpa [hk] using hn, hmap⟩
  · intro h q r heq hq hr
    obtain ⟨k', q, rfl⟩ := List.exists_cons_of_ne_nil hq
    obtain ⟨rfl, rfl⟩ := List.cons_eq_cons.mp heq
    cases q with
    | nil => exact ⟨mapping inner, by simp [hk], trivial⟩
    | cons k' q =>
      obtain ⟨n, hn, hmap⟩ := h (k' :: q) r rfl (by simp) hr
      exact ⟨n, by simpa [hk] using hn, hmap⟩

/-- A null of the overlay removes what the base holds below mappings, and stays as a null
where the mapping around it is taken over as a whole. -/
theorem get_deepMerge_of_null {o : Entries} (ho : (mapping o).wf = true) (base : Entries)
    {p : List String} (h : (mapping o).get p = some .null) :
    (mapping (deepMerge base o)).get p = none ↔ MappedAbove base p := by
  induction p generalizing base o with
  | nil => simp at h
  | cons k p ih =>
    rw [get_mapping_cons] at h ⊢
    obtain ⟨n, hk, hn⟩ := Option.bind_eq_some_iff.mp h
    rw [lookup_deepMerge (unique_of_wf ho), hk, Option.elim_some]
    cases p with
    | nil =>
      obtain rfl : n = .null := by simpa using hn
      exact iff_of_true rfl (mappedAbove_singleton base k)
    | cons k' p =>
      have hmap : n.IsMapping := by
        by_contra hnot
        rw [get_cons_of_not_mapping hnot] at hn
        simp at hn
      obtain ⟨m, rfl⟩ := isMapping_iff.mp hmap
      rcases lookup_mapping_or base k with ⟨prior, hprior⟩ | hnot
      · rw [hprior, mappedAbove_cons hprior]
        exact ih (wf_of_lookup ho hk) prior hn
      · rw [override_of_not_mapping hnot, Option.bind_some, hn]
        refine iff_of_false (by simp) fun h => ?_
        obtain ⟨n, hn', hmap⟩ := h [k] (k' :: p) rfl (by simp) (by simp)
        exact hnot n (by simpa using hn') hmap

/-- A mapping of the overlay stands on a mapping, whatever the base holds. -/
theorem get_deepMerge_of_mapping {o : Entries} (ho : (mapping o).wf = true) (base : Entries)
    {p : List String} {n : Node} (h : (mapping o).get p = some n) (hmap : n.IsMapping) :
    ∃ n', (mapping (deepMerge base o)).get p = some n' ∧ n'.IsMapping := by
  induction p generalizing base o with
  | nil => exact ⟨_, get_nil _, trivial⟩
  | cons k p ih =>
    rw [get_mapping_cons] at h ⊢
    obtain ⟨m, hk, hm⟩ := Option.bind_eq_some_iff.mp h
    rw [lookup_deepMerge (unique_of_wf ho), hk, Option.elim_some]
    obtain ⟨inner, rfl⟩ : ∃ inner, m = mapping inner := by
      cases p with
      | nil =>
        obtain rfl : m = n := by simpa using hm
        exact isMapping_iff.mp hmap
      | cons k' p =>
        obtain ⟨inner, -, rfl, -⟩ := get_cons_eq_some_iff.mp hm
        exact ⟨inner, rfl⟩
    rcases lookup_mapping_or base k with ⟨prior, hprior⟩ | hnot
    · rw [hprior]
      exact ih (wf_of_lookup ho hk) prior hm
    · rw [override_of_not_mapping hnot]
      exact ⟨n, hm, hmap⟩

/-- The mapping has a mapping at the key path. -/
def Mapping.MapsAt (m : Mapping) (p : List String) : Prop := ∃ n, m.get p = some n ∧ n.IsMapping

/-- Where mappings are after a merge. -/
theorem mapsAt_merge_iff (base o : Mapping) (p : List String) :
    (base.merge o).MapsAt p ↔ o.MapsAt p ∨ (o.Silent p ∧ base.MapsAt p) := by
  constructor
  · rintro ⟨n, hn, hmap⟩
    rcases get_deepMerge_cases o.wf hn with ⟨w, hw, rfl | ⟨hwmap, -⟩⟩ | ⟨hsilent, hbase⟩
    · exact Or.inl ⟨w, hw, hmap⟩
    · exact Or.inl ⟨w, hw, hwmap⟩
    · exact Or.inr ⟨hsilent, n, hbase, hmap⟩
  · rintro (⟨n, hn, hmap⟩ | ⟨hsilent, n, hn, hmap⟩)
    · exact get_deepMerge_of_mapping o.wf base.entries hn hmap
    · exact ⟨n, (get_merge_of_silent base hsilent).trans hn, hmap⟩

/-! ## All overlays -/

/-- The documents leave a mapping at the key path. -/
def LeavesMapping (docs : List Mapping) (p : List String) : Prop := ∃ n, Left docs p n ∧ n.IsMapping

theorem leavesMapping_cons {d : Mapping} {docs : List Mapping} {p : List String} :
    LeavesMapping (d :: docs) p ↔
      (d.MapsAt p ∧ ∀ o ∈ docs, o.Silent p) ∨ LeavesMapping docs p := by
  simp only [LeavesMapping, Mapping.MapsAt, left_cons]
  grind

/-- The mappings of the merged mapping are where the documents leave one. -/
theorem mapsAt_mergeAll_iff (base : Mapping) (overlays : List Mapping) (p : List String) :
    (mergeAll base overlays).MapsAt p ↔ LeavesMapping (base :: overlays) p := by
  induction overlays generalizing base with
  | nil =>
    rw [leavesMapping_cons]
    simp [mergeAll, LeavesMapping, Left]
  | cons o overlays ih =>
    have hrun : (mergeAll base (o :: overlays)).MapsAt p ↔
        LeavesMapping (base.merge o :: overlays) p := ih (base.merge o)
    rw [hrun, leavesMapping_cons, mapsAt_merge_iff, leavesMapping_cons, leavesMapping_cons,
      List.forall_mem_cons]
    tauto

/-- The documents leave a mapping at every non-empty proper prefix of the path. -/
def LeavesMappingsAbove (docs : List Mapping) (p : List String) : Prop :=
  ∀ q r, p = q ++ r → q ≠ [] → r ≠ [] → LeavesMapping docs q

/-- When the last null at a path removes the entry: mappings are left above it by the base and
the overlays before. -/
theorem get_mergeAll_of_null (base : Mapping) {pre post : List Mapping} {o : Mapping}
    {p : List String} (h : o.get p = some .null) (hpost : ∀ o' ∈ post, o'.Silent p) :
    (mergeAll base (pre ++ o :: post)).get p = none ↔ LeavesMappingsAbove (base :: pre) p := by
  have hsplit : mergeAll base (pre ++ o :: post) = mergeAll ((mergeAll base pre).merge o) post :=
    List.foldl_append
  have hlast : ((mergeAll base pre).merge o).get p = none ↔
      MappedAbove (mergeAll base pre).entries p :=
    get_deepMerge_of_null o.wf _ h
  rw [hsplit, get_mergeAll_of_silent _ hpost, hlast]
  simp only [LeavesMappingsAbove, ← mapsAt_mergeAll_iff]
  rfl

/-- Overlay nulls remove the entries at their paths, and none is in the merged mapping: the nulls
in it, alone or inside a list, are where the base had them and no overlay speaks. -/
structure NullsRemoved (base : Mapping) (overlays : List Mapping) : Prop where
  removed : ∀ p, Left overlays p .null → (mergeAll base overlays).get p = none
  absent : ∀ p n, (mergeAll base overlays).get p = some n → ¬ n.IsMapping → n.HasNull →
    base.get p = some n ∧ ∀ o ∈ overlays, o.Silent p

/-- When the nulls of the overlays are removed: in one merge, where the base holds mappings above
them; over all overlays, where mappings are left above each of them and none is in a list. -/
theorem overlayNulls_removed_iff (base : Mapping) (overlays : List Mapping) :
    (∀ (o : Mapping) (p : List String), o.get p = some .null →
      ((base.merge o).get p = none ↔
        ∀ q r, p = q ++ r → q ≠ [] → r ≠ [] → base.MapsAt q)) ∧
    (NullsRemoved base overlays ↔
      (∀ pre o post p, overlays = pre ++ o :: post → o.get p = some .null →
        (∀ o' ∈ post, o'.Silent p) → LeavesMappingsAbove (base :: pre) p) ∧
      ∀ p items, Left overlays p (.list items) → ¬ (Node.list items).HasNull) := by
  refine ⟨fun o p h => get_deepMerge_of_null o.wf base.entries h, ?_⟩
  constructor
  · rintro ⟨hremoved, habsent⟩
    constructor
    · rintro pre o post p rfl hnull hpost
      exact (get_mergeAll_of_null base hnull hpost).mp
        (hremoved p ⟨pre, o, post, rfl, hnull, hpost⟩)
    · intro p items hleft hnull
      have hvalue : (Node.list items).IsValue := trivial
      have hget := (get_mergeAll_iff_left base overlays hvalue).mpr (left_cons.mpr (Or.inr hleft))
      obtain ⟨-, hsilent⟩ := habsent p _ hget (by simp [IsMapping]) hnull
      obtain ⟨pre, o, post, rfl, hlist, -⟩ := hleft
      have hnone := (hsilent o (by simp)).1
      exact Option.some_ne_none _ (hlist.symm.trans hnone)
  · rintro ⟨habove, hlists⟩
    have hremoved : ∀ p, Left overlays p .null → (mergeAll base overlays).get p = none := by
      rintro p ⟨pre, o, post, rfl, hnull, hpost⟩
      exact (get_mergeAll_of_null base hnull hpost).mpr (habove pre o post p rfl hnull hpost)
    refine ⟨hremoved, fun p n hget hmap hnull => ?_⟩
    rcases left_cons.mp (left_of_get_mergeAll hmap hget) with hbase | hleft
    · exact hbase
    · cases hnull with
      | null => exact absurd ((hremoved p hleft).symm.trans hget) (by simp)
      | item hitem hn => exact absurd (HasNull.item hitem hn) (hlists p _ hleft)
      | entry => exact absurd trivial hmap

/-! ## Nulls that stay -/

/-- An overlay that removes the voxel layer of a costmap. -/
def withoutVoxelLayer : Mapping :=
  ⟨[("local_costmap", .mapping [("voxel_layer", .null)])], by decide⟩

/-- An overlay with a null in a list. -/
def nullPlugin : Mapping := ⟨[("plugins", .list [.null])], by decide⟩

/-- Over a base without the costmap the null stays, and so does a null in a list. -/
theorem null_kept :
    (¬ ∀ (base o : Mapping) (p : List String), o.get p = some .null →
      (base.merge o).get p = none) ∧
    (¬ ∀ base overlays, NullsRemoved base overlays) ∧
    ¬ NullsRemoved emptyMapping [nullPlugin] := by
  have hkept : (emptyMapping.merge withoutVoxelLayer).get ["local_costmap", "voxel_layer"] =
      some .null := rfl
  have hlist : (mergeAll emptyMapping [nullPlugin]).get ["plugins"] = some (.list [.null]) := rfl
  have hplugin : ¬ NullsRemoved emptyMapping [nullPlugin] := by
    intro h
    obtain ⟨hbase, -⟩ := h.absent _ _ hlist (by simp [IsMapping]) (.item List.mem_cons_self .null)
    simp [emptyMapping, Mapping.get] at hbase
  refine ⟨fun hall => ?_, fun hall => hplugin (hall _ _), hplugin⟩
  have hnone := hall emptyMapping withoutVoxelLayer ["local_costmap", "voxel_layer"] rfl
  simp [hkept] at hnone

/-- A base that has the layer loses it. -/
example :
    (Mapping.merge ⟨[("local_costmap", .mapping [("voxel_layer", .mapping [])])], by decide⟩
      withoutVoxelLayer).get ["local_costmap", "voxel_layer"] = none := rfl

end TitanRobot.Nav

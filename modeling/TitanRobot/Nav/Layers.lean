import TitanRobot.Nav.Merge

/-!
# Layers of overlays

What a mapping holds at a key path after overlays have been merged into it in order: the
last overlay that speaks at the path wins, and a path on which all are silent keeps what it
held.
-/
namespace TitanRobot.Nav
open Dict Node

/-- `deep_merge(base, override)` on mappings. -/
def Mapping.merge (base o : Mapping) : Mapping where
  entries := deepMerge base.entries o.entries
  wf := by
    have ho := o.wf
    rw [Node.wf, Bool.and_eq_true] at ho
    exact wf_deepMerge _ _ base.wf ho.2

def emptyMapping : Mapping := ⟨[], rfl⟩

/-- The loop over the overlays. -/
def mergeAll (base : Mapping) (overlays : List Mapping) : Mapping :=
  overlays.foldl Mapping.merge base

/-- The entries hold nothing at the path, and only mappings at its non-empty proper prefixes. -/
def SilentAt (entries : Entries) (p : List String) : Prop :=
  (mapping entries).get p = none ∧
    ∀ q r n, p = q ++ r → q ≠ [] → r ≠ [] → (mapping entries).get q = some n → n.IsMapping

def Mapping.Silent (o : Mapping) (p : List String) : Prop := SilentAt o.entries p

theorem SilentAt.tail {entries m : Entries} {k : String} {p : List String}
    (h : SilentAt entries (k :: p)) (hk : entries.lookup k = some (.mapping m)) :
    SilentAt m p := by
  obtain ⟨hnone, hprefix⟩ := h
  refine ⟨by simpa [hk] using hnone, ?_⟩
  rintro q r n rfl - hr hq
  exact hprefix (k :: q) r n rfl (by simp) hr (by simpa [hk] using hq)

theorem SilentAt.cons {entries m : Entries} {k : String} {p : List String} (h : SilentAt m p)
    (hk : entries.lookup k = some (.mapping m)) : SilentAt entries (k :: p) := by
  obtain ⟨hnone, hprefix⟩ := h
  refine ⟨by simpa [hk] using hnone, ?_⟩
  intro q r n heq hq hr hn
  obtain ⟨k', q, rfl⟩ := List.exists_cons_of_ne_nil hq
  obtain ⟨rfl, rfl⟩ := List.cons_eq_cons.mp heq
  cases q with
  | nil =>
    obtain rfl : mapping m = n := by simpa [hk] using hn
    trivial
  | cons k' q => exact hprefix (k' :: q) r n rfl (by simp) hr (by simpa [hk] using hn)

/-- Where the first key is not there, nothing is said. -/
theorem silentAt_of_lookup_none {entries : Entries} {k : String} (hk : entries.lookup k = none)
    (p : List String) : SilentAt entries (k :: p) := by
  refine ⟨by simp [hk], ?_⟩
  intro q r n heq hq _ hn
  obtain ⟨k', q, rfl⟩ := List.exists_cons_of_ne_nil hq
  obtain ⟨rfl, -⟩ := List.cons_eq_cons.mp heq
  simp [hk] at hn

theorem unique_of_wf {entries : Entries} (h : (mapping entries).wf = true) : UniqueKeys entries :=
  (wf_mapping.mp h).1

/-- A path on which the overlay is silent keeps what it held. -/
theorem get_deepMerge_of_silent {o : Entries} (ho : (mapping o).wf = true) (base : Entries)
    {p : List String} (h : SilentAt o p) :
    (mapping (deepMerge base o)).get p = (mapping base).get p := by
  induction p generalizing base o with
  | nil => simp [SilentAt] at h
  | cons k p ih =>
    rw [get_mapping_cons, get_mapping_cons, lookup_deepMerge (unique_of_wf ho)]
    cases hk : o.lookup k with
    | none => rfl
    | some n =>
      have hp : p ≠ [] := by
        rintro rfl
        simp [SilentAt, hk] at h
      obtain ⟨m, rfl⟩ := isMapping_iff.mp (h.2 [k] p n rfl (by simp) hp (by simp [hk]))
      have htail := h.tail hk
      rw [Option.elim_some]
      rcases lookup_mapping_or base k with ⟨prior, hprior⟩ | hnot
      · rw [hprior]
        exact ih (wf_of_lookup ho hk) prior htail
      · rw [override_of_not_mapping hnot, Option.bind_some, htail.1]
        obtain ⟨k', p, rfl⟩ := List.exists_cons_of_ne_nil hp
        cases hb : base.lookup k with
        | none => rfl
        | some n => exact (get_cons_of_not_mapping (hnot n hb) k' p).symm

/-- A scalar or a list of the overlay is there after the merge. -/
theorem get_deepMerge_of_value {o : Entries} (ho : (mapping o).wf = true) (base : Entries)
    {p : List String} {v : Node} (h : (mapping o).get p = some v) (hv : v.IsValue) :
    (mapping (deepMerge base o)).get p = some v := by
  induction p generalizing base o with
  | nil =>
    obtain rfl : mapping o = v := by simpa using h
    exact hv.elim
  | cons k p ih =>
    rw [get_mapping_cons] at h ⊢
    obtain ⟨n, hk, hn⟩ := Option.bind_eq_some_iff.mp h
    rw [lookup_deepMerge (unique_of_wf ho), hk, Option.elim_some]
    by_cases hmap : n.IsMapping
    · obtain ⟨m, rfl⟩ := isMapping_iff.mp hmap
      rcases lookup_mapping_or base k with ⟨prior, hprior⟩ | hnot
      · rw [hprior]
        exact ih (wf_of_lookup ho hk) prior hn
      · rw [override_of_not_mapping hnot]
        exact hn
    · cases p with
      | nil =>
        obtain rfl : n = v := by simpa using hn
        rw [override_value hv]
        simp
      | cons k' p =>
        rw [get_cons_of_not_mapping hmap] at hn
        simp at hn

theorem get_merge_of_silent (base : Mapping) {o : Mapping} {p : List String} (h : o.Silent p) :
    (base.merge o).get p = base.get p :=
  get_deepMerge_of_silent o.wf base.entries h

theorem get_merge_of_value (base : Mapping) {o : Mapping} {p : List String} {v : Node}
    (h : o.get p = some v) (hv : v.IsValue) : (base.merge o).get p = some v :=
  get_deepMerge_of_value o.wf base.entries h hv

theorem get_mergeAll_of_silent (base : Mapping) {overlays : List Mapping} {p : List String}
    (h : ∀ o ∈ overlays, o.Silent p) : (mergeAll base overlays).get p = base.get p := by
  induction overlays generalizing base with
  | nil => rfl
  | cons o overlays ih =>
    have hrest := ih (base.merge o) fun o' ho' => h o' (List.mem_cons_of_mem _ ho')
    exact hrest.trans (get_merge_of_silent base (h o List.mem_cons_self))

theorem get_mergeAll_of_value (base : Mapping) {pre post : List Mapping} {o : Mapping}
    {p : List String} {v : Node} (h : o.get p = some v) (hv : v.IsValue)
    (hpost : ∀ o' ∈ post, o'.Silent p) : (mergeAll base (pre ++ o :: post)).get p = some v := by
  have hsplit : mergeAll base (pre ++ o :: post) = mergeAll ((mergeAll base pre).merge o) post :=
    List.foldl_append
  rw [hsplit, get_mergeAll_of_silent _ hpost, get_merge_of_value _ h hv]

/-- The last overlay that holds a scalar or a list at a path settles it, and a path on which
all overlays are silent keeps what the baseline holds. -/
theorem mergeAll_precedence (base : Mapping) (overlays : List Mapping) (p : List String) :
    (∀ pre o post v, overlays = pre ++ o :: post → o.get p = some v → v.IsValue →
      (∀ o' ∈ post, o'.Silent p) → (mergeAll base overlays).get p = some v) ∧
    ((∀ o ∈ overlays, o.Silent p) → (mergeAll base overlays).get p = base.get p) := by
  refine ⟨?_, get_mergeAll_of_silent base⟩
  rintro pre o post v rfl h hv hpost
  exact get_mergeAll_of_value base h hv hpost

/-! ## What the documents leave -/

/-- A document holds the value at the key path, and all later ones are silent on it. -/
def Left (docs : List Mapping) (p : List String) (v : Node) : Prop :=
  ∃ pre d post, docs = pre ++ d :: post ∧ d.get p = some v ∧ ∀ o ∈ post, o.Silent p

theorem left_cons {d : Mapping} {docs : List Mapping} {p : List String} {v : Node} :
    Left (d :: docs) p v ↔ (d.get p = some v ∧ ∀ o ∈ docs, o.Silent p) ∨ Left docs p v := by
  constructor
  · rintro ⟨pre, d', post, heq, hget, hpost⟩
    cases pre with
    | nil =>
      obtain ⟨rfl, rfl⟩ := List.cons_eq_cons.mp heq
      exact Or.inl ⟨hget, hpost⟩
    | cons e pre =>
      obtain ⟨-, rfl⟩ := List.cons_eq_cons.mp heq
      exact Or.inr ⟨pre, d', post, rfl, hget, hpost⟩
  · rintro (⟨hget, hdocs⟩ | ⟨pre, d', post, rfl, hget, hpost⟩)
    · exact ⟨[], d, docs, rfl, hget, hdocs⟩
    · exact ⟨d :: pre, d', post, rfl, hget, hpost⟩

/-- What is there after the merge is the overlay's, or the base's where the overlay is silent, or
both hold mappings there. -/
theorem get_deepMerge_cases {o : Entries} (ho : (mapping o).wf = true) {base : Entries}
    {p : List String} {v : Node} (h : (mapping (deepMerge base o)).get p = some v) :
    (∃ w, (mapping o).get p = some w ∧ (w = v ∨ w.IsMapping ∧ v.IsMapping)) ∨
      (SilentAt o p ∧ (mapping base).get p = some v) := by
  induction p generalizing base o with
  | nil =>
    obtain rfl : mapping (deepMerge base o) = v := by simpa using h
    exact Or.inl ⟨mapping o, get_nil _, Or.inr ⟨trivial, trivial⟩⟩
  | cons k p ih =>
    rw [get_mapping_cons, lookup_deepMerge (unique_of_wf ho)] at h
    cases hk : o.lookup k with
    | none =>
      rw [hk] at h
      exact Or.inr ⟨silentAt_of_lookup_none hk p, h⟩
    | some n =>
      have hover : (override (base.lookup k) n).bind (fun n => n.get p) = some v := by
        simpa [hk] using h
      have hwhole (hsame : override (base.lookup k) n = some n) :
          (mapping o).get (k :: p) = some v := by
        simpa [hk, hsame] using hover
      cases n with
      | null => simp [override] at hover
      | scalar x => exact Or.inl ⟨v, hwhole (by simp [override]), Or.inl rfl⟩
      | list items => exact Or.inl ⟨v, hwhole (by simp [override]), Or.inl rfl⟩
      | mapping m =>
        rcases lookup_mapping_or base k with ⟨prior, hprior⟩ | hnot
        · rw [hprior] at hover
          rcases ih (wf_of_lookup ho hk) hover with ⟨w, hw, hor⟩ | ⟨hsilent, hbase⟩
          · exact Or.inl ⟨w, by simpa [hk] using hw, hor⟩
          · exact Or.inr ⟨hsilent.cons hk, by simpa [hprior] using hbase⟩
        · exact Or.inl ⟨v, hwhole (override_of_not_mapping hnot m), Or.inl rfl⟩

theorem left_of_get_mergeAll {base : Mapping} {overlays : List Mapping} {p : List String}
    {v : Node} (hv : ¬ v.IsMapping) (h : (mergeAll base overlays).get p = some v) :
    Left (base :: overlays) p v := by
  induction overlays generalizing base with
  | nil => exact left_cons.mpr (Or.inl ⟨h, by simp⟩)
  | cons o overlays ih =>
    have hrun : Left (base.merge o :: overlays) p v := ih h
    rw [left_cons] at hrun ⊢
    rcases hrun with ⟨hget, hsilent⟩ | hleft
    · rcases get_deepMerge_cases o.wf hget with ⟨w, ho, rfl | ⟨-, hmap⟩⟩ | ⟨ho, hbase⟩
      · exact Or.inr (left_cons.mpr (Or.inl ⟨ho, hsilent⟩))
      · exact absurd hmap hv
      · exact Or.inl ⟨hbase, List.forall_mem_cons.mpr ⟨ho, hsilent⟩⟩
    · exact Or.inr (left_cons.mpr (Or.inr hleft))

/-- The scalars and lists of the merged mapping are those that the documents have left. -/
theorem get_mergeAll_iff_left (base : Mapping) (overlays : List Mapping) {p : List String}
    {v : Node} (hv : v.IsValue) :
    (mergeAll base overlays).get p = some v ↔ Left (base :: overlays) p v := by
  refine ⟨left_of_get_mergeAll hv.not_isMapping, fun h => ?_⟩
  rcases left_cons.mp h with ⟨hget, hsilent⟩ | ⟨pre, o, post, rfl, hget, hpost⟩
  · exact (get_mergeAll_of_silent base hsilent).trans hget
  · exact get_mergeAll_of_value base hget hv hpost

/-! ## What the overlays settle -/

/-- `SilentAt` as a test. -/
def silentAt (entries : Entries) : List String → Bool
  | [] => false
  | k :: p =>
    match entries.lookup k with
    | none => true
    | some (.mapping inner) => silentAt inner p
    | some _ => false

theorem silentAt_of_check {entries : Entries} {p : List String}
    (h : silentAt entries p = true) : SilentAt entries p := by
  induction p generalizing entries with
  | nil => simp [silentAt] at h
  | cons k p ih =>
    rw [silentAt] at h
    split at h
    · rename_i hk
      exact silentAt_of_lookup_none hk p
    · rename_i inner hk
      exact (ih h).cons hk
    · simp at h

/-- The value that the overlays give: the one of the last overlay that holds something there. -/
def given (overlays : List Mapping) (p : List String) : Option Node :=
  overlays.reverse.findSome? fun o => o.get p

/-- The scalar or list that the overlays leave at a path whatever they are merged into. -/
def settled : List Mapping → List String → Option Node
  | [], _ => none
  | o :: overlays, p =>
    (settled overlays p).or
      (if overlays.all fun o' => silentAt o'.entries p then
        match o.get p with
        | some (.scalar s) => some (.scalar s)
        | some (.list items) => some (.list items)
        | _ => none
      else none)

theorem settled_cons {o : Mapping} {overlays : List Mapping} {p : List String} {v : Node}
    (h : settled (o :: overlays) p = some v) :
    settled overlays p = some v ∨
      (o.get p = some v ∧ v.IsValue ∧ ∀ o' ∈ overlays, o'.Silent p) := by
  rw [settled, Option.or_eq_some_iff] at h
  rcases h with h | ⟨-, h⟩
  · exact .inl h
  · split at h
    · rename_i hall
      have hsilent : ∀ o' ∈ overlays, o'.Silent p := fun o' ho' =>
        silentAt_of_check (List.all_eq_true.mp hall o' ho')
      split at h
      · rename_i s hget
        obtain rfl := Option.some.inj h
        exact .inr ⟨hget, trivial, hsilent⟩
      · rename_i items hget
        obtain rfl := Option.some.inj h
        exact .inr ⟨hget, trivial, hsilent⟩
      · simp at h
    · simp at h

/-- A settled value is there over every baseline. -/
theorem get_mergeAll_of_settled {overlays : List Mapping} {p : List String} {v : Node}
    (h : settled overlays p = some v) (base : Mapping) :
    (mergeAll base overlays).get p = some v := by
  induction overlays generalizing base with
  | nil => simp [settled] at h
  | cons o overlays ih =>
    rcases settled_cons h with h | ⟨hget, hv, hsilent⟩
    · exact ih h (base.merge o)
    · have hfirst : (mergeAll base ([] ++ o :: overlays)).get p = some v :=
        get_mergeAll_of_value base hget hv hsilent
      exact hfirst

/-- A settled value is the one that the overlays give. -/
theorem given_of_settled {overlays : List Mapping} {p : List String} {v : Node}
    (h : settled overlays p = some v) : given overlays p = some v := by
  induction overlays with
  | nil => simp [settled] at h
  | cons o overlays ih =>
    rw [given, List.reverse_cons, List.findSome?_append]
    rcases settled_cons h with h | ⟨hget, hv, hsilent⟩
    · rw [show overlays.reverse.findSome? (fun o => o.get p) = some v from ih h]
      rfl
    · have hnone : overlays.reverse.findSome? (fun o => o.get p) = none := by
        rw [List.findSome?_eq_none_iff]
        intro o' ho'
        exact (hsilent o' (List.mem_reverse.mp ho')).1
      rw [hnone]
      simpa using hget

end TitanRobot.Nav

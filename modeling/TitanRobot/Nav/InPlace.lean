import TitanRobot.Lib.Run
import TitanRobot.Nav.Sharing

/-!
# The merge in memory

What the merge does to the document that the store stands for. A write to a mapping that a single
path leads to changes the document in this one place; a write to a mapping that several paths lead
to changes it in all of them. The merge follows the merge of the documents as long as every write
is of the first kind, or changes nothing.
-/
namespace TitanRobot.Nav
open Dict Node

/-! ## Writes -/

def Write.perform (w : Write) : Store :=
  match w.value with
  | .null => w.store.pop w.base w.key
  | value => w.store.assign w.base w.key value

/-- The writes lead from a store to another one, one after the other. -/
def Leads : Store → List Write → Store → Prop
  | σ, [], σ' => σ' = σ
  | σ, w :: ws, σ' => w.store = σ ∧ Leads w.perform ws σ'

section
variable {σ σ' σ'' : Store} {a : ℕ}

theorem Leads.append {ws ws' : List Write} (h : Leads σ ws σ') (h' : Leads σ' ws' σ'') :
    Leads σ (ws ++ ws') σ'' := by
  induction ws generalizing σ with
  | nil =>
    obtain rfl : σ' = σ := h
    exact h'
  | cons w ws ih => exact ⟨h.1, ih h.2⟩

/-- The merge recurses where the base holds a mapping, too. -/
theorem mergeValueInto_of_ref {key : String} {b : ℕ} (inner : Entries)
    (h : (σ.entries a).lookup key = some (.ref b)) :
    mergeValueInto σ a key (.mapping inner) = mergeInto σ b inner ∧
      writesValue σ a key (.mapping inner) = writes σ b inner := by
  simp [mergeValueInto, writesValue, h]

/-- Elsewhere it writes the overriding value. -/
theorem mergeValueInto_of_not_ref {key : String} {value : Node}
    (h : value.IsMapping → ∀ b, (σ.entries a).lookup key ≠ some (.ref b)) :
    mergeValueInto σ a key value = Write.perform ⟨σ, a, key, value⟩ ∧
      writesValue σ a key value = [⟨σ, a, key, value⟩] := by
  cases value with
  | mapping inner =>
    rw [mergeValueInto, writesValue]
    constructor <;> split
    · rename_i b hb
      exact absurd hb (h trivial b)
    · rfl
    · rename_i b hb
      exact absurd hb (h trivial b)
    · rfl
  | _ => exact ⟨rfl, rfl⟩

theorem leads_writes_of_values {o : List (String × Node)}
    (h : ∀ e ∈ o, ∀ (σ : Store) (a : ℕ) (key : String),
      Leads σ (writesValue σ a key e.2) (mergeValueInto σ a key e.2)) (σ : Store) (a : ℕ) :
    Leads σ (writes σ a o) (mergeInto σ a o) := by
  induction o generalizing σ with
  | nil => rfl
  | cons e o ih =>
    obtain ⟨key, value⟩ := e
    have hfirst := h (key, value) (by simp) σ a key
    exact hfirst.append (ih (fun e he => h e (by simp [he])) _)

theorem leads_writesValue (n : Node) : ∀ (σ : Store) (a : ℕ) (key : String),
    Leads σ (writesValue σ a key n) (mergeValueInto σ a key n) := by
  induction n using Node.induction with
  | mapping o ih =>
    intro σ a key
    by_cases hb : ∃ b, (σ.entries a).lookup key = some (.ref b)
    · obtain ⟨b, hb⟩ := hb
      obtain ⟨hinto, hwrites⟩ := mergeValueInto_of_ref o hb
      rw [hinto, hwrites]
      exact leads_writes_of_values ih σ b
    · obtain ⟨hinto, hwrites⟩ :=
        mergeValueInto_of_not_ref fun _ b h => hb ⟨b, h⟩
      rw [hinto, hwrites]
      exact ⟨rfl, rfl⟩
  | _ => exact fun σ a key => ⟨rfl, rfl⟩

/-- The writes of the merges lead to their result. -/
theorem leads_writesAll (overlays : List Mapping) (σ : Store) (root : ℕ) :
    Leads σ (writesAll σ root overlays) (mergeAllInto σ root overlays) := by
  induction overlays generalizing σ with
  | nil => rfl
  | cons o overlays ih => exact (leads_writes_of_values (fun e _ => leads_writesValue e.2) σ root).append (ih _)

end

/-- The write leaves the mapping as it is. -/
def Write.Idle (w : Write) : Prop :=
  match w.value with
  | .null => (w.store.entries w.base).lookup w.key = none
  | value =>
    ∃ v, (w.store.entries w.base).lookup w.key = some v ∧ Denotes w.store Set.univ v value

/-- What a write makes of the entries. -/
def written (entries : Entries) (key : String) : Node → Entries
  | .null => erase key entries
  | value => insert key value entries

section
variable {σ σ' : Store} {a : ℕ} {entries entries' : Entries} {v : Val} {n : Node}

theorem agreeOn_set (σ : Store) (a : ℕ) (d : List (String × Val)) :
    AgreeOn {b | b ≠ a} σ (σ.set a d) := by
  intro b hb hlt
  rw [List.length_set]
  exact ⟨hlt, Store.entries_set_ne hb⟩

/-- A value of the mapping at `a` does not depend on it, and so stands in a store that differs
there. -/
theorem Denotes.value (h : Denotes σ Set.univ (.ref a) (.mapping entries))
    (hwf : (Node.mapping entries).wf = true) (hσ : AgreeOn {b | b ≠ a} σ σ') :
    ∀ x ∈ σ.entries a, ∀ y ∈ entries, Denotes σ Set.univ x.2 y.2 →
      Denotes σ' Set.univ x.2 y.2 := by
  intro x hx y hy hxy
  have hkeys := uniqueKeys_entries h hwf
  have hoff : ∀ ρ, follow σ x.2 ρ ≠ some (.ref a) := by
    intro ρ hρ
    have hcycle : follow σ (.ref a) (.key x.1 :: ρ) = some (.ref a) := by
      simp [lookup_of_mem hkeys hx, hρ]
    exact absurd (h.acyclic hcycle) (by simp)
  exact (hxy.off ((wf_mapping.mp hwf).2 y hy) hoff).frame (Set.subset_univ _) hσ

/-- After `pop` and after `assign` the mapping has the entries written. -/
theorem pop_entries (h : Denotes σ Set.univ (.ref a) (.mapping entries))
    (hwf : (Node.mapping entries).wf = true) (key : String) :
    AgreeOn {b | b ≠ a} σ (σ.pop a key) ∧ a < (σ.pop a key).length ∧
      Matches (Denotes (σ.pop a key) Set.univ) (Store.entries (σ.pop a key) a)
        (erase key entries) := by
  obtain ⟨-, hlt, hentries⟩ := denotes_ref_iff.mp h
  have hagree := agreeOn_set σ a (erase key (σ.entries a))
  refine ⟨hagree, by simpa [Store.pop] using hlt, ?_⟩
  rw [Store.pop, Store.entries_set_self hlt]
  exact (hentries.imp (h.value hwf hagree)).erase key

theorem assign_entries (h : Denotes σ Set.univ (.ref a) (.mapping entries))
    (hwf : (Node.mapping entries).wf = true) (key : String) (value : Node) :
    AgreeOn {b | b ≠ a} σ (σ.assign a key value) ∧ a < (σ.assign a key value).length ∧
      Matches (Denotes (σ.assign a key value) Set.univ) (Store.entries (σ.assign a key value) a)
        (insert key value entries) := by
  obtain ⟨-, hlt, hentries⟩ := denotes_ref_iff.mp h
  obtain ⟨ext, hstore, hcopy⟩ := deepcopy_spec value σ
  have hassign : σ.assign a key value =
      (σ ++ ext).set a (insert key (deepcopy σ value).2 (σ.entries a)) := by
    rw [Store.assign, hstore]
  have hlt' : a < (σ ++ ext).length := by
    rw [List.length_append]
    omega
  have hset := agreeOn_set (σ ++ ext) a (insert key (deepcopy σ value).2 (σ.entries a))
  have hagree : AgreeOn {b | b ≠ a} σ (σ.assign a key value) := by
    intro b hb hblt
    obtain ⟨hblt', hb'⟩ := agreeOn_append {b | b ≠ a} σ ext b hb hblt
    rw [hassign, ← hb']
    exact hset b hb hblt'
  refine ⟨hagree, by rwa [hassign, List.length_set], ?_⟩
  have hvalue := h.value hwf hagree
  have hnew : Denotes (σ.assign a key value) Set.univ (deepcopy σ value).2 value := by
    rw [hassign]
    refine hcopy.frame (Set.subset_univ _) fun b hb hblt => hset b ?_ hblt
    rintro rfl
    exact absurd hb (not_le.mpr hlt)
  have hself : Store.entries (σ.assign a key value) a =
      insert key (deepcopy σ value).2 (σ.entries a) := by
    rw [hassign, Store.entries_set_self hlt']
  rw [hself]
  exact hentries.insert (uniqueKeys_entries h hwf) (fun x hx y hy _ => hvalue x hx y hy) hnew

theorem Write.perform_spec (w : Write)
    (h : Denotes w.store Set.univ (.ref w.base) (.mapping entries))
    (hwf : (Node.mapping entries).wf = true) :
    AgreeOn {b | b ≠ w.base} w.store w.perform ∧ w.base < w.perform.length ∧
      Matches (Denotes w.perform Set.univ) (Store.entries w.perform w.base)
        (written entries w.key w.value) := by
  obtain ⟨σ, a, key, value⟩ := w
  cases value with
  | null => exact pop_entries h hwf key
  | _ => exact assign_entries h hwf key _

/-- A write leaves the mapping as it is exactly if it leaves the document of the mapping. -/
theorem Write.idle_iff {w : Write}
    (h : Denotes w.store Set.univ (.ref w.base) (.mapping entries)) :
    w.Idle ↔ written entries w.key w.value = entries := by
  obtain ⟨σ, a, key, value⟩ := w
  have hentries := (denotes_ref_iff.mp h).2.2
  have hvalue (value : Node) :
      (∃ v, (σ.entries a).lookup key = some v ∧ Denotes σ Set.univ v value) ↔
        insert key value entries = entries := by
    rw [insert_eq_self]
    constructor
    · rintro ⟨v, hv, hden⟩
      obtain ⟨n, hn, hden'⟩ := hentries.lookup_left hv
      rw [hn, hden.unique hden']
    · exact hentries.lookup_right
  cases value with
  | null =>
    change _ ↔ erase key entries = entries
    rw [erase_eq_self]
    exact hentries.lookup_eq_none key
  | scalar x => exact hvalue _
  | list items => exact hvalue _
  | mapping inner => exact hvalue _

/-! ## One write and the document -/

/-- What a path that begins with a key goes through. -/
theorem Denotes.key_step {S : Set ℕ} {w : Val} {k : String} {ρ : List Step}
    (h : Denotes σ S v n) (hρ : follow σ v (.key k :: ρ) = some w) :
    ∃ c entries u m, v = .ref c ∧ n = .mapping entries ∧ c < σ.length ∧
      Matches (Denotes σ S) (σ.entries c) entries ∧ (σ.entries c).lookup k = some u ∧
      entries.lookup k = some m ∧ Denotes σ S u m ∧ follow σ u ρ = some w := by
  cases h with
  | null => simp [Nav.follow] at hρ
  | scalar s => simp [Nav.follow] at hρ
  | list hitems => simp [Nav.follow] at hρ
  | @mapping c entries ha hlt hentries =>
    have hmatch := denotesEntries_iff.mp hentries
    rw [follow_key] at hρ
    obtain ⟨u, hu, hrest⟩ := Option.bind_eq_some_iff.mp hρ
    obtain ⟨m, hm, hum⟩ := hmatch.lookup_left hu
    exact ⟨c, entries, u, m, rfl, rfl, hlt, hmatch, hu, hm, hum, hrest⟩

/-- A write that leaves the document of the mapping leaves all documents. -/
theorem Denotes.same (h : Denotes σ Set.univ v n)
    (ha : Denotes σ Set.univ (.ref a) (.mapping entries)) (hσ : AgreeOn {b | b ≠ a} σ σ')
    (hlt : a < σ'.length) (hnew : Matches (Denotes σ' Set.univ) (σ'.entries a) entries) :
    Denotes σ' Set.univ v n := by
  induction n using Node.induction generalizing v with
  | null =>
    cases h
    exact Denotes.null
  | scalar s =>
    cases h
    exact Denotes.scalar s
  | list items ih =>
    obtain ⟨vs, rfl, hitems⟩ := denotes_list_iff.mp h
    exact denotes_list_iff.mpr ⟨vs, rfl, forall₂_imp hitems fun v _ n hn => ih n hn⟩
  | mapping inner ih =>
    obtain ⟨c, rfl, -, hclt, hinner⟩ := denotes_mapping_iff.mp h
    by_cases hc : c = a
    · subst hc
      obtain rfl := Node.mapping.inj (ha.unique h)
      exact denotes_ref_iff.mpr ⟨Set.mem_univ c, hlt, hnew⟩
    · obtain ⟨hlt', heq⟩ := hσ c hc hclt
      refine denotes_ref_iff.mpr ⟨Set.mem_univ c, hlt', ?_⟩
      rw [heq]
      exact hinner.imp fun x _ y hy hxy => ih y hy hxy

/-- A write to a mapping that a single path leads to replaces this part of the document. -/
theorem Denotes.replace (h : Denotes σ Set.univ v n) (hwf : n.wf = true) {p : List String}
    (hp : follow σ v (steps p) = some (.ref a))
    (halone : ∀ ρ, follow σ v ρ = some (.ref a) → ρ = steps p)
    (hσ : AgreeOn {b | b ≠ a} σ σ') (hlt : a < σ'.length)
    (hnew : Matches (Denotes σ' Set.univ) (σ'.entries a) entries') :
    Denotes σ' Set.univ v (n.put p (.mapping entries')) := by
  induction p generalizing v n with
  | nil =>
    obtain rfl : v = .ref a := by simpa [steps] using hp
    rw [put_nil]
    exact denotes_ref_iff.mpr ⟨Set.mem_univ a, hlt, hnew⟩
  | cons k p ih =>
    obtain ⟨c, entries, u, m, rfl, rfl, hclt, hentries, hu, hm, hum, hrest⟩ := h.key_step hp
    have hc : c ≠ a := by
      rintro rfl
      exact absurd (halone [] (by simp)) (by simp [steps])
    obtain ⟨hlt', heq⟩ := hσ c hc hclt
    have hkeys := uniqueKeys_entries h hwf
    have hpart : Denotes σ' Set.univ u (m.put p (.mapping entries')) := by
      apply ih hum (wf_of_lookup hwf hm) hrest
      intro ρ hρ
      have hlonger := halone (.key k :: ρ) (by simp [hu, hρ])
      exact (List.cons_eq_cons.mp hlonger).2
    -- the values of the other keys have no path to the mapping
    have hother : ∀ x ∈ σ.entries c, ∀ y ∈ entries, x.1 ≠ k → Denotes σ Set.univ x.2 y.2 →
        Denotes σ' Set.univ x.2 y.2 := by
      intro x hx y hy hne hxy
      refine (hxy.off ((wf_mapping.mp hwf).2 y hy) fun ρ hρ => ?_).frame (Set.subset_univ _) hσ
      have hlonger := halone (.key x.1 :: ρ) (by simp [lookup_of_mem hkeys hx, hρ])
      exact hne (Step.key.inj (List.cons_eq_cons.mp hlonger).1)
    rw [put_cons hm]
    refine denotes_ref_iff.mpr ⟨Set.mem_univ c, hlt', ?_⟩
    rw [heq, ← insert_of_lookup hu]
    exact hentries.insert hkeys hother hpart

end

/-! ## The merge and the document -/

/-- A single path leads to the mapping that is written, or the write leaves it as it is. -/
def Write.Fine (w : Write) (root : Val) : Prop := Alone w.store root w.base ∨ w.Idle

/-- The store stands for the document, and a key path of it leads to the mapping at `a`. -/
structure Located (σ : Store) (root : Val) (doc : Node) (p : List String) (a : ℕ)
    (entries : Entries) : Prop where
  denotes : Denotes σ Set.univ root doc
  wf : doc.wf = true
  leads : follow σ root (steps p) = some (.ref a)
  get : doc.get p = some (.mapping entries)

/-- Key paths that still lead where they led. -/
def KeepsPaths (σ σ' : Store) (root : Val) (p : List String) : Prop :=
  ∀ q, q <+: p → follow σ' root (steps q) = follow σ root (steps q)

section
variable {σ σ' σ'' : Store} {root : Val} {doc : Node} {p : List String} {a : ℕ}
  {entries : Entries} {x : Node}

theorem KeepsPaths.trans (h : KeepsPaths σ σ' root p) (h' : KeepsPaths σ' σ'' root p) :
    KeepsPaths σ σ'' root p :=
  fun q hq => (h' q hq).trans (h q hq)

theorem wf_written {value : Node} (h : (Node.mapping entries).wf = true) (key : String)
    (hvalue : value.wf = true) : (Node.mapping (written entries key value)).wf = true := by
  cases value with
  | null => exact wf_erase h key
  | _ => exact wf_insert h key hvalue

/-- A fine write does to the document what it does to the mapping. -/
theorem Located.write (h : Located σ root doc p a entries) {key : String} {value : Node}
    (hvalue : value.wf = true) (hfine : Write.Fine ⟨σ, a, key, value⟩ root) :
    Located (Write.perform ⟨σ, a, key, value⟩) root
        (doc.put p (.mapping (written entries key value))) p a (written entries key value) ∧
      KeepsPaths σ (Write.perform ⟨σ, a, key, value⟩) root p := by
  have hbase := h.denotes.get h.leads h.get
  have hwf := wf_of_get h.wf h.get
  obtain ⟨hagree, hlt, hnew⟩ := Write.perform_spec ⟨σ, a, key, value⟩ hbase hwf
  have hkeeps : KeepsPaths σ (Write.perform ⟨σ, a, key, value⟩) root p :=
    fun q hq => h.denotes.follow_prefix (hq.map Step.key) h.leads hagree
  refine ⟨⟨?_, ?_, ?_, get_put h.get _⟩, hkeeps⟩
  · rcases hfine with halone | hidle
    · exact h.denotes.replace h.wf h.leads (fun ρ hρ => halone ρ _ hρ h.leads) hagree hlt hnew
    · have hsame : written entries key value = entries := (Write.idle_iff hbase).mp hidle
      rw [hsame] at hnew ⊢
      rw [put_get h.get]
      exact h.denotes.same hbase hagree hlt hnew
  · exact wf_put h.wf h.get (wf_written hwf key hvalue)
  · rw [hkeeps p List.prefix_rfl, h.leads]

/-- A write that is not fine shows in the document under another path. -/
theorem Located.fine_of_write (h : Located σ root doc p a entries) {key : String} {value : Node}
    (hnew : Denotes (Write.perform ⟨σ, a, key, value⟩) Set.univ root
      (doc.put p (.mapping (written entries key value)))) :
    Write.Fine ⟨σ, a, key, value⟩ root := by
  by_cases halone : Alone σ root a
  · exact Or.inl halone
  right
  obtain ⟨ρ, hρ, hne⟩ : ∃ ρ, follow σ root ρ = some (.ref a) ∧ ρ ≠ steps p := by
    by_contra hall
    push Not at hall
    exact halone fun ρ ρ' hρ hρ' => (hall ρ hρ).trans (hall ρ' hρ').symm
  have hbase := h.denotes.get h.leads h.get
  obtain ⟨hagree, -, -⟩ :=
    Write.perform_spec ⟨σ, a, key, value⟩ hbase (wf_of_get h.wf h.get)
  have hkeep {τ : List Step} (hτ : follow σ root τ = some (.ref a)) :
      follow (Write.perform ⟨σ, a, key, value⟩) root τ = some (.ref a) :=
    (h.denotes.follow_prefix List.prefix_rfl hτ hagree).trans hτ
  -- the other path leads to the mapping that was written
  have hwritten := hnew.get (hkeep h.leads) (get_put h.get _)
  obtain ⟨m, hm, hden⟩ := hnew.part (hkeep hρ)
  obtain ⟨m', hm', hden'⟩ := h.denotes.part hρ
  rw [part_put h.get (fun hpre => hne (h.denotes.eq_of_prefix h.leads hρ hpre).symm)
    (fun hpre => hne (h.denotes.eq_of_prefix hρ h.leads hpre)), hm'] at hm
  obtain rfl := Option.some.inj hm
  rw [hden'.unique hbase] at hden
  exact (Write.idle_iff hbase).mpr (Node.mapping.inj (hwritten.unique hden))

/-! ## The merge and the documents of its run -/

mutual

/-- The documents of the merge of overriding entries into the mapping at the key path `p`: one for
every write. -/
def documents (doc : Node) (p : List String) (base : Entries) : List (String × Node) → List Node
  | [] => []
  | entry :: rest =>
    documentsEntry doc p base entry ++
      documents (doc.put p (.mapping (mergeEntry base entry))) p (mergeEntry base entry) rest
  termination_by structural o => o

def documentsEntry (doc : Node) (p : List String) (base : Entries) : String × Node → List Node
  | (key, value) => documentsValue doc p base key value
  termination_by structural entry => entry

def documentsValue (doc : Node) (p : List String) (base : Entries) (key : String) :
    Node → List Node
  | .mapping entries =>
    match base.lookup key with
    | some (.mapping prior) => documents doc (p ++ [key]) prior entries
    | _ => [doc.put p (.mapping (written base key (.mapping entries)))]
  | value => [doc.put p (.mapping (written base key value))]
  termination_by structural value => value

end

def documentsAll (base : Mapping) : List Mapping → List Node
  | [] => []
  | o :: overlays =>
    documents (.mapping base.entries) [] base.entries o.entries ++
      documentsAll (base.merge o) overlays

/-- After the write the store stands for the document. -/
def Write.Stands (root : Val) (w : Write) (doc : Node) : Prop :=
  Denotes w.perform Set.univ root doc

/-- What writes make of a mapping of the store, beside what the merge makes of this part of the
document: the store follows the document as long as the writes are fine. -/
structure Follows (σ σ' : Store) (root : Val) (doc : Node) (p : List String) (a : ℕ)
    (entries : Entries) (ws : List Write) (docs : List Node) : Prop where
  located : (∀ w ∈ ws, w.Fine root) →
    Located σ' root (doc.put p (.mapping entries)) p a entries ∧ KeepsPaths σ σ' root p
  paired : Run.Paired (Write.Fine · root) (Write.Stands root) ws docs

theorem Located.write_follows (h : Located σ root doc p a entries) (key : String) {value : Node}
    (hvalue : value.wf = true) :
    Follows σ (Write.perform ⟨σ, a, key, value⟩) root doc p a (written entries key value)
      [⟨σ, a, key, value⟩] [doc.put p (.mapping (written entries key value))] where
  located hfine := h.write hvalue (hfine _ (List.mem_singleton_self _))
  paired := .singleton ⟨h.fine_of_write, fun hfine => (h.write hvalue hfine).1.denotes⟩

theorem Follows.append {entries' : Entries} {ws ws' : List Write} {docs docs' : List Node}
    (h : Follows σ σ' root doc p a entries ws docs)
    (h' : Located σ' root (doc.put p (.mapping entries)) p a entries →
      Follows σ' σ'' root (doc.put p (.mapping entries)) p a entries' ws' docs')
    (hget : doc.get p = some x) :
    Follows σ σ'' root doc p a entries' (ws ++ ws') (docs ++ docs') where
  located hfine := by
    obtain ⟨hfirst, hrest⟩ := List.forall_mem_append.mp hfine
    obtain ⟨hlocated, hkeeps⟩ := h.located hfirst
    obtain ⟨hlocated', hkeeps'⟩ := (h' hlocated).located hrest
    rw [put_put hget] at hlocated'
    exact ⟨hlocated', hkeeps.trans hkeeps'⟩
  paired := h.paired.append fun hfine => (h' (h.located hfine).1).paired

/-- What follows the part at a longer path follows the part above it. -/
theorem Follows.above {key : String} {b : ℕ} {prior inner : Entries} {ws : List Write}
    {docs : List Node} (hlocated : Located σ root doc p a entries)
    (hprior : entries.lookup key = some (.mapping prior))
    (h : Follows σ σ' root doc (p ++ [key]) b inner ws docs) :
    Follows σ σ' root doc p a (insert key (.mapping inner) entries) ws docs where
  located hfine := by
    obtain ⟨hinner, hkeeps⟩ := h.located hfine
    have hkeeps' : KeepsPaths σ σ' root p :=
      fun q hq => hkeeps q (hq.trans (List.prefix_append p [key]))
    have hput := put_append hlocated.get hprior (.mapping inner)
    refine ⟨⟨?_, ?_, ?_, get_put hlocated.get _⟩, hkeeps'⟩
    · rw [← hput]
      exact hinner.denotes
    · rw [← hput]
      exact hinner.wf
    · rw [hkeeps' p List.prefix_rfl, hlocated.leads]
  paired := h.paired

/-- The merge of the documents recurses and writes in the same cases. -/
theorem mergeValue_of_mapping {key : String} {prior : Entries} (inner : Entries)
    (h : entries.lookup key = some (.mapping prior)) :
    mergeValue entries key (.mapping inner) =
        insert key (.mapping (deepMerge prior inner)) entries ∧
      documentsValue doc p entries key (.mapping inner) =
        documents doc (p ++ [key]) prior inner := by
  simp [mergeValue, documentsValue, h]

theorem mergeValue_of_not_mapping {key : String} {value : Node}
    (h : value.IsMapping → ∀ n, entries.lookup key = some n → ¬ n.IsMapping) :
    mergeValue entries key value = written entries key value ∧
      documentsValue doc p entries key value =
        [doc.put p (.mapping (written entries key value))] := by
  cases value with
  | mapping inner =>
    rw [mergeValue, documentsValue]
    constructor <;> split
    · rename_i prior hprior
      exact absurd trivial (h trivial _ hprior)
    · rfl
    · rename_i prior hprior
      exact absurd trivial (h trivial _ hprior)
    · rfl
  | _ => exact ⟨rfl, rfl⟩

/-- The store follows the document through the merge of the entries, wherever it is made. -/
def Merges (o : Entries) : Prop :=
  ∀ ⦃σ : Store⦄ ⦃root : Val⦄ ⦃doc : Node⦄ ⦃p : List String⦄ ⦃a : ℕ⦄ ⦃entries : Entries⦄,
    Located σ root doc p a entries →
    Follows σ (mergeInto σ a o) root doc p a (deepMerge entries o) (writes σ a o)
      (documents doc p entries o)

theorem Located.mergeValue (h : Located σ root doc p a entries) (key : String) {value : Node}
    (hvalue : value.wf = true) (hinner : ∀ inner, value = .mapping inner → Merges inner) :
    Follows σ (mergeValueInto σ a key value) root doc p a (Nav.mergeValue entries key value)
      (writesValue σ a key value) (documentsValue doc p entries key value) := by
  have hentries := (denotes_ref_iff.mp (h.denotes.get h.leads h.get)).2.2
  by_cases hdescend : value.IsMapping ∧ ∃ prior, entries.lookup key = some (.mapping prior)
  · obtain ⟨hmap, prior, hprior⟩ := hdescend
    obtain ⟨inner, rfl⟩ := isMapping_iff.mp hmap
    obtain ⟨v, hv, hden⟩ := hentries.lookup_right hprior
    obtain ⟨b, rfl, -⟩ := denotes_mapping_iff.mp hden
    obtain ⟨hinto, hwrites⟩ := mergeValueInto_of_ref inner hv
    obtain ⟨hmerge, hdocs⟩ := mergeValue_of_mapping inner hprior
    have hlocated : Located σ root doc (p ++ [key]) b prior := by
      refine ⟨h.denotes, h.wf, ?_, ?_⟩
      · rw [steps_append, follow_append, h.leads]
        simp [steps, hv]
      · rw [get_append, h.get]
        simp [hprior]
    rw [hinto, hwrites, hmerge, hdocs]
    exact (hinner inner rfl hlocated).above h hprior
  · have hnot : value.IsMapping → ∀ n, entries.lookup key = some n → ¬ n.IsMapping := by
      intro hmap n hn hmap'
      obtain ⟨prior, rfl⟩ := isMapping_iff.mp hmap'
      exact hdescend ⟨hmap, prior, hn⟩
    have hnoref : value.IsMapping → ∀ b, (σ.entries a).lookup key ≠ some (.ref b) := by
      intro hmap b hb
      obtain ⟨n, hn, hden⟩ := hentries.lookup_left hb
      cases hden
      exact hnot hmap _ hn trivial
    obtain ⟨hinto, hwrites⟩ := mergeValueInto_of_not_ref hnoref
    obtain ⟨hmerge, hdocs⟩ := mergeValue_of_not_mapping hnot
    rw [hinto, hwrites, hmerge, hdocs]
    exact h.write_follows key hvalue

/-- One entry after the other. -/
theorem merges_of_values {o : Entries} (hwf : ∀ e ∈ o, e.2.wf = true)
    (hinner : ∀ e ∈ o, ∀ inner, e.2 = .mapping inner → Merges inner) : Merges o := by
  induction o with
  | nil =>
    intro σ root doc p a entries h
    refine ⟨fun _ => ⟨?_, fun q _ => rfl⟩, .nil⟩
    rw [deepMerge, put_get h.get]
    exact h
  | cons e o ih =>
    obtain ⟨key, value⟩ := e
    intro σ root doc p a entries h
    have hfirst := h.mergeValue key (hwf (key, value) (by simp)) (hinner (key, value) (by simp))
    have hrest := ih (fun e he => hwf e (by simp [he])) fun e he => hinner e (by simp [he])
    exact hfirst.append (fun hnext => hrest hnext) h.get

theorem merges (n : Node) (hwf : n.wf = true) : ∀ o, n = .mapping o → Merges o := by
  induction n using Node.induction with
  | mapping entries ih =>
    rintro o ⟨rfl⟩
    have hall := (wf_mapping.mp hwf).2
    exact merges_of_values hall fun e he => ih e he (hall e he)
  | _ => exact fun o h => nomatch h

end

/-- What holds after the last overlay if every write is fine, and after every write before the first
that is not. -/
theorem mergeAllInto_follows (σ : Store) (root : ℕ) (base : Mapping) (overlays : List Mapping)
    (hbase : Denotes σ Set.univ (.ref root) (.mapping base.entries)) :
    ((∀ w ∈ writesAll σ root overlays, w.Fine (.ref root)) →
        Denotes (mergeAllInto σ root overlays) Set.univ (.ref root)
          (.mapping (mergeAll base overlays).entries)) ∧
      Run.Paired (Write.Fine · (.ref root)) (Write.Stands (.ref root)) (writesAll σ root overlays)
        (documentsAll base overlays) := by
  induction overlays generalizing σ base with
  | nil => exact ⟨fun _ => hbase, .nil⟩
  | cons o overlays ih =>
    have hroot : Located σ (.ref root) (.mapping base.entries) [] root base.entries :=
      ⟨hbase, base.wf, by simp [steps], by simp⟩
    have hfollows := merges _ o.wf o.entries rfl hroot
    have hnext (hfine : ∀ w ∈ writes σ root o.entries, w.Fine (.ref root)) :=
      ih (mergeInto σ root o.entries) (base.merge o) (hfollows.located hfine).1.denotes
    constructor
    · intro hfine
      obtain ⟨hfirst, hrest⟩ := List.forall_mem_append.mp hfine
      exact (hnext hfirst).1 hrest
    · exact hfollows.paired.append fun hfine => (hnext hfine).2

/-- The store stands for the document of the merge after every write and in the end. -/
def Agrees (σ : Store) (root : ℕ) (base : Mapping) (overlays : List Mapping) : Prop :=
  List.Forall₂ (Write.Stands (.ref root)) (writesAll σ root overlays)
      (documentsAll base overlays) ∧
    Denotes (mergeAllInto σ root overlays) Set.univ (.ref root)
      (.mapping (mergeAll base overlays).entries)

/-- The merge in memory agrees with the merge of the documents exactly if every write is fine. -/
theorem mergeAllInto_agrees_iff (σ : Store) (root : ℕ) (base : Mapping) (overlays : List Mapping)
    (hbase : Denotes σ Set.univ (.ref root) (.mapping base.entries)) :
    Agrees σ root base overlays ↔ ∀ w ∈ writesAll σ root overlays, w.Fine (.ref root) := by
  obtain ⟨hend, hpaired⟩ := mergeAllInto_follows σ root base overlays hbase
  constructor
  · rintro ⟨hall, -⟩
    exact hpaired.forall₂_iff.mp hall
  · exact fun hfine => ⟨hpaired.forall₂_iff.mpr hfine, hend hfine⟩

/-! ## An anchor and its alias -/

/-- Both costmaps have the parameters of one anchor. -/
def sharedStore : Store :=
  [[("robot_radius", .scalar (.int 1))], [("ros__parameters", .ref 0)],
    [("ros__parameters", .ref 0)], [("local_costmap", .ref 1), ("global_costmap", .ref 2)]]

def sharedBase : Mapping :=
  ⟨[("local_costmap", .mapping [("ros__parameters", .mapping [("robot_radius", .scalar (.int 1))])]),
    ("global_costmap", .mapping
      [("ros__parameters", .mapping [("robot_radius", .scalar (.int 1))])])], by decide⟩

theorem sharedStore_denotes :
    Denotes sharedStore Set.univ (.ref 3) (.mapping sharedBase.entries) := by
  have hparameters : Denotes sharedStore Set.univ (.ref 0)
      (.mapping [("robot_radius", .scalar (.int 1))]) :=
    .mapping trivial (by decide) (.cons (.scalar _) .nil)
  have hcostmap (a : ℕ) (hlt : a < sharedStore.length)
      (ha : sharedStore.entries a = [("ros__parameters", .ref 0)]) :
      Denotes sharedStore Set.univ (.ref a)
        (.mapping [("ros__parameters", .mapping [("robot_radius", .scalar (.int 1))])]) :=
    .mapping trivial hlt (ha ▸ .cons hparameters .nil)
  exact .mapping trivial (by decide)
    (.cons (hcostmap 1 (by decide) rfl) (.cons (hcostmap 2 (by decide) rfl) .nil))

/-- An overlay with parameters of the local costmap. -/
def localOverlay : Mapping :=
  ⟨[("local_costmap", .mapping
    [("ros__parameters", .mapping [("robot_radius", .scalar (.int 2))])])], by decide⟩

/-- An overlay with a section that the baseline does not have. -/
def amclOverlay : Mapping :=
  ⟨[("amcl", .mapping [("ros__parameters", .mapping [("max_beams", .scalar (.int 60))])])],
    by decide⟩

/-- The alias does not matter where the overlay adds a section. -/
theorem amclOverlay_agrees : Agrees sharedStore 3 sharedBase [amclOverlay] := by
  apply (mergeAllInto_agrees_iff sharedStore 3 sharedBase [amclOverlay] sharedStore_denotes).mpr
  intro w hw
  have hwrites : writesAll sharedStore 3 [amclOverlay] =
      [⟨sharedStore, 3, "amcl", .mapping
        [("ros__parameters", .mapping [("max_beams", .scalar (.int 60))])]⟩] := rfl
  rw [hwrites, List.mem_singleton] at hw
  subst hw
  refine Or.inl fun ρ ρ' hρ hρ' => ?_
  rw [sharedStore_denotes.acyclic hρ, sharedStore_denotes.acyclic hρ']

/-- An overlay for the local costmap changes the global costmap with it. -/
theorem localOverlay_changes_global :
    ¬ ∀ (σ : Store) (root : ℕ) (base : Mapping) (overlays : List Mapping),
      Denotes σ Set.univ (.ref root) (.mapping base.entries) →
      Denotes (mergeAllInto σ root overlays) Set.univ (.ref root)
        (.mapping (mergeAll base overlays).entries) := by
  intro hall
  have hmerged := hall sharedStore 3 sharedBase [localOverlay] sharedStore_denotes
  have hstore : follow (mergeAllInto sharedStore 3 [localOverlay]) (.ref 3)
      (steps ["global_costmap", "ros__parameters", "robot_radius"]) = some (.scalar (.int 2)) := rfl
  have htree : (Node.mapping (mergeAll sharedBase [localOverlay]).entries).get
      ["global_costmap", "ros__parameters", "robot_radius"] = some (.scalar (.int 1)) := rfl
  have hradius := hmerged.get hstore htree
  cases hradius

end TitanRobot.Nav

import TitanRobot.Nav.Store

/-!
# Shared mappings

Documents of a store: what they need of it, what a copy adds to it, and the paths that lead to
their parts. A mapping that several paths lead to is a part of the document in as many places.
-/
namespace TitanRobot.Nav
open Dict Node

/-! ## Stores -/

section
variable {σ σ' ext : Store} {a b : ℕ} {d : List (String × Val)}

theorem Store.entries_set_self (h : a < σ.length) :
    Store.entries (σ.set a d) a = d := by
  simp [Store.entries, List.getD, h]

theorem Store.entries_set_ne (h : b ≠ a) :
    Store.entries (σ.set a d) b = σ.entries b := by
  simp [Store.entries, List.getD, Ne.symm h]

theorem Store.entries_append (h : a < σ.length) :
    Store.entries (σ ++ ext) a = σ.entries a := by
  simp [Store.entries, List.getD, List.getElem?_append_left h]

theorem Store.entries_concat : Store.entries (σ ++ [d]) σ.length = d := by
  simp [Store.entries, List.getD]

/-- Mappings at the addresses in `S` are the same in both stores. -/
def AgreeOn (S : Set ℕ) (σ σ' : Store) : Prop :=
  ∀ a ∈ S, a < σ.length → a < σ'.length ∧ σ'.entries a = σ.entries a

variable {S S' : Set ℕ} {v : Val} {n m : Node}

/-- A document stands in another store that has the mappings of the document. -/
theorem Denotes.frame (h : Denotes σ S v n) (hS : S ⊆ S') (hσ : AgreeOn S σ σ') :
    Denotes σ' S' v n := by
  induction n using Node.induction generalizing v with
  | null =>
    cases h
    exact Denotes.null
  | scalar s =>
    cases h
    exact Denotes.scalar s
  | list items ih =>
    obtain ⟨vs, rfl, hitems⟩ := denotes_list_iff.mp h
    exact denotes_list_iff.mpr ⟨vs, rfl, forall₂_imp hitems fun v _ n hn => ih n hn⟩
  | mapping entries ih =>
    obtain ⟨a, rfl, ha, hlt, hentries⟩ := denotes_mapping_iff.mp h
    obtain ⟨hlt', heq⟩ := hσ a ha hlt
    refine denotes_mapping_iff.mpr ⟨a, rfl, hS ha, hlt', ?_⟩
    rw [heq]
    exact hentries.imp fun x _ y hy hxy => ih y hy hxy

/-- A value of a store stands for one document. -/
theorem Denotes.unique (h : Denotes σ S v n) (h' : Denotes σ S' v m) : n = m := by
  induction n using Node.induction generalizing v m with
  | null =>
    cases h
    cases h'
    rfl
  | scalar s =>
    cases h
    cases h'
    rfl
  | list items ih =>
    obtain ⟨vs, rfl, hitems⟩ := denotes_list_iff.mp h
    cases m with
    | list items' =>
      obtain ⟨vs', heq, hitems'⟩ := denotes_list_iff.mp h'
      obtain rfl := Val.list.inj heq
      rw [forall₂_unique hitems hitems' fun v n hn m hv hv' => ih n hn hv hv']
    | _ => cases h'
  | mapping entries ih =>
    obtain ⟨a, rfl, ha, hlt, hentries⟩ := denotes_mapping_iff.mp h
    cases m with
    | mapping entries' =>
      obtain ⟨a', heq, ha', hlt', hentries'⟩ := denotes_mapping_iff.mp h'
      obtain rfl := Val.ref.inj heq
      rw [forall₂_unique hentries hentries' fun x y hy z hxy hxz =>
        Prod.ext (hxy.1.symm.trans hxz.1) (ih y hy hxy.2 hxz.2)]
    | _ => cases h'

end

/-! ## Deep copies -/

/-- The addresses that are not yet in the store. -/
def fresh (σ : Store) : Set ℕ := {a | σ.length ≤ a}

theorem agreeOn_append (S : Set ℕ) (σ ext : Store) : AgreeOn S σ (σ ++ ext) := by
  intro a _ hlt
  rw [List.length_append]
  exact ⟨by omega, Store.entries_append hlt⟩

theorem fresh_append (σ ext : Store) : fresh (σ ++ ext) ⊆ fresh σ := by
  intro a ha
  simp only [fresh, List.length_append, Set.mem_ofPred_eq] at *
  omega

theorem Denotes.append {σ : Store} {S : Set ℕ} {v : Val} {n : Node} (h : Denotes σ S v n)
    (ext : Store) : Denotes (σ ++ ext) S v n :=
  h.frame subset_rfl (agreeOn_append S σ ext)

theorem Denotes.mono {σ : Store} {S S' : Set ℕ} {v : Val} {n : Node} (h : Denotes σ S v n)
    (hS : S ⊆ S') : Denotes σ S' v n :=
  h.frame hS fun _ _ hlt => ⟨hlt, rfl⟩

/-- A copy is put into new mappings only. -/
def CopiedBy (n : Node) : Prop :=
  ∀ σ : Store, ∃ ext, (deepcopy σ n).1 = σ ++ ext ∧
    Denotes (σ ++ ext) (fresh σ) (deepcopy σ n).2 n

theorem deepcopyItems_spec {items : List Node} (h : ∀ n ∈ items, CopiedBy n) (σ : Store) :
    ∃ ext, (deepcopyItems σ items).1 = σ ++ ext ∧
      List.Forall₂ (Denotes (σ ++ ext) (fresh σ)) (deepcopyItems σ items).2 items := by
  induction items generalizing σ with
  | nil => exact ⟨[], by simp [deepcopyItems], List.Forall₂.nil⟩
  | cons n items ih =>
    obtain ⟨ext, hstore, hn⟩ := h n (by simp) σ
    obtain ⟨ext', hstore', hrest⟩ := ih (fun m hm => h m (by simp [hm])) (σ ++ ext)
    refine ⟨ext ++ ext', ?_, ?_⟩
    · rw [deepcopyItems, hstore, hstore', List.append_assoc]
    · rw [deepcopyItems, hstore, ← List.append_assoc]
      exact List.Forall₂.cons (hn.append ext')
        (forall₂_imp hrest fun v _ m _ hm => hm.mono (fresh_append σ ext))

theorem deepcopyEntries_spec {entries : Entries} (h : ∀ e ∈ entries, CopiedBy e.2) (σ : Store) :
    ∃ ext, (deepcopyEntries σ entries).1 = σ ++ ext ∧
      Matches (Denotes (σ ++ ext) (fresh σ)) (deepcopyEntries σ entries).2 entries := by
  induction entries generalizing σ with
  | nil => exact ⟨[], by simp [deepcopyEntries], List.Forall₂.nil⟩
  | cons e entries ih =>
    obtain ⟨k, n⟩ := e
    obtain ⟨ext, hstore, hn⟩ := h (k, n) (by simp) σ
    obtain ⟨ext', hstore', hrest⟩ := ih (fun m hm => h m (by simp [hm])) (σ ++ ext)
    refine ⟨ext ++ ext', ?_, ?_⟩
    · rw [deepcopyEntries, deepcopyEntry, hstore, hstore', List.append_assoc]
    · rw [deepcopyEntries, deepcopyEntry, hstore, ← List.append_assoc]
      exact List.Forall₂.cons ⟨rfl, hn.append ext'⟩
        (Matches.imp hrest fun x _ y _ hy => hy.mono (fresh_append σ ext))

theorem deepcopy_spec (n : Node) : CopiedBy n := by
  induction n using Node.induction with
  | null => exact fun σ => ⟨[], by simp [deepcopy], Denotes.null⟩
  | scalar s => exact fun σ => ⟨[], by simp [deepcopy], Denotes.scalar s⟩
  | list items ih =>
    intro σ
    obtain ⟨ext, hstore, hitems⟩ := deepcopyItems_spec ih σ
    exact ⟨ext, by rw [deepcopy, hstore], denotes_list_iff.mpr ⟨_, by rw [deepcopy], hitems⟩⟩
  | mapping entries ih =>
    intro σ
    obtain ⟨ext, hstore, hentries⟩ := deepcopyEntries_spec ih σ
    refine ⟨ext ++ [(deepcopyEntries σ entries).2], ?_, ?_⟩
    · rw [deepcopy, hstore, List.append_assoc]
    · rw [deepcopy, hstore, ← List.append_assoc]
      refine denotes_mapping_iff.mpr ⟨_, rfl, ?_, ?_, ?_⟩
      · simp [fresh]
      · simp
      · rw [Store.entries_concat]
        exact hentries.imp fun x _ y _ hy => hy.append _

/-! ## Paths -/

/-- A step into a mapping or into a list. -/
inductive Step where
  | key (k : String)
  | item (i : ℕ)

/-- What a path in the store leads to. -/
def follow (σ : Store) : Val → List Step → Option Val
  | v, [] => some v
  | .ref a, .key k :: ρ => ((σ.entries a).lookup k).bind fun v => follow σ v ρ
  | .list vs, .item i :: ρ => vs[i]?.bind fun v => follow σ v ρ
  | _, _ :: _ => none
  termination_by structural _ ρ => ρ

/-- The part of a document at a path. -/
def part : Node → List Step → Option Node
  | n, [] => some n
  | .mapping entries, .key k :: ρ => (entries.lookup k).bind fun n => part n ρ
  | .list items, .item i :: ρ => items[i]?.bind fun n => part n ρ
  | _, _ :: _ => none
  termination_by structural _ ρ => ρ

/-- The steps of a key path. -/
def steps (p : List String) : List Step := p.map Step.key

/-- A single path leads to the mapping. -/
def Alone (σ : Store) (root : Val) (a : ℕ) : Prop :=
  ∀ ρ ρ', follow σ root ρ = some (.ref a) → follow σ root ρ' = some (.ref a) → ρ = ρ'

section
variable {σ σ' : Store} {S : Set ℕ} {v w : Val} {n m : Node} {a : ℕ} {ρ ρ' : List Step}

@[simp] theorem follow_nil (σ : Store) (v : Val) : follow σ v [] = some v := by
  cases v <;> rfl

@[simp] theorem follow_key (σ : Store) (a : ℕ) (k : String) (ρ : List Step) :
    follow σ (.ref a) (.key k :: ρ) = ((σ.entries a).lookup k).bind fun v => follow σ v ρ := rfl

@[simp] theorem follow_item (σ : Store) (vs : List Val) (i : ℕ) (ρ : List Step) :
    follow σ (.list vs) (.item i :: ρ) = vs[i]?.bind fun v => follow σ v ρ := rfl

theorem follow_append (ρ ρ' : List Step) :
    follow σ v (ρ ++ ρ') = (follow σ v ρ).bind fun w => follow σ w ρ' := by
  induction ρ generalizing v with
  | nil => simp
  | cons step ρ ih =>
    cases v with
    | ref a =>
      cases step with
      | key k => cases h : (σ.entries a).lookup k <;> simp [h, ih]
      | item i => rfl
    | list vs =>
      cases step with
      | key k => rfl
      | item i => cases h : vs[i]? <;> simp [h, ih]
    | _ => cases step <;> rfl

@[simp] theorem part_nil (n : Node) : part n [] = some n := by
  cases n <;> rfl

@[simp] theorem part_key (entries : Entries) (k : String) (ρ : List Step) :
    part (.mapping entries) (.key k :: ρ) = (entries.lookup k).bind fun n => part n ρ := rfl

@[simp] theorem part_item (items : List Node) (i : ℕ) (ρ : List Step) :
    part (.list items) (.item i :: ρ) = items[i]?.bind fun n => part n ρ := rfl

/-- The part at a key path. -/
theorem part_steps (n : Node) (p : List String) : part n (steps p) = n.get p := by
  induction p generalizing n with
  | nil => simp [steps]
  | cons k p ih =>
    cases n with
    | mapping entries =>
      rw [get_mapping_cons, ← funext ih]
      rfl
    | _ => rfl

theorem steps_append (p q : List String) : steps (p ++ q) = steps p ++ steps q :=
  List.map_append

/-- A part further down is smaller. -/
theorem sizeOf_part (h : part n ρ = some m) : sizeOf m + ρ.length ≤ sizeOf n := by
  induction ρ generalizing n with
  | nil =>
    obtain rfl : n = m := by simpa using h
    simp
  | cons step ρ ih =>
    rw [List.length_cons]
    cases n with
    | null => simp [part] at h
    | scalar s => simp [part] at h
    | list items =>
      cases step with
      | key k => simp [part] at h
      | item i =>
        rw [part_item] at h
        obtain ⟨x, hx, hm⟩ := Option.bind_eq_some_iff.mp h
        have hlt := sizeOf_lt_of_mem_items (List.mem_of_getElem? hx)
        have hle := ih hm
        omega
    | mapping entries =>
      cases step with
      | item i => simp [part] at h
      | key k =>
        rw [part_key] at h
        obtain ⟨x, hx, hm⟩ := Option.bind_eq_some_iff.mp h
        have hlt : sizeOf x < _ := sizeOf_lt_of_mem_entries (mem_of_lookup hx)
        have hle := ih hm
        omega

/-- A path leads to the part of the document at it. -/
theorem Denotes.part (h : Denotes σ S v n) (hρ : follow σ v ρ = some w) :
    ∃ m, Nav.part n ρ = some m ∧ Denotes σ S w m := by
  induction ρ generalizing v n with
  | nil =>
    obtain rfl : v = w := by simpa using hρ
    exact ⟨n, part_nil n, h⟩
  | cons step ρ ih =>
    cases n with
    | null =>
      cases h
      simp [follow] at hρ
    | scalar s =>
      cases h
      simp [follow] at hρ
    | list items =>
      obtain ⟨vs, rfl, hitems⟩ := denotes_list_iff.mp h
      cases step with
      | key k => simp [follow] at hρ
      | item i =>
        rw [follow_item] at hρ
        obtain ⟨u, hu, hrest⟩ := Option.bind_eq_some_iff.mp hρ
        obtain ⟨n, hn, hun⟩ := getElem?_of_forall₂ hitems hu
        rw [part_item, hn]
        exact ih hun hrest
    | mapping entries =>
      obtain ⟨a, rfl, -, -, hentries⟩ := denotes_mapping_iff.mp h
      cases step with
      | item i => simp [follow] at hρ
      | key k =>
        rw [follow_key] at hρ
        obtain ⟨u, hu, hrest⟩ := Option.bind_eq_some_iff.mp hρ
        obtain ⟨n, hn, hun⟩ := hentries.lookup_left hu
        rw [part_key, hn]
        exact ih hun hrest

theorem Denotes.get (h : Denotes σ S v n) {p : List String}
    (hp : follow σ v (steps p) = some w) (hget : n.get p = some m) : Denotes σ S w m := by
  obtain ⟨m', hm', hden⟩ := h.part hp
  rw [part_steps, hget] at hm'
  rwa [Option.some.inj hm']

/-- No path leads from a mapping to itself. -/
theorem Denotes.acyclic (h : Denotes σ S (.ref a) n) (hρ : follow σ (.ref a) ρ = some (.ref a)) :
    ρ = [] := by
  obtain ⟨m, hm, hden⟩ := h.part hρ
  rw [hden.unique h] at hm
  have hle := sizeOf_part hm
  exact List.length_eq_zero_iff.mp (by omega)

/-- Of two paths to a mapping none is above the other. -/
theorem Denotes.eq_of_prefix (h : Denotes σ S v n) (hρ : follow σ v ρ = some (.ref a))
    (hρ' : follow σ v ρ' = some (.ref a)) (hpre : ρ <+: ρ') : ρ = ρ' := by
  obtain ⟨τ, rfl⟩ := hpre
  obtain ⟨m, -, hden⟩ := h.part hρ
  rw [follow_append, hρ, Option.bind_some] at hρ'
  rw [hden.acyclic hρ', List.append_nil]

/-- A document without a path to the mapping at `a` does not depend on it. -/
theorem Denotes.off (h : Denotes σ S v n) (hn : n.wf = true)
    (hoff : ∀ ρ, follow σ v ρ ≠ some (.ref a)) : Denotes σ {b | b ≠ a} v n := by
  induction n using Node.induction generalizing v with
  | null =>
    cases h
    exact Denotes.null
  | scalar s =>
    cases h
    exact Denotes.scalar s
  | list items ih =>
    obtain ⟨vs, rfl, hitems⟩ := denotes_list_iff.mp h
    refine denotes_list_iff.mpr ⟨vs, rfl, forall₂_imp hitems fun u hu m hm hum => ?_⟩
    obtain ⟨i, hi⟩ := List.mem_iff_getElem?.mp hu
    have hwf : wfItems items = true := by simpa [wf] using hn
    exact ih m hm hum (wfItems_iff.mp hwf m hm) fun ρ hρ => hoff (.item i :: ρ) (by simp [hi, hρ])
  | mapping entries ih =>
    obtain ⟨c, rfl, -, hlt, hentries⟩ := denotes_mapping_iff.mp h
    have hall := (wf_mapping.mp hn).2
    have hne : c ≠ a := by
      rintro rfl
      exact hoff [] (by simp)
    refine denotes_mapping_iff.mpr ⟨c, rfl, hne, hlt, ?_⟩
    refine hentries.imp fun x hx y hy hxy => ih y hy hxy (hall y hy) fun ρ hρ => ?_
    have hkeys := uniqueKeys_entries h hn
    exact hoff (.key x.1 :: ρ) (by simp [lookup_of_mem hkeys hx, hρ])

theorem Store.lt_length_of_lookup {k : String} (h : (σ.entries a).lookup k = some v) :
    a < σ.length := by
  by_contra hle
  rw [Store.entries, List.getD_eq_default _ _ (not_lt.mp hle)] at h
  simp at h

/-- A path that does not go through the mapping at `a` leads to the same in a store that differs
there. -/
theorem follow_of_agreeOn (hσ : AgreeOn {b | b ≠ a} σ σ') (hρ : follow σ v ρ = some w)
    (hoff : ∀ τ τ', ρ = τ ++ τ' → follow σ v τ = some (.ref a) → τ' = []) :
    follow σ' v ρ = some w := by
  induction ρ generalizing v with
  | nil => simpa using hρ
  | cons step ρ ih =>
    cases v with
    | ref c =>
      cases step with
      | item i => simp [follow] at hρ
      | key k =>
        rw [follow_key] at hρ
        obtain ⟨u, hu, hrest⟩ := Option.bind_eq_some_iff.mp hρ
        have hc : c ≠ a := by
          rintro rfl
          exact absurd (hoff [] (.key k :: ρ) rfl (follow_nil σ _)) (by simp)
        rw [follow_key, (hσ c hc (Store.lt_length_of_lookup hu)).2, hu]
        exact ih hrest fun τ τ' heq hτ => hoff (.key k :: τ) τ' (by simp [heq]) (by simp [hu, hτ])
    | list vs =>
      cases step with
      | key k => simp [follow] at hρ
      | item i =>
        rw [follow_item] at hρ
        obtain ⟨u, hu, hrest⟩ := Option.bind_eq_some_iff.mp hρ
        rw [follow_item, hu]
        exact ih hrest fun τ τ' heq hτ => hoff (.item i :: τ) τ' (by simp [heq]) (by simp [hu, hτ])
    | null => simp [follow] at hρ
    | scalar s => simp [follow] at hρ

/-- A write to a mapping leaves the paths to it. -/
theorem Denotes.follow_prefix (h : Denotes σ S v n) (hpre : ρ <+: ρ')
    (hρ' : follow σ v ρ' = some (.ref a)) (hσ : AgreeOn {b | b ≠ a} σ σ') :
    follow σ' v ρ = follow σ v ρ := by
  obtain ⟨τ, rfl⟩ := hpre
  have hρ := hρ'
  rw [follow_append] at hρ
  obtain ⟨u, hu, -⟩ := Option.bind_eq_some_iff.mp hρ
  rw [hu]
  refine follow_of_agreeOn hσ hu fun τ₁ τ₂ heq hτ₁ => ?_
  have hpre : τ₁ <+: ρ ++ τ := ⟨τ₂ ++ τ, by simp [heq]⟩
  have hsame := h.eq_of_prefix hτ₁ hρ' hpre
  rw [heq, List.append_assoc, List.self_eq_append_right, List.append_eq_nil_iff] at hsame
  exact hsame.1

/-- Replacing the part at a key path leaves the parts elsewhere. -/
theorem part_put {p : List String} {x : Node} (hget : n.get p = some x) (hbelow : ¬ steps p <+: ρ)
    (habove : ¬ ρ <+: steps p) : part (n.put p m) ρ = part n ρ := by
  induction p generalizing n ρ with
  | nil => exact absurd (List.nil_prefix) hbelow
  | cons k p ih =>
    obtain ⟨entries, n', rfl, hk, hn'⟩ := get_cons_eq_some_iff.mp hget
    rw [put_cons hk]
    cases ρ with
    | nil => exact absurd (List.nil_prefix) habove
    | cons step ρ =>
      cases step with
      | item i => rfl
      | key k' =>
        rw [part_key, part_key, lookup_insert]
        split_ifs with heq
        · subst heq
          rw [hk, Option.bind_some, Option.bind_some]
          refine ih hn' (fun hpre => hbelow ?_) fun hpre => habove ?_
          · exact List.cons_prefix_cons.mpr ⟨rfl, hpre⟩
          · exact List.cons_prefix_cons.mpr ⟨rfl, hpre⟩
        · rfl

end

end TitanRobot.Nav

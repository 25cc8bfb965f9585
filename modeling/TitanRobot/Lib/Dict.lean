import Mathlib

/-!
# Ordered dictionaries

A dictionary is a list of entries in insertion order, with distinct keys where that
matters. Binding a key that is present keeps its place. `lookup_foldl` is the rule for a
loop over the entries of a dictionary that updates another one key by key: at each key, only
the entry with that key matters.
-/
namespace TitanRobot.Dict

variable {κ ν : Type} [DecidableEq κ]

def insert (k : κ) (v : ν) : List (κ × ν) → List (κ × ν)
  | [] => [(k, v)]
  | e :: d => if e.1 = k then (k, v) :: d else e :: insert k v d

def erase (k : κ) (d : List (κ × ν)) : List (κ × ν) := d.filter (·.1 ≠ k)

def keys (d : List (κ × ν)) : List κ := d.map Prod.fst

def UniqueKeys (d : List (κ × ν)) : Prop := (keys d).Nodup

instance (d : List (κ × ν)) : Decidable (UniqueKeys d) := inferInstanceAs (Decidable (keys d).Nodup)

theorem lookup_cons (e : κ × ν) (d : List (κ × ν)) (k : κ) :
    (e :: d).lookup k = if k = e.1 then some e.2 else d.lookup k := by
  rw [List.lookup_cons]
  by_cases h : k = e.1
  · simp [h]
  · simp [h, beq_eq_false_iff_ne.mpr h]

theorem lookup_insert (k k' : κ) (v : ν) (d : List (κ × ν)) :
    (insert k v d).lookup k' = if k' = k then some v else d.lookup k' := by
  induction d with
  | nil => rw [insert, lookup_cons]
  | cons e d ih =>
    rw [insert]
    split_ifs with he <;> simp only [lookup_cons, ih] <;> split_ifs <;> simp_all

theorem lookup_erase (k k' : κ) (d : List (κ × ν)) :
    (erase k d).lookup k' = if k' = k then none else d.lookup k' := by
  induction d with
  | nil => simp [erase]
  | cons e d ih =>
    rw [lookup_cons]
    by_cases he : e.1 = k
    · rw [erase, List.filter_cons_of_neg (by simpa using he), ← erase, ih, he]
      split_ifs <;> rfl
    · rw [erase, List.filter_cons_of_pos (by simpa using he), ← erase, lookup_cons, ih]
      by_cases hk : k' = k
      · rw [if_pos hk, if_neg (by rw [hk]; exact Ne.symm he)]
        simp [hk]
      · simp [hk]

theorem mem_keys_insert (k k' : κ) (v : ν) (d : List (κ × ν)) :
    k' ∈ keys (insert k v d) ↔ k' = k ∨ k' ∈ keys d := by
  induction d with
  | nil => simp [insert, keys]
  | cons e d ih =>
    unfold keys at ih ⊢
    rw [insert]
    split_ifs with he
    · simp [he]
    · simp only [List.map_cons, List.mem_cons, ih]
      tauto

theorem mem_insert {k : κ} {v : ν} {d : List (κ × ν)} {e : κ × ν} (h : e ∈ insert k v d) :
    e = (k, v) ∨ e ∈ d := by
  induction d with
  | nil => exact .inl (by simpa [insert] using h)
  | cons e' d ih =>
    rw [insert] at h
    split_ifs at h
    · rcases List.mem_cons.mp h with rfl | h
      · exact .inl rfl
      · exact .inr (List.mem_cons_of_mem _ h)
    · rcases List.mem_cons.mp h with rfl | h
      · exact .inr List.mem_cons_self
      · exact (ih h).imp_right (List.mem_cons_of_mem _)

theorem UniqueKeys.insert {d : List (κ × ν)} (h : UniqueKeys d) (k : κ) (v : ν) :
    UniqueKeys (insert k v d) := by
  induction d with
  | nil => simp [Dict.insert, UniqueKeys, keys]
  | cons e d ih =>
    obtain ⟨he, hd⟩ := List.nodup_cons.mp h
    rw [Dict.insert]
    split_ifs with hk
    · exact List.nodup_cons.mpr ⟨hk ▸ he, hd⟩
    · refine List.nodup_cons.mpr ⟨?_, ih hd⟩
      change e.1 ∉ keys (Dict.insert k v d)
      rw [mem_keys_insert]
      exact not_or.mpr ⟨hk, he⟩

theorem UniqueKeys.erase {d : List (κ × ν)} (h : UniqueKeys d) (k : κ) :
    UniqueKeys (erase k d) :=
  h.sublist (List.filter_sublist.map Prod.fst)

theorem lookup_eq_none_of_unique {e : κ × ν} {d : List (κ × ν)} (h : UniqueKeys (e :: d)) :
    d.lookup e.1 = none := by
  have he := (List.nodup_cons.mp h).1
  rw [List.lookup_eq_none_iff]
  intro p hp
  rw [bne_iff_ne]
  intro heq
  exact he (heq ▸ List.mem_map_of_mem hp)

/-- A loop over the entries of `o`, each of which updates the binding of its own key only. -/
theorem lookup_foldl {step : List (κ × ν) → κ × ν → List (κ × ν)}
    {update : Option ν → ν → Option ν}
    (hstep : ∀ d e k, (step d e).lookup k = if k = e.1 then update (d.lookup k) e.2
      else d.lookup k)
    {o : List (κ × ν)} (ho : UniqueKeys o) (d : List (κ × ν)) (k : κ) :
    (o.foldl step d).lookup k = (o.lookup k).elim (d.lookup k) (update (d.lookup k)) := by
  induction o generalizing d with
  | nil => simp
  | cons e o ih =>
    rw [List.foldl_cons, ih (List.nodup_cons.mp ho).2, hstep, lookup_cons]
    split_ifs with hk
    · rw [hk, lookup_eq_none_of_unique ho]
      rfl
    · rfl

theorem insert_of_lookup {k : κ} {v : ν} {d : List (κ × ν)} (h : d.lookup k = some v) :
    insert k v d = d := by
  induction d with
  | nil => simp at h
  | cons e d ih =>
    rw [lookup_cons] at h
    rw [insert]
    split_ifs at h with hk
    · obtain rfl := Option.some.inj h
      rw [if_pos hk.symm, hk]
    · rw [if_neg (Ne.symm hk), ih h]

theorem erase_of_lookup_none {k : κ} {d : List (κ × ν)} (h : d.lookup k = none) :
    erase k d = d := by
  rw [erase, List.filter_eq_self]
  intro e he
  have hne : k ≠ e.1 := bne_iff_ne.mp (List.lookup_eq_none_iff.mp h e he)
  exact decide_eq_true (Ne.symm hne)

theorem insert_eq_self {k : κ} {v : ν} {d : List (κ × ν)} :
    insert k v d = d ↔ d.lookup k = some v := by
  refine ⟨fun h => ?_, insert_of_lookup⟩
  rw [← h, lookup_insert, if_pos rfl]

theorem erase_eq_self {k : κ} {d : List (κ × ν)} : erase k d = d ↔ d.lookup k = none := by
  refine ⟨fun h => ?_, erase_of_lookup_none⟩
  rw [← h, lookup_erase, if_pos rfl]

theorem insert_insert (k : κ) (v v' : ν) (d : List (κ × ν)) :
    insert k v' (insert k v d) = insert k v' d := by
  induction d with
  | nil => simp [insert]
  | cons e d ih =>
    by_cases he : e.1 = k
    · simp [insert, he]
    · simp [insert, he, ih]

theorem mem_of_lookup {k : κ} {v : ν} {d : List (κ × ν)} (h : d.lookup k = some v) :
    (k, v) ∈ d := by
  obtain ⟨l, r, rfl, -⟩ := List.lookup_eq_some_iff.mp h
  simp

theorem lookup_of_mem {d : List (κ × ν)} (h : UniqueKeys d) {e : κ × ν} (he : e ∈ d) :
    d.lookup e.1 = some e.2 := by
  induction d with
  | nil => simp at he
  | cons e' d ih =>
    obtain ⟨hnot, hd⟩ := List.nodup_cons.mp h
    rw [lookup_cons]
    rcases List.mem_cons.mp he with rfl | he
    · simp
    · have hne : e.1 ≠ e'.1 := fun heq => hnot (heq ▸ List.mem_map_of_mem he)
      rw [if_neg hne, ih hd he]

/-! ## Lists related element by element -/

section
variable {α β : Type} {R R' : α → β → Prop} {l : List α} {m m' : List β}

theorem forall₂_imp (h : List.Forall₂ R l m) (himp : ∀ x ∈ l, ∀ y ∈ m, R x y → R' x y) :
    List.Forall₂ R' l m := by
  induction h with
  | nil => exact List.Forall₂.nil
  | cons hxy _ ih =>
    refine List.Forall₂.cons (himp _ (by simp) _ (by simp) hxy) (ih ?_)
    exact fun x hx y hy => himp x (by simp [hx]) y (by simp [hy])

theorem getElem?_of_forall₂ (h : List.Forall₂ R l m) {i : ℕ} {x : α} (hx : l[i]? = some x) :
    ∃ y, m[i]? = some y ∧ R x y := by
  induction h generalizing i with
  | nil => simp at hx
  | cons hxy _ ih =>
    cases i with
    | zero =>
      obtain rfl : _ = x := by simpa using hx
      exact ⟨_, rfl, hxy⟩
    | succ i => exact ih (by simpa using hx)

/-- The list that another one is related to is determined, if its elements are. -/
theorem forall₂_unique (h : List.Forall₂ R l m) (h' : List.Forall₂ R' l m')
    (heq : ∀ x, ∀ y ∈ m, ∀ z, R x y → R' x z → y = z) : m = m' := by
  induction h generalizing m' with
  | nil =>
    cases h'
    rfl
  | @cons x y l m hxy _ ih =>
    cases h' with
    | @cons _ z _ m' hxz hrest =>
      rw [heq x y (by simp) z hxy hxz, ih hrest fun x y' hy => heq x y' (by simp [hy])]

end

/-! ## Dictionaries with the same keys -/

section
variable {ν' : Type} {R R' : ν → ν' → Prop} {d : List (κ × ν)} {e : List (κ × ν')}

/-- The same keys in the same order, with related values. -/
def Matches (R : ν → ν' → Prop) (d : List (κ × ν)) (e : List (κ × ν')) : Prop :=
  List.Forall₂ (fun x y => x.1 = y.1 ∧ R x.2 y.2) d e

omit [DecidableEq κ] in
theorem Matches.keys_eq (h : Matches R d e) : keys d = keys e := by
  induction h with
  | nil => rfl
  | cons hxy _ ih => simpa [keys, hxy.1] using ih

omit [DecidableEq κ] in
theorem Matches.imp (h : Matches R d e) (himp : ∀ x ∈ d, ∀ y ∈ e, R x.2 y.2 → R' x.2 y.2) :
    Matches R' d e :=
  forall₂_imp h fun x hx y hy hxy => ⟨hxy.1, himp x hx y hy hxy.2⟩

/-- A key has a value in both or in neither. -/
theorem Matches.lookup (h : Matches R d e) (k : κ) :
    (d.lookup k = none ∧ e.lookup k = none) ∨
      ∃ v n, d.lookup k = some v ∧ e.lookup k = some n ∧ R v n := by
  induction h with
  | nil => exact Or.inl ⟨rfl, rfl⟩
  | cons hxy _ ih =>
    rw [lookup_cons, lookup_cons, hxy.1]
    split_ifs
    · exact Or.inr ⟨_, _, rfl, rfl, hxy.2⟩
    · exact ih

theorem Matches.lookup_left (h : Matches R d e) {k : κ} {v : ν} (hv : d.lookup k = some v) :
    ∃ n, e.lookup k = some n ∧ R v n := by
  rcases h.lookup k with ⟨hnone, -⟩ | ⟨v', n, hv', hn, hvn⟩
  · exact absurd (hv.symm.trans hnone) (by simp)
  · obtain rfl := Option.some.inj (hv.symm.trans hv')
    exact ⟨n, hn, hvn⟩

theorem Matches.lookup_right (h : Matches R d e) {k : κ} {n : ν'} (hn : e.lookup k = some n) :
    ∃ v, d.lookup k = some v ∧ R v n := by
  rcases h.lookup k with ⟨-, hnone⟩ | ⟨v, n', hv, hn', hvn⟩
  · exact absurd (hn.symm.trans hnone) (by simp)
  · obtain rfl := Option.some.inj (hn.symm.trans hn')
    exact ⟨v, hv, hvn⟩

theorem Matches.lookup_eq_none (h : Matches R d e) (k : κ) :
    d.lookup k = none ↔ e.lookup k = none := by
  rcases h.lookup k with ⟨hd, he⟩ | ⟨v, n, hd, he, -⟩
  · simp [hd, he]
  · simp [hd, he]

theorem Matches.erase (h : Matches R d e) (k : κ) : Matches R (erase k d) (erase k e) := by
  induction h with
  | nil => exact List.Forall₂.nil
  | cons hxy _ ih =>
    unfold Dict.erase at *
    rw [List.filter_cons, List.filter_cons, hxy.1]
    split_ifs
    · exact List.Forall₂.cons hxy ih
    · exact ih

/-- Binding a key to related values, where the values of the other keys may be related anew. -/
theorem Matches.insert (h : Matches R d e) (hunique : UniqueKeys d) {k : κ} {v : ν} {n : ν'}
    (hother : ∀ x ∈ d, ∀ y ∈ e, x.1 ≠ k → R x.2 y.2 → R' x.2 y.2) (hkey : R' v n) :
    Matches R' (insert k v d) (insert k n e) := by
  induction h with
  | nil => exact List.Forall₂.cons ⟨rfl, hkey⟩ List.Forall₂.nil
  | @cons x y d e hxy htail ih =>
    obtain ⟨hnot, hd⟩ := List.nodup_cons.mp hunique
    rw [Dict.insert, Dict.insert, ← hxy.1]
    split_ifs with hk
    · refine List.Forall₂.cons ⟨rfl, hkey⟩ ?_
      refine Matches.imp htail fun x' hx y' hy => hother x' (by simp [hx]) y' (by simp [hy]) ?_
      exact fun heq => hnot (hk ▸ heq ▸ List.mem_map_of_mem hx)
    · refine List.Forall₂.cons ⟨hxy.1, hother x (by simp) y (by simp) hk hxy.2⟩ (ih hd ?_)
      exact fun x' hx y' hy => hother x' (by simp [hx]) y' (by simp [hy])

end

end TitanRobot.Dict

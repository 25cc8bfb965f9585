import Mathlib

/-!
# The least element, or a default

A loop that keeps the smallest value met so far starts from a sentinel above all of them, and
afterwards a value that is none of them stands for the minimum of nothing.
-/
namespace TitanRobot

section
variable {α β : Type*} [LinearOrder α]

/-- The least element of the set, or the default if there is none to choose from. -/
def IsLeastOr (d : α) (s : Set α) (a : α) : Prop :=
  IsLeast s a ∨ s = ∅ ∧ a = d

/-- The smaller of two results, where the default is no value. -/
def smaller (d a b : α) : α :=
  if a = d then b else if b = d then a else min a b

variable {d a b : α} {s t : Set α}

theorem IsLeastOr.unique (ha : IsLeastOr d s a) (hb : IsLeastOr d s b) : a = b := by
  rcases ha with ha | ⟨rfl, rfl⟩
  · rcases hb with hb | ⟨rfl, rfl⟩
    · exact ha.unique hb
    · exact absurd ha.1 (Set.notMem_empty a)
  · rcases hb with hb | ⟨-, rfl⟩
    · exact absurd hb.1 (Set.notMem_empty b)
    · rfl

theorem isLeastOr_getD (d : α) (l : List α) :
    IsLeastOr d {a | a ∈ l} (l.min?.getD d) := by
  cases h : l.min? with
  | none =>
    obtain rfl := List.min?_eq_none_iff.mp h
    exact Or.inr ⟨by simp, rfl⟩
  | some a => exact Or.inl (List.min?_eq_some_iff.mp h)

/-- A least element of a union is one of its left part exactly if the left part has something
below each element of the right part. -/
theorem IsLeastOr.left_iff (hd : d ∉ s ∪ t) (h : IsLeastOr d (s ∪ t) a) :
    IsLeastOr d s a ↔ ∀ b ∈ t, ∃ c ∈ s, c ≤ b := by
  rcases h with ⟨hmem, hle⟩ | ⟨hempty, rfl⟩
  · constructor
    · rintro (⟨hs, -⟩ | ⟨-, rfl⟩) b hb
      · exact ⟨a, hs, hle (Or.inr hb)⟩
      · exact absurd hmem hd
    · intro hbelow
      have hs : a ∈ s := by
        rcases hmem with hs | ht
        · exact hs
        · obtain ⟨c, hc, hca⟩ := hbelow a ht
          rwa [le_antisymm (hle (Or.inl hc)) hca]
      exact Or.inl ⟨hs, fun b hb => hle (Or.inl hb)⟩
  · obtain ⟨rfl, rfl⟩ := Set.union_empty_iff.mp hempty
    exact iff_of_true (Or.inr ⟨rfl, rfl⟩) (by simp)

theorem IsLeastOr.union (hd : d ∉ s ∪ t) (ha : IsLeastOr d s a)
    (hb : IsLeastOr d t b) : IsLeastOr d (s ∪ t) (smaller d a b) := by
  rcases ha with ha | ⟨rfl, rfl⟩
  · have hane : a ≠ d := fun h => hd (Or.inl (h ▸ ha.1))
    rcases hb with hb | ⟨rfl, rfl⟩
    · have hbne : b ≠ d := fun h => hd (Or.inr (h ▸ hb.1))
      rw [smaller, if_neg hane, if_neg hbne]
      exact Or.inl (ha.union hb)
    · rw [smaller, if_neg hane, if_pos rfl, Set.union_empty]
      exact Or.inl ha
  · simpa [smaller] using hb

/-! ## The loop -/

/-- A loop whose body takes the smaller of the value in hand and that of the element, if it has
one. -/
theorem foldlM_eq_foldl_min {step : α → β → Option α} {score : β → Option α} {l : List β}
    (h : ∀ b ∈ l, ∀ m, step m b = some ((score b).elim m (min m))) (m : α) :
    l.foldlM step m = some ((l.filterMap score).foldl min m) := by
  induction l generalizing m with
  | nil => rfl
  | cons b l ih =>
    have htail := ih fun c hc => h c (List.mem_cons_of_mem b hc)
    rw [List.foldlM_cons, h b List.mem_cons_self]
    cases hb : score b with
    | none => simp [hb, htail]
    | some a => simp [hb, htail]

/-- The sentinel is left in hand exactly if there was nothing to choose from. -/
theorem foldl_min_sentinel {top : α} {l : List α} (d : α) (htop : ∀ a ∈ l, a < top) :
    (if l.foldl min top = top then d else l.foldl min top) = l.min?.getD d := by
  rw [List.foldl_min]
  cases h : l.min? with
  | none => simp
  | some a =>
    have hlt : a < top := htop a (List.min?_eq_some_iff.mp h).1
    simp [min_eq_right hlt.le, hlt.ne]

end

end TitanRobot

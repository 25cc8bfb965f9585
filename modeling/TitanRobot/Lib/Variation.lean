import Mathlib

/-!
# Total variation of a list

The sum of the distances between neighbours. It composes over concatenation, reads the same
backwards, and an element put in between adds its detour: nothing, exactly if the element lies
between its neighbours.
-/
namespace TitanRobot.Variation

variable {α : Type} [AddCommGroup α] [LinearOrder α]

def variation : List α → α
  | a :: b :: l => |b - a| + variation (b :: l)
  | _ => 0

@[simp] theorem variation_nil : variation ([] : List α) = 0 := rfl

@[simp] theorem variation_singleton (a : α) : variation [a] = 0 := rfl

@[simp] theorem variation_cons_cons (a b : α) (l : List α) :
    variation (a :: b :: l) = |b - a| + variation (b :: l) := rfl

theorem variation_append (l r : List α) (a b : α) :
    variation (l ++ a :: b :: r) = variation (l ++ [a]) + |b - a| + variation (b :: r) := by
  induction l with
  | nil => simp
  | cons x l ih =>
    cases l with
    | nil => simp [add_assoc]
    | cons y l => simp only [List.cons_append, variation_cons_cons, add_assoc] at ih ⊢; rw [ih]

theorem variation_reverse (l : List α) : variation l.reverse = variation l := by
  induction l with
  | nil => rfl
  | cons a l ih =>
    cases l with
    | nil => rfl
    | cons b l =>
      have hlast := variation_append l.reverse [] b a
      rw [variation_singleton, add_zero] at hlast
      rw [variation_cons_cons, ← ih, List.reverse_cons, List.reverse_cons, List.append_assoc]
      rw [List.singleton_append, hlast, abs_sub_comm, add_comm]

/-- What `x` between `g` and `k` adds to the variation. -/
def detour : Option α → α → Option α → α
  | some g, x, some k => |x - g| + |k - x| - |k - g|
  | none, x, some k => |k - x|
  | some g, x, none => |x - g|
  | none, _, none => 0

theorem variation_insert (l r : List α) (x : α) :
    variation (l ++ x :: r) = variation (l ++ r) + detour l.getLast? x r.head? := by
  rcases List.eq_nil_or_concat' l with rfl | ⟨l, g, rfl⟩
  · cases r <;> simp [detour, add_comm]
  · rw [List.append_assoc, List.append_assoc, List.singleton_append, List.singleton_append,
      variation_append]
    cases r with
    | nil => simp [detour]
    | cons k r =>
      rw [variation_append, variation_cons_cons]
      simp only [List.getLast?_concat, List.head?_cons, detour]
      abel

/-- `x` lies between its neighbours, or equals its only one. -/
def Passes : Option α → α → Option α → Prop
  | some g, x, some k => (g ≤ x ∧ x ≤ k) ∨ (k ≤ x ∧ x ≤ g)
  | none, x, some k => k = x
  | some g, x, none => g = x
  | none, _, none => True

theorem detour_eq_zero_iff [IsOrderedAddMonoid α] (g k : Option α) (x : α) : detour g x k = 0 ↔ Passes g x k := by
  cases g with
  | none =>
    cases k with
    | none => simp [detour, Passes]
    | some k => simp [detour, Passes, sub_eq_zero]
  | some g =>
    cases k with
    | none => simp [detour, Passes, sub_eq_zero, eq_comm]
    | some k =>
      have hsum : k - g = (x - g) + (k - x) := by abel
      have htri := abs_add_eq_add_abs_iff (x - g) (k - x)
      simp only [detour, Passes, sub_eq_zero, hsum]
      rw [eq_comm, htri]
      simp only [sub_nonneg, sub_nonpos]
      tauto

end TitanRobot.Variation

import Mathlib

/-!
# Runs of a machine driven by inputs

`run` is the state after a sequence of inputs. `Along` says that every step of a run meets
a condition on its input and the state it starts from. Two conditions that agree on the
states an invariant allows, and keep it, hold along the same runs: the first step at which
they could differ never comes. `Paired` is the same for two runs that are compared step by
step and may part after the first step that fails a condition.
-/
namespace TitanRobot.Run

variable {σ ι : Type} {step : ι → σ → σ}

def run (step : ι → σ → σ) (is : List ι) (s : σ) : σ := is.foldl (fun s i => step i s) s

@[simp] theorem run_nil (s : σ) : run step [] s = s := rfl

@[simp] theorem run_cons (i : ι) (is : List ι) (s : σ) :
    run step (i :: is) s = run step is (step i s) := rfl

theorem run_append (is js : List ι) (s : σ) :
    run step (is ++ js) s = run step js (run step is s) := List.foldl_append

def Along (step : ι → σ → σ) (P : σ → ι → Prop) : List ι → σ → Prop
  | [], _ => True
  | i :: is, s => P s i ∧ Along step P is (step i s)

/-- The conditions met along a run, step by step. -/
theorem along_iff {P : σ → ι → Prop} {is : List ι} {s : σ} :
    Along step P is s ↔ ∀ pre i post, is = pre ++ i :: post → P (run step pre s) i := by
  induction is generalizing s with
  | nil => simp [Along]
  | cons i is ih =>
    rw [Along, ih]
    constructor
    · rintro ⟨hi, h⟩ pre j post heq
      cases pre with
      | nil => obtain ⟨rfl, -⟩ := List.cons_eq_cons.mp heq; exact hi
      | cons k pre =>
        obtain ⟨rfl, htail⟩ := List.cons_eq_cons.mp heq
        exact h pre j post htail
    · intro h
      exact ⟨h [] i is rfl, fun pre j post heq => h (i :: pre) j post (congrArg (i :: ·) heq)⟩

/-- An invariant of every state reached is an invariant that every step keeps. -/
theorem reached_iff {I : σ → Prop} {is : List ι} {s : σ} (hs : I s) :
    (∀ pre, pre <+: is → I (run step pre s)) ↔ Along step (fun s i => I (step i s)) is s := by
  rw [along_iff]
  constructor
  · rintro h pre i post rfl
    have hi := h (pre ++ [i]) ⟨post, by simp⟩
    simpa [run_append] using hi
  · rintro h pre ⟨post, rfl⟩
    rcases List.eq_nil_or_concat pre with rfl | ⟨pre, i, rfl⟩
    · exact hs
    · have hi := h pre i post (by simp)
      simpa [run_append] using hi

theorem run_invariant {I : σ → Prop} (hstep : ∀ s i, I s → I (step i s)) {s : σ} (hs : I s)
    (is : List ι) : I (run step is s) := by
  induction is generalizing s with
  | nil => exact hs
  | cons i is ih => exact ih (hstep s i hs)

theorem along_congr {P Q : σ → ι → Prop} {I : σ → Prop}
    (hiff : ∀ s i, I s → (P s i ↔ Q s i)) (hstep : ∀ s i, I s → P s i → I (step i s))
    {is : List ι} {s : σ} (hs : I s) : Along step P is s ↔ Along step Q is s := by
  induction is generalizing s with
  | nil => rfl
  | cons i is ih =>
    constructor
    · rintro ⟨hi, h⟩
      exact ⟨(hiff s i hs).mp hi, (ih (hstep s i hs hi)).mp h⟩
    · rintro ⟨hi, h⟩
      have hp := (hiff s i hs).mpr hi
      exact ⟨hp, (ih (hstep s i hs hp)).mpr h⟩

/-- A condition on the image of a state holds along the run of the image. -/
theorem along_map {τ : Type} {step' : ι → τ → τ} (f : σ → τ)
    (hf : ∀ i s, f (step i s) = step' i (f s)) {Q : τ → ι → Prop} {is : List ι} {s : σ} :
    Along step (fun s i => Q (f s) i) is s ↔ Along step' Q is (f s) := by
  induction is generalizing s with
  | nil => rfl
  | cons i is ih => rw [Along, Along, ih, hf]

/-! ## Two runs side by side -/

/-- The steps of two runs, related as long as those of the first meet a condition. Nothing is said
after the first step that fails it. -/
inductive Paired {α β : Type} (P : α → Prop) (R : α → β → Prop) : List α → List β → Prop
  | nil : Paired P R [] []
  | cons {x : α} {y : β} {xs : List α} {ys : List β} (hp : P x) (hr : R x y)
      (h : Paired P R xs ys) : Paired P R (x :: xs) (y :: ys)
  | part {x : α} {y : β} {xs : List α} {ys : List β} (hp : ¬ P x) (hr : ¬ R x y) :
      Paired P R (x :: xs) (y :: ys)

section
variable {α β : Type} {P : α → Prop} {R : α → β → Prop} {xs xs' : List α} {ys ys' : List β}

theorem Paired.singleton {x : α} {y : β} (h : R x y ↔ P x) : Paired P R [x] [y] := by
  by_cases hp : P x
  · exact .cons hp (h.mpr hp) .nil
  · exact .part hp (mt h.mp hp)

theorem Paired.append (h : Paired P R xs ys) (h' : (∀ x ∈ xs, P x) → Paired P R xs' ys') :
    Paired P R (xs ++ xs') (ys ++ ys') := by
  induction h with
  | nil => exact h' (by simp)
  | cons hp hr _ ih => exact .cons hp hr (ih fun hall => h' (List.forall_mem_cons.mpr ⟨hp, hall⟩))
  | part hp hr => exact .part hp hr

/-- The runs are related throughout if every step of the first meets the condition. -/
theorem Paired.forall₂_iff (h : Paired P R xs ys) : List.Forall₂ R xs ys ↔ ∀ x ∈ xs, P x := by
  induction h with
  | nil => simp
  | cons hp hr _ ih => simp [hp, hr, ih]
  | part hp hr => simp [hp, hr]

end

end TitanRobot.Run

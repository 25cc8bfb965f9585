import Mathlib

/-!
# Programs that call operations

A program has a result, or calls an operation and goes on with the answer. Its traces have any
answers, so that a property of all traces holds however the operations are carried out; a handler
carries them out on a state.
-/
namespace TitanRobot

inductive Program (Op : Type) (Answer : Op → Type) (β : Type) where
  | done (result : β)
  | call (op : Op) (next : Answer op → Program Op Answer β)

namespace Program
variable {Op : Type} {Answer : Op → Type} {β γ : Type}

def bind : Program Op Answer β → (β → Program Op Answer γ) → Program Op Answer γ
  | done b, f => f b
  | call o next, f => call o fun a => (next a).bind f

instance : Monad (Program Op Answer) where
  pure := done
  bind := bind

/-- The call of one operation. -/
def perform (o : Op) : Program Op Answer (Answer o) := call o done

/-- A call and its answer. -/
abbrev Event (Answer : Op → Type) : Type := Σ o, Answer o

/-! ## Traces -/

/-- The calls with their answers lead to the result. -/
def Trace : Program Op Answer β → List (Event Answer) → β → Prop
  | done b, es, r => es = [] ∧ r = b
  | call o next, es, r => ∃ a es', es = ⟨o, a⟩ :: es' ∧ (next a).Trace es' r

@[simp] theorem trace_pure {b r : β} {es : List (Event Answer)} :
    (pure b : Program Op Answer β).Trace es r ↔ es = [] ∧ r = b := Iff.rfl

/-- A call, and what follows the answer. -/
theorem trace_perform_bind {o : Op} {f : Answer o → Program Op Answer γ}
    {es : List (Event Answer)} {r : γ} :
    (perform o >>= f).Trace es r ↔ ∃ a es', es = ⟨o, a⟩ :: es' ∧ (f a).Trace es' r := Iff.rfl

/-- A single call, whose answer is not kept. -/
theorem trace_perform_pure {o : Op} {c : γ} {es : List (Event Answer)} {r : γ} :
    (perform o >>= fun _ => pure c : Program Op Answer γ).Trace es r ↔
      (∃ a, es = [⟨o, a⟩]) ∧ r = c := by
  rw [trace_perform_bind]
  constructor
  · rintro ⟨a, es', rfl, rfl, hr⟩
    exact ⟨⟨a, rfl⟩, hr⟩
  · rintro ⟨⟨a, rfl⟩, rfl⟩
    exact ⟨a, [], rfl, rfl, rfl⟩

/-! ## Handlers -/

theorem bind_eq_ok_iff {E : Type} {x : Except E β} {f : β → Except E γ} {c : γ} :
    x.bind f = .ok c ↔ ∃ b, x = .ok b ∧ f b = .ok c := by
  cases x <;> simp [Except.bind]

section
variable {E S : Type} (handle : ∀ o, S → Except E (Answer o × S))

def run : Program Op Answer β → S → Except E (β × S)
  | done b, s => .ok (b, s)
  | call o next, s => (handle o s).bind fun r => (next r.1).run r.2

variable {handle} {s s' : S} {b : β}

theorem run_bind {p : Program Op Answer β} {f : β → Program Op Answer γ} :
    (p >>= f).run handle s = (p.run handle s).bind fun r => (f r.1).run handle r.2 := by
  induction p generalizing s with
  | done b => rfl
  | call o next ih =>
    change ((handle o s).bind fun r => (next r.1 >>= f).run handle r.2) = _
    simp only [ih]
    change _ = ((handle o s).bind fun r => (next r.1).run handle r.2).bind _
    cases handle o s <;> rfl

/-- From every state with `P`, a run that ends has `Q` of its result and its last state. -/
def Triple (handle : ∀ o, S → Except E (Answer o × S)) (P : S → Prop) (p : Program Op Answer β)
    (Q : β → S → Prop) : Prop :=
  ∀ s b s', P s → p.run handle s = .ok (b, s') → Q b s'

variable {P : S → Prop} {Q : β → S → Prop} {R : γ → S → Prop}

theorem triple_pure (h : ∀ s, P s → Q b s) : Triple handle P (pure b : Program Op Answer β) Q := by
  rintro s _ _ hP ⟨⟩
  exact h s hP

theorem triple_perform {o : Op} {Q : Answer o → S → Prop}
    (h : ∀ s a s', P s → handle o s = .ok (a, s') → Q a s') :
    Triple handle P (perform o) Q := by
  intro s a s' hP hrun
  obtain ⟨r, hstep, hresult⟩ := bind_eq_ok_iff.mp hrun
  exact h s a s' hP (hstep.trans hresult)

theorem triple_bind {p : Program Op Answer β} {f : β → Program Op Answer γ}
    (hp : Triple handle P p Q) (hf : ∀ b, Triple handle (Q b) (f b) R) :
    Triple handle P (p >>= f) R := by
  intro s r s' hP hrun
  rw [run_bind] at hrun
  obtain ⟨q, hfirst, hrest⟩ := bind_eq_ok_iff.mp hrun
  exact hf q.1 q.2 r s' (hp s q.1 q.2 hP hfirst) hrest

end

end Program

end TitanRobot

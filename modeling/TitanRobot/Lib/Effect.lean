import Mathlib

/-!
# Computations that raise and keep their state

`Comp` is the effect of an imperative method: it reads and writes a state, may raise,
and what it wrote before raising stays written. `exec` runs it to a result and a final
state; the `exec_*` equations push `exec` through every construct, so that a method is
executed symbolically by `simp`.
-/
namespace TitanRobot.Effect

variable {ε σ α β : Type}

abbrev Comp (ε σ α : Type) := ExceptT ε (StateM σ) α

def exec (x : Comp ε σ α) (s : σ) : Except ε α × σ := x.run.run s

@[simp] theorem exec_pure (a : α) (s : σ) : exec (pure a : Comp ε σ α) s = (.ok a, s) := rfl

@[simp] theorem exec_throw (e : ε) (s : σ) : exec (throw e : Comp ε σ α) s = (.error e, s) := rfl

@[simp] theorem exec_get (s : σ) : exec (get : Comp ε σ σ) s = (.ok s, s) := rfl

@[simp] theorem exec_modify (f : σ → σ) (s : σ) :
    exec (modify f : Comp ε σ Unit) s = (.ok (), f s) := rfl

theorem exec_bind (x : Comp ε σ α) (k : α → Comp ε σ β) (s : σ) :
    exec (x >>= k) s = match exec x s with
      | (.ok a, t) => exec (k a) t
      | (.error e, t) => (.error e, t) := by
  change (ExceptT.bind x k).run.run s = _
  simp only [exec, ExceptT.run, ExceptT.bind, ExceptT.mk, StateT.run, bind, StateT.bind]
  rcases x s with ⟨r, t⟩
  cases r <;> rfl

theorem exec_tryCatch (x : Comp ε σ α) (h : ε → Comp ε σ α) (s : σ) :
    exec (tryCatch x h) s = match exec x s with
      | (.ok a, t) => (.ok a, t)
      | (.error e, t) => exec (h e) t := by
  change (ExceptT.tryCatch x h).run.run s = _
  simp only [exec, ExceptT.run, ExceptT.tryCatch, ExceptT.mk, StateT.run, bind, StateT.bind]
  rcases x s with ⟨r, t⟩
  cases r <;> rfl

@[simp] theorem exec_ite (c : Prop) [Decidable c] (x y : Comp ε σ α) (s : σ) :
    exec (if c then x else y) s = if c then exec x s else exec y s := by
  split <;> rfl

/-- Raise the exception of a failed library call, or return its result. -/
def lift : Except ε α → Comp ε σ α
  | .ok a => pure a
  | .error e => throw e

@[simp] theorem exec_lift (r : Except ε α) (s : σ) : exec (lift r : Comp ε σ α) s = (r, s) := by
  cases r <;> rfl

end TitanRobot.Effect

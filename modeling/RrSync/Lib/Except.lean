import Mathlib.Logic.Basic

/-!
# `RrSync.Lib.Except`: when an `Except` computation succeeds

One equivalence for each way a `do` block in `Except` is put together. As rewrite rules they
turn `m = .ok a` into the list of everything `m` has checked.
-/

set_option autoImplicit false

namespace RrSync.Lib

variable {ε α β : Type}

/-- A sequence returns a value exactly when both of its parts do. -/
theorem bind_eq_ok {x : Except ε α} {f : α → Except ε β} {b : β} :
    (x >>= f) = .ok b ↔ ∃ a, x = .ok a ∧ f a = .ok b := by
  cases x <;> simp [bind, Except.bind]

/-- `pure` returns its own value. -/
theorem pure_eq_ok {a b : α} : (pure a : Except ε α) = .ok b ↔ a = b := by
  simp [pure, Except.pure]

/-- `throw` returns no value. -/
theorem throw_eq_ok {e : ε} {b : α} : (throw e : Except ε α) = .ok b ↔ False := by
  simp [throw, throwThe, MonadExceptOf.throw]

/-- A check that fails returns no value. -/
theorem ite_throw_eq_ok {c : Prop} [Decidable c] {e : ε} {x : Except ε α} {b : α} :
    (if c then throw e else x) = .ok b ↔ ¬ c ∧ x = .ok b := by
  by_cases hc : c <;> simp [hc, throw_eq_ok]

/-- The form a check takes when more statements follow it. -/
theorem ite_throw_bind_eq_ok {c : Prop} [Decidable c] {e : ε} {f : β → Except ε α}
    {x : Except ε α} {b : α} :
    (if c then throw e >>= f else x) = .ok b ↔ ¬ c ∧ x = .ok b := by
  by_cases hc : c <;> simp [hc, throw, throwThe, MonadExceptOf.throw, bind, Except.bind]

/-- The same for a value that needs the proof of the check. -/
theorem dite_pure_eq_ok {c : Prop} [Decidable c] {e : ε} {f : c → α} {b : α} :
    (if h : c then (pure (f h) : Except ε α) else throw e) = .ok b ↔ ∃ h : c, f h = b := by
  by_cases hc : c <;> simp [hc, throw_eq_ok, pure_eq_ok]

end RrSync.Lib

import Mathlib.Algebra.Group.Defs
import RrSync.Lib.Prog

/-!
# `RrSync.Lib.Cost`: what a run costs

Each call costs something, which may depend on its reply, and a run costs the sum. `spent` is
the cost of a run under a handler. `Pays` is a property of the program, for all replies: where
it returns a value, the value and the cost satisfy a relation. Its rules follow the program,
and `Pays.run` carries the relation to the runs.
-/

set_option autoImplicit false

namespace RrSync.Lib.Prog

variable {S : Sig} {ε α β W C : Type} [AddMonoid C]

/-- The cost of a run. -/
def spent (cost : (c : S.Call) → S.Reply c → C) (h : Handler S W) : Prog S ε α → W → C
  | .done _, _ => 0
  | .call c k, w => cost c (h c w).1 + spent cost h (k (h c w).1) (h c w).2

/-- Whatever the replies are, a value that is returned and the cost satisfy `M`. -/
def Pays (cost : (c : S.Call) → S.Reply c → C) (M : α → C → Prop) : Prog S ε α → Prop
  | .done (.ok a) => M a 0
  | .done (.error _) => True
  | .call c k => ∀ r, Pays cost (fun a x => M a (cost c r + x)) (k r)

variable {cost : (c : S.Call) → S.Reply c → C} {M : α → C → Prop} {L : β → C → Prop}

/-- A weaker account of the same calls. -/
theorem Pays.imp {M' : α → C → Prop} {m : Prog S ε α} (hm : Pays cost M m)
    (h : ∀ a x, M a x → M' a x) : Pays cost M' m := by
  induction m generalizing M M' with
  | done r =>
    cases r with
    | ok a => exact h a 0 hm
    | error e => trivial
  | call c k ih => exact fun r => ih r (hm r) fun a x => h a _

/-- `pure` costs nothing. -/
theorem pays_pure {a : α} (h : M a 0) : Pays cost M (pure a : Prog S ε α) := h

/-- A program that fails owes no account. -/
theorem pays_throw (e : ε) : Pays cost M (throw e : Prog S ε α) := trivial

/-- A lifted result costs nothing. -/
theorem pays_lift {r : Except ε α} (h : ∀ a, r = .ok a → M a 0) :
    Pays cost M (liftM r : Prog S ε α) := by
  cases r with
  | ok a => exact h a rfl
  | error e => trivial

/-- The cost of `m >>= f` is the cost of `m` and that of `f` after it. -/
theorem pays_bind {m : Prog S ε β} {f : β → Prog S ε α} (hm : Pays cost L m)
    (hf : ∀ b x, L b x → Pays cost (fun a y => M a (x + y)) (f b)) : Pays cost M (m >>= f) := by
  show Pays cost M (m.bind f)
  induction m generalizing L M with
  | done r =>
    cases r with
    | ok b =>
      have hfb := hf b 0 hm
      simp only [zero_add] at hfb
      exact hfb
    | error e => trivial
  | call c k ih =>
    intro r
    refine ih r (hm r) fun b x hx => ?_
    simpa only [add_assoc] using hf b _ hx

/-- The form a check takes when more statements follow it. -/
theorem pays_check_bind {c : Prop} [Decidable c] {e : ε} {f : β → Prog S ε α} {m : Prog S ε α}
    (hm : ¬ c → Pays cost M m) : Pays cost M (if c then throw e >>= f else m) := by
  by_cases hc : c
  · rw [if_pos hc]
    trivial
  · rw [if_neg hc]
    exact hm hc

/-- Calls that cost nothing. -/
theorem pays_free {m : Prog S ε α} (hm : Issues (fun c => ∀ r, cost c r = 0) m)
    (h : ∀ a, M a 0) : Pays cost M m := by
  induction m generalizing M with
  | done r =>
    cases r with
    | ok a => exact h a
    | error e => trivial
  | call c k ih =>
    intro r
    refine ih r (hm.2 r) fun a => ?_
    rw [hm.1 r, add_zero]
    exact h a

/-- A cleanup after a failure costs nothing where there is none. -/
theorem pays_onError {m : Prog S ε α} {cleanup : Prog S ε Unit} (hm : Pays cost M m) :
    Pays cost M (m.onError cleanup) := by
  have hfail (e : ε) : ∀ M' : α → C → Prop,
      Pays cost M' (cleanup.bind fun _ => (.done (.error e) : Prog S ε α)) := by
    induction cleanup with
    | done r => cases r <;> exact fun _ => trivial
    | call c k ih => exact fun M' r => ih r _
  show Pays cost M (m.attempt.bind _)
  induction m generalizing M with
  | done r =>
    cases r with
    | ok a => exact hm
    | error e => exact hfail e M
  | call c k ih => exact fun r => ih r (hm r)

/-- The cost of a loop: `J` collects the costs of its turns. -/
theorem pays_foldlM {γ : Type} {xs : List γ} {f : β → γ → Prog S ε β} {b : β} {I : β → Prop}
    {R : γ → C → Prop} {J : List γ → C → Prop} (hb : I b)
    (hf : ∀ x ∈ xs, ∀ b, I b → Pays cost (fun b' c => I b' ∧ R x c) (f b x)) (nil : J [] 0)
    (cons : ∀ x xs c d, R x c → J xs d → J (x :: xs) (c + d)) :
    Pays cost (fun b' c => I b' ∧ J xs c) (xs.foldlM f b) := by
  induction xs generalizing b with
  | nil => exact ⟨hb, nil⟩
  | cons x xs ih =>
    rw [List.foldlM_cons]
    refine pays_bind (hf x (by simp) b hb) fun b' c hc => ?_
    refine (ih hc.1 fun y hy => hf y (by simp [hy])).imp fun b'' d hd => ?_
    exact ⟨hd.1, cons x xs c d hc.2 hd.2⟩

/-- The cost of a loop is the sum over its turns, in order. -/
theorem pays_forM {γ : Type} {xs : List γ} {f : γ → Prog S ε PUnit} {R : γ → C → Prop}
    {J : List γ → C → Prop} (hf : ∀ x ∈ xs, Pays cost (fun _ c => R x c) (f x)) (nil : J [] 0)
    (cons : ∀ x xs c d, R x c → J xs d → J (x :: xs) (c + d)) :
    Pays cost (fun _ c => J xs c) (xs.forM f) := by
  induction xs with
  | nil => exact nil
  | cons x xs ih =>
    refine pays_bind (hf x (by simp)) fun _ c hc => ?_
    refine (ih fun y hy => hf y (by simp [hy])).imp fun _ d hd => ?_
    exact cons x xs c d hc hd

/-- Under any handler, a run that returns a value has a cost as the program says. -/
theorem Pays.run {m : Prog S ε α} (hm : Pays cost M m) {h : Handler S W} {w w' : W} {a : α}
    (hrun : m.run h w = (.ok a, w')) : M a (m.spent cost h w) := by
  induction m generalizing M w with
  | done r =>
    cases hrun
    exact hm
  | call c k ih => exact ih _ (hm _) hrun

end RrSync.Lib.Prog

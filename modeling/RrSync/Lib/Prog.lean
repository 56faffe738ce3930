import Mathlib.Logic.Function.Basic

/-!
# `RrSync.Lib.Prog`: programs over a signature of calls

A program is a tree of calls. Each call waits for a reply, and the program goes on with
the reply until it is done with a value or an error. Nothing in a program says what a call
does. A `Handler` over a state type `W` does: it answers a call and moves the state.

One program can therefore be read in several ways, and this file states the rules for
each:

* `run`: the result and the last state under a handler;
* `Moment`: the states the run goes through, one after each call;
* `Spec`: a triple with an invariant. `Spec h I m w Q` says that every state after a call
  of `m` from `w` satisfies `I`, and that the result and the last state satisfy `Q`;
* `Succeeds`: a triple that also says that the program returns a value;
* `Issues`: a property of every call that can occur, for all replies. `Issues.spec` turns
  it into a `Spec` when the calls keep the invariant. `Returns` is the same for the values
  that can be returned;
* `atVol`: a program on one of several volumes.
-/

set_option autoImplicit false

namespace RrSync.Lib

/-- The calls a program may issue, and the type of the reply to each call. -/
structure Sig where
  Call : Type
  Reply : Call → Type

/-- A program over the signature `S` with errors `ε` and results `α`. -/
inductive Prog (S : Sig) (ε α : Type) : Type where
  | done (r : Except ε α)
  | call (c : S.Call) (k : S.Reply c → Prog S ε α)

namespace Prog

variable {S T : Sig} {ε ε' α β γ W σ V : Type}

/-- Go on with `f` after a value, stop at an error. -/
def bind (m : Prog S ε α) (f : α → Prog S ε β) : Prog S ε β :=
  match m with
  | .done (.ok a) => f a
  | .done (.error e) => .done (.error e)
  | .call c k => .call c fun r => (k r).bind f

instance : Monad (Prog S ε) where
  pure a := .done (.ok a)
  bind := bind

instance : MonadLift (Except ε) (Prog S ε) where
  monadLift r := .done r

instance : MonadExceptOf ε (Prog S ε) where
  throw e := .done (.error e)
  tryCatch m handle :=
    let rec go : Prog S ε _ → Prog S ε _
      | .done (.ok a) => .done (.ok a)
      | .done (.error e) => handle e
      | .call c k => .call c fun r => go (k r)
    go m

/-- Issue one call and return its reply. -/
def perform (c : S.Call) : Prog S ε (S.Reply c) := .call c fun r => .done (.ok r)

/-- The result of `m` as a value. The program `m.attempt` has no error of its own. -/
def attempt (m : Prog S ε α) : Prog S ε' (Except ε α) :=
  match m with
  | .done r => .done (.ok r)
  | .call c k => .call c fun r => (k r).attempt

/-- Run `cleanup` after `m`, whatever `m` returned. -/
def ensuring (m : Prog S ε α) (cleanup : Prog S ε Unit) : Prog S ε α :=
  m.attempt.bind fun r => cleanup.bind fun _ => .done r

/-- Run `cleanup` after `m` only when `m` failed. -/
def onError (m : Prog S ε α) (cleanup : Prog S ε Unit) : Prog S ε α :=
  m.attempt.bind fun
    | .ok a => .done (.ok a)
    | .error e => cleanup.bind fun _ => .done (.error e)

/-- A result that was computed without a call is the program that is done with it. -/
theorem lift_def (r : Except ε α) : (liftM r : Prog S ε α) = .done r := rfl

/-- A program that is done with a value goes on with it. -/
@[simp] theorem bind_done_ok (a : α) (f : α → Prog S ε β) :
    (Prog.done (.ok a) : Prog S ε α).bind f = f a := rfl

/-- A program that is done with an error does not go on. -/
@[simp] theorem bind_done_error (e : ε) (f : α → Prog S ε β) :
    (Prog.done (.error e) : Prog S ε α).bind f = .done (.error e) := rfl

/-- Sequencing goes below the first call: the call stays where it is. -/
@[simp] theorem bind_call (c : S.Call) (k : S.Reply c → Prog S ε α) (f : α → Prog S ε β) :
    (Prog.call c k).bind f = .call c fun r => (k r).bind f := rfl

instance : LawfulMonad (Prog S ε) := LawfulMonad.mk' _
  (fun m => by
    show m.bind _ = m
    induction m with
    | done r => cases r <;> rfl
    | call c k ih => exact congrArg (Prog.call c) (funext ih))
  (fun _ _ => rfl)
  (fun m f g => by
    show (m.bind f).bind g = m.bind fun a => (f a).bind g
    induction m with
    | done r => cases r <;> rfl
    | call c k ih => exact congrArg (Prog.call c) (funext ih))

/-! ### Runs -/

/-- What a call does to a state of type `W`: its reply and the next state. -/
abbrev Handler (S : Sig) (W : Type) := (c : S.Call) → W → S.Reply c × W

/-- The result of a program and the last state. -/
def run (h : Handler S W) : Prog S ε α → W → Except ε α × W
  | .done r, w => (r, w)
  | .call c k, w => run h (k (h c w).1) (h c w).2

/-- The result of a program that has no error of its own. -/
def runOk (h : Handler S W) (m : Prog S Empty α) (w : W) : α × W :=
  match m.run h w with
  | (.ok a, w') => (a, w')

/-- A state after one of the calls of the run of `m` from `w`. -/
def Visits (h : Handler S W) : Prog S ε α → W → W → Prop
  | .done _, _, _ => False
  | .call c k, w, w' => w' = (h c w).2 ∨ Visits h (k (h c w).1) (h c w).2 w'

/-- A state the run of `m` from `w` goes through, the first one included. -/
def Moment (h : Handler S W) (m : Prog S ε α) (w w' : W) : Prop :=
  w' = w ∨ m.Visits h w w'

/-- The calls of the run of `m` from `w`, in order. -/
def callsOf (h : Handler S W) : Prog S ε α → W → List S.Call
  | .done _, _ => []
  | .call c k, w => c :: callsOf h (k (h c w).1) (h c w).2

/-- A program that is done returns its result and leaves the state. -/
@[simp] theorem run_done (h : Handler S W) (r : Except ε α) (w : W) :
    (Prog.done r : Prog S ε α).run h w = (r, w) := rfl

/-- A run of `pure` returns the value and leaves the state. -/
@[simp] theorem run_pure (h : Handler S W) (a : α) (w : W) :
    (pure a : Prog S ε α).run h w = (.ok a, w) := rfl

/-- A run of `throw` returns the error and leaves the state. -/
@[simp] theorem run_throw (h : Handler S W) (e : ε) (w : W) :
    (throw e : Prog S ε α).run h w = (.error e, w) := rfl

/-- A run of a lifted result returns it and leaves the state. -/
@[simp] theorem run_lift (h : Handler S W) (r : Except ε α) (w : W) :
    (liftM r : Prog S ε α).run h w = (r, w) := rfl

/-- A run goes through its first call: the reply decides what is run next. -/
@[simp] theorem run_call (h : Handler S W) (c : S.Call) (k : S.Reply c → Prog S ε α) (w : W) :
    (Prog.call c k).run h w = (k (h c w).1).run h (h c w).2 := rfl

/-- The run of one call is what the handler does with it. -/
@[simp] theorem run_perform (h : Handler S W) (c : S.Call) (w : W) :
    (perform c : Prog S ε _).run h w = (.ok (h c w).1, (h c w).2) := rfl

/-- A run whose result is known. -/
theorem run_eq_of_fst {h : Handler S W} {m : Prog S ε α} {w : W} {r : Except ε α}
    (hm : (m.run h w).1 = r) : m.run h w = (r, (m.run h w).2) := by
  rw [← hm]

/-- A run of `m >>= f` is a run of `m`, then a run of `f` unless `m` failed. -/
theorem run_bind (h : Handler S W) (m : Prog S ε α) (f : α → Prog S ε β) (w : W) :
    (m >>= f).run h w = match m.run h w with
      | (.ok a, w') => (f a).run h w'
      | (.error e, w') => (.error e, w') := by
  show (m.bind f).run h w = _
  induction m generalizing w with
  | done r => cases r <;> rfl
  | call c k ih => exact ih _ _

/-- The run of `m >>= f` when the run of `m` is known and returned a value. -/
theorem run_bind_ok {h : Handler S W} {m : Prog S ε α} {f : α → Prog S ε β} {w w' : W} {a : α}
    (hm : m.run h w = (.ok a, w')) : (m >>= f).run h w = (f a).run h w' := by
  rw [run_bind, hm]

/-- The run of `m >>= f` when the run of `m` is known and failed. -/
theorem run_bind_error {h : Handler S W} {m : Prog S ε α} {f : α → Prog S ε β} {w w' : W}
    {e : ε} (hm : m.run h w = (.error e, w')) : (m >>= f).run h w = (.error e, w') := by
  rw [run_bind, hm]

/-- A run of `m >>= f` that succeeds is a run of `m` and one of `f` that succeed. -/
theorem run_bind_eq_ok {h : Handler S W} {m : Prog S ε α} {f : α → Prog S ε β} {w w'' : W}
    {b : β} : (m >>= f).run h w = (.ok b, w'') ↔
      ∃ a w', m.run h w = (.ok a, w') ∧ (f a).run h w' = (.ok b, w'') := by
  rw [run_bind]
  rcases m.run h w with ⟨_ | a, w'⟩ <;> simp [and_assoc]

/-- The calls of `m >>= f` are those of `m`, and those of `f` after it when `m` returns. -/
theorem callsOf_bind_ok {h : Handler S W} {m : Prog S ε α} {f : α → Prog S ε β} {w w' : W} {a : α}
    (hm : m.run h w = (.ok a, w')) :
    (m >>= f).callsOf h w = m.callsOf h w ++ (f a).callsOf h w' := by
  change (m.bind f).callsOf h w = _
  induction m generalizing w with
  | done r =>
    cases hm
    rfl
  | call c k ih => exact congrArg (c :: ·) (ih _ hm)

/-- A program that starts with a check returns a value exactly when the check passes and the rest
returns it. This is the form of `if c then throw e` in the middle of a `do` block. -/
theorem run_check_bind_eq_ok {h : Handler S W} {c : Prop} [Decidable c] {e : ε}
    {f : β → Prog S ε α} {m : Prog S ε α} {w w' : W} {a : α} :
    (if c then throw e >>= f else m).run h w = (.ok a, w') ↔
      ¬ c ∧ m.run h w = (.ok a, w') := by
  by_cases hc : c <;> simp [hc, run_bind]

/-- The same for a check whose other branch is the rest of the program. -/
theorem run_check_eq_ok {h : Handler S W} {c : Prop} [Decidable c] {e : ε}
    {m : Prog S ε α} {w w' : W} {a : α} :
    (if c then throw e else m).run h w = (.ok a, w') ↔ ¬ c ∧ m.run h w = (.ok a, w') := by
  by_cases hc : c <;> simp [hc]

/-- A lifted result returns a value exactly when it is that value, and the state is left. -/
theorem run_lift_eq_ok {h : Handler S W} {r : Except ε α} {w w' : W} {a : α} :
    (liftM r : Prog S ε α).run h w = (.ok a, w') ↔ r = .ok a ∧ w = w' := by
  rw [run_lift, Prod.mk.injEq]

/-- `pure` returns its own value and leaves the state. -/
theorem run_pure_eq_ok {h : Handler S W} {b : α} {w w' : W} {a : α} :
    (pure b : Prog S ε α).run h w = (.ok a, w') ↔ b = a ∧ w = w' := by
  simp

/-- One call returns the reply of the handler, in the state that the handler leaves. -/
theorem run_perform_eq_ok {h : Handler S W} {c : S.Call} {w w' : W} {r : S.Reply c} :
    (perform c : Prog S ε _).run h w = (.ok r, w') ↔ h c w = (r, w') := by
  simp [Prod.ext_iff]

/-- `attempt` never fails: it returns the result of the program, whichever it is. -/
theorem run_attempt (h : Handler S W) (m : Prog S ε α) (w : W) :
    (m.attempt : Prog S ε' _).run h w = (.ok (m.run h w).1, (m.run h w).2) := by
  induction m generalizing w with
  | done r => rfl
  | call c k ih => exact ih _ _

/-- The clean-up of `ensuring` runs after the program, whatever its result. Its own error replaces
that result. -/
theorem run_ensuring (h : Handler S W) (m : Prog S ε α) (cleanup : Prog S ε Unit) (w : W) :
    (m.ensuring cleanup).run h w = match cleanup.run h (m.run h w).2 with
      | (.ok _, w') => ((m.run h w).1, w')
      | (.error e, w') => (.error e, w') := by
  show ((m.attempt : Prog S ε _) >>= fun r => cleanup >>= fun _ => .done r).run h w = _
  rw [run_bind_ok (run_attempt h m w), run_bind]
  rcases cleanup.run h (m.run h w).2 with ⟨e | u, w'⟩ <;> rfl

/-- `attempt` issues the calls of the program and no others. -/
theorem callsOf_attempt (h : Handler S W) (m : Prog S ε α) (w : W) :
    (m.attempt : Prog S ε' _).callsOf h w = m.callsOf h w := by
  induction m generalizing w with
  | done r => rfl
  | call c k ih => exact congrArg (c :: ·) (ih _ _)

/-- The calls of `m.ensuring cleanup` are those of `m`, and those of `cleanup` after it. -/
theorem callsOf_ensuring (h : Handler S W) (m : Prog S ε α) (cleanup : Prog S ε Unit) (w : W) :
    ∃ cs, (m.ensuring cleanup).callsOf h w = m.callsOf h w ++ cs := by
  refine ⟨(cleanup >>= fun _ => .done (m.run h w).1).callsOf h (m.run h w).2, ?_⟩
  show ((m.attempt : Prog S ε _) >>= fun r => cleanup >>= fun _ => .done r).callsOf h w = _
  rw [callsOf_bind_ok (run_attempt h m w), callsOf_attempt]

/-- The clean-up of `onError` does not run after a program that returns a value. -/
theorem run_onError_ok {h : Handler S W} {m : Prog S ε α} {cleanup : Prog S ε Unit} {w w' : W}
    {a : α} (hm : m.run h w = (.ok a, w')) : (m.onError cleanup).run h w = (.ok a, w') := by
  show ((m.attempt : Prog S ε _) >>= _).run h w = _
  rw [run_bind_ok (run_attempt h m w), hm]
  rfl

/-- With a clean-up on errors, a program returns a value exactly when it does without. -/
theorem run_onError_eq_ok {h : Handler S W} {m : Prog S ε α} {cleanup : Prog S ε Unit}
    {w w' : W} {a : α} :
    (m.onError cleanup).run h w = (.ok a, w') ↔ m.run h w = (.ok a, w') := by
  refine ⟨fun hm => ?_, run_onError_ok⟩
  change ((m.attempt : Prog S ε _) >>= _).run h w = _ at hm
  rw [run_bind_ok (run_attempt h m w)] at hm
  rcases hr : m.run h w with ⟨e | b, w''⟩ <;> rw [hr] at hm
  · obtain ⟨_, _, -, h0⟩ := run_bind_eq_ok.mp hm
    cases h0
  · exact hm

/-- With a clean-up, a program returns a value exactly when both it and the clean-up succeed. -/
theorem run_ensuring_eq_ok {h : Handler S W} {m : Prog S ε α} {cleanup : Prog S ε Unit}
    {w w'' : W} {a : α} : (m.ensuring cleanup).run h w = (.ok a, w'') ↔
      ∃ w', m.run h w = (.ok a, w') ∧ cleanup.run h w' = (.ok (), w'') := by
  rw [run_ensuring]
  rcases m.run h w with ⟨r, w'⟩
  rcases hc : cleanup.run h w' with ⟨e | u, w₁⟩ <;> cases r <;> simp [hc, and_assoc]

/-- A program without errors returns what its run says. -/
theorem runOk_eq {h : Handler S W} {m : Prog S Empty α} {w w' : W} {a : α}
    (hm : m.run h w = (.ok a, w')) : m.runOk h w = (a, w') := by
  unfold runOk
  rw [hm]

/-- The run of a program without errors never ends in an error. -/
theorem run_eq_runOk (h : Handler S W) (m : Prog S Empty α) (w : W) :
    m.run h w = (.ok (m.runOk h w).1, (m.runOk h w).2) := by
  rcases hm : m.run h w with ⟨r, w'⟩
  cases r with
  | ok a => rw [runOk_eq hm]
  | error e => exact e.elim

/-- A program that was turned into one without errors returns its own result. -/
theorem runOk_attempt (h : Handler S W) (m : Prog S ε α) (w : W) :
    (m.attempt : Prog S Empty _).runOk h w = m.run h w :=
  runOk_eq (run_attempt h m w)

/-- Programs without errors run one after the other. -/
theorem runOk_bind (h : Handler S W) (m : Prog S Empty α) (f : α → Prog S Empty β) (w : W) :
    (m >>= f).runOk h w = (f (m.runOk h w).1).runOk h (m.runOk h w).2 := by
  refine runOk_eq ?_
  rw [run_bind_ok (run_eq_runOk h m w)]
  exact run_eq_runOk h _ _

/-! ### Triples with an invariant -/

/-- Every state after a call of `m` from `w` satisfies `I`, and the result and the last
state satisfy `Q`. -/
def Spec (h : Handler S W) (I : W → Prop) : Prog S ε α → W → (Except ε α → W → Prop) → Prop
  | .done r, w, Q => Q r w
  | .call c k, w, Q => I (h c w).2 ∧ Spec h I (k (h c w).1) (h c w).2 Q

variable {h : Handler S W} {I J : W → Prop} {w : W}

/-- The triple of a program that is done: nothing is called, so only `Q` is left. -/
@[simp] theorem spec_done {r : Except ε α} {Q : Except ε α → W → Prop} :
    Spec h I (.done r) w Q ↔ Q r w := Iff.rfl

/-- The triple of `pure`. -/
@[simp] theorem spec_pure {a : α} {Q : Except ε α → W → Prop} :
    Spec h I (pure a) w Q ↔ Q (.ok a) w := Iff.rfl

/-- The triple of `throw`. -/
@[simp] theorem spec_throw {e : ε} {Q : Except ε α → W → Prop} :
    Spec h I (throw e) w Q ↔ Q (.error e) w := Iff.rfl

/-- The triple of a lifted result. -/
@[simp] theorem spec_lift {r : Except ε α} {Q : Except ε α → W → Prop} :
    Spec h I (liftM r) w Q ↔ Q r w := Iff.rfl

/-- The triple of one call: the state after it satisfies both `I` and `Q`. -/
@[simp] theorem spec_perform {c : S.Call} {Q : Except ε (S.Reply c) → W → Prop} :
    Spec h I (perform c) w Q ↔ I (h c w).2 ∧ Q (.ok (h c w).1) (h c w).2 := Iff.rfl

/-- What a triple asks of `m >>= f` after `m`. -/
def andThen (h : Handler S W) (I : W → Prop) (f : α → Prog S ε β) (Q : Except ε β → W → Prop) :
    Except ε α → W → Prop
  | .ok a, w => Spec h I (f a) w Q
  | .error e, w => Q (.error e) w

/-- After a value, the rest of the program must satisfy its own triple. -/
@[simp] theorem andThen_ok {f : α → Prog S ε β} {Q : Except ε β → W → Prop} {a : α} :
    andThen h I f Q (.ok a) w = Spec h I (f a) w Q := rfl

/-- After an error nothing runs, so `Q` must hold at once. -/
@[simp] theorem andThen_error {f : α → Prog S ε β} {Q : Except ε β → W → Prop} {e : ε} :
    andThen h I f Q (.error e) w = Q (.error e) w := rfl

/-- The rule of sequencing: the second program is verified from every result of the first. -/
theorem spec_bind {m : Prog S ε α} {f : α → Prog S ε β} {Q : Except ε β → W → Prop} :
    Spec h I (m >>= f) w Q ↔ Spec h I m w (andThen h I f Q) := by
  show Spec h I (m.bind f) w Q ↔ _
  induction m generalizing w with
  | done r => cases r <;> rfl
  | call c k ih => exact and_congr_right fun _ => ih _

/-- The rule for a value that is there already, or an error in its place. -/
theorem spec_lift_bind {x : Except ε α} {f : α → Prog S ε β} {Q : Except ε β → W → Prop}
    (hfail : ∀ e, x = .error e → Q (.error e) w) (hf : ∀ a, x = .ok a → Spec h I (f a) w Q) :
    Spec h I (liftM x >>= f) w Q := by
  rw [spec_bind, spec_lift]
  cases x with
  | ok a => exact hf a rfl
  | error e => exact hfail e rfl

/-- The rule for a check. -/
theorem spec_check {c : Prop} [Decidable c] {e : ε} {k : β → Prog S ε α} {m : Prog S ε α}
    {Q : Except ε α → W → Prop} (hfail : Q (.error e) w) (hm : ¬ c → Spec h I m w Q) :
    Spec h I (if c then throw e >>= k else m) w Q := by
  split
  · exact hfail
  · next hc => exact hm hc

/-- The triple of `attempt` is that of the program, with its result as a value. -/
theorem spec_attempt {m : Prog S ε α} {Q : Except ε' (Except ε α) → W → Prop} :
    Spec h I m.attempt w Q ↔ Spec h I m w (fun r w' => Q (.ok r) w') := by
  induction m generalizing w with
  | done r => rfl
  | call c k ih => exact and_congr_right fun _ => ih _

/-- A triple may be weakened in its invariant and in what it says at the end. -/
theorem Spec.mono {m : Prog S ε α} {Q Q' : Except ε α → W → Prop} (hm : Spec h I m w Q)
    (hI : ∀ w, I w → J w) (hQ : ∀ r w, Q r w → Q' r w) : Spec h J m w Q' := by
  induction m generalizing w with
  | done r => exact hQ _ _ hm
  | call c k ih => exact ⟨hI _ hm.1, ih _ hm.2⟩

/-- The rule of consequence. -/
theorem Spec.imp {m : Prog S ε α} {Q Q' : Except ε α → W → Prop} (hm : Spec h I m w Q)
    (hQ : ∀ r w, Q r w → Q' r w) : Spec h I m w Q' :=
  hm.mono (fun _ h => h) hQ

/-- Two triples of one program hold together. -/
theorem Spec.and {m : Prog S ε α} {Q Q' : Except ε α → W → Prop} (hm : Spec h I m w Q)
    (hm' : Spec h J m w Q') :
    Spec h (fun w => I w ∧ J w) m w (fun r w => Q r w ∧ Q' r w) := by
  induction m generalizing w with
  | done r => exact ⟨hm, hm'⟩
  | call c k ih => exact ⟨⟨hm.1, hm'.1⟩, ih _ hm.2 hm'.2⟩

/-- A triple is a statement about the states the run visits and about how it ends. -/
theorem spec_iff {m : Prog S ε α} {Q : Except ε α → W → Prop} :
    Spec h I m w Q ↔ (∀ w', m.Visits h w w' → I w') ∧ Q (m.run h w).1 (m.run h w).2 := by
  induction m generalizing w with
  | done r => simp [Visits]
  | call c k ih =>
    show I _ ∧ _ ↔ _
    rw [ih, and_congr_left_iff.mpr (fun _ => Iff.rfl), ← and_assoc]
    refine and_congr_left fun _ => ⟨?_, fun hv => ⟨hv _ (Or.inl rfl), fun w' h' => hv _ (Or.inr h')⟩⟩
    rintro ⟨h1, h2⟩ w' (rfl | h')
    · exact h1
    · exact h2 w' h'

/-- What a triple says about the result and the last state of the run. -/
theorem Spec.run {m : Prog S ε α} {Q : Except ε α → W → Prop} (hm : Spec h I m w Q) :
    Q (m.run h w).1 (m.run h w).2 := (spec_iff.mp hm).2

/-- A triple whose invariant holds at the start holds at every moment. -/
theorem Spec.moment {m : Prog S ε α} {Q : Except ε α → W → Prop} (hm : Spec h I m w Q)
    (hw : I w) {w' : W} (hw' : m.Moment h w w') : I w' := by
  rcases hw' with rfl | hv
  · exact hw
  · exact (spec_iff.mp hm).1 _ hv

/-- The last state of a run is one of its moments. -/
theorem moment_run (h : Handler S W) (m : Prog S ε α) (w : W) : m.Moment h w (m.run h w).2 := by
  induction m generalizing w with
  | done r => exact Or.inl rfl
  | call c k ih =>
    rcases ih (h c w).1 (h c w).2 with h1 | h1
    · exact Or.inr (Or.inl h1)
    · exact Or.inr (Or.inr h1)

/-- A triple from what is known of a run: its moments satisfy `I`, its end satisfies `Q`. -/
theorem spec_of_run {m : Prog S ε α} {Q : Except ε α → W → Prop}
    (hv : ∀ w', m.Moment h w w' → I w') (hQ : Q (m.run h w).1 (m.run h w).2) :
    Spec h I m w Q :=
  spec_iff.mpr ⟨fun w' h' => hv w' (Or.inr h'), hQ⟩

/-- The triple of `ensuring`: the clean-up is verified from every result, and keeps it unless it
fails itself. -/
theorem spec_ensuring {m : Prog S ε α} {cleanup : Prog S ε Unit} {Q : Except ε α → W → Prop} :
    Spec h I (m.ensuring cleanup) w Q ↔
      Spec h I m w fun r w' => Spec h I cleanup w' fun r' w'' => match r' with
        | .ok _ => Q r w''
        | .error e => Q (.error e) w'' := by
  show Spec h I ((m.attempt : Prog S ε _) >>= _) w Q ↔ _
  rw [spec_bind, spec_attempt]
  -- what happens after the program does not depend on which result it had
  have key : ∀ (r : Except ε α) (w' : W),
      andThen h I (fun r => cleanup.bind fun _ => .done r) Q (Except.ok r) w' ↔
        Spec h I cleanup w' fun r' w'' => match r' with
          | .ok _ => Q r w''
          | .error e => Q (.error e) w'' := by
    intro r w'
    show Spec h I (cleanup >>= fun _ => .done r) w' Q ↔ _
    rw [spec_bind]
    constructor <;> intro hs <;> refine hs.imp ?_ <;> rintro (e | u) w'' hq <;> exact hq
  exact ⟨fun hs => hs.imp fun r w' => (key r w').mp, fun hs => hs.imp fun r w' => (key r w').mpr⟩

/-- The triple of `onError`: the clean-up is verified only from the errors. -/
theorem spec_onError {m : Prog S ε α} {cleanup : Prog S ε Unit} {Q : Except ε α → W → Prop}
    (hm : Spec h I m w fun r w' => match r with
      | .ok a => Q (.ok a) w'
      | .error e => Spec h I cleanup w' fun r' w'' => match r' with
        | .ok _ => Q (.error e) w''
        | .error e' => Q (.error e') w'') :
    Spec h I (m.onError cleanup) w Q := by
  show Spec h I ((m.attempt : Prog S ε _) >>= _) w Q
  rw [spec_bind, spec_attempt]
  refine hm.imp fun r w' => ?_
  cases r with
  | ok a => exact id
  | error e =>
    intro hs
    show Spec h I (cleanup >>= fun _ => .done (.error e)) w' Q
    rw [spec_bind]
    refine hs.imp ?_
    rintro (e' | u) w'' hq <;> exact hq

/-- The loop rule. `J done w` is the loop invariant after the elements `done`. -/
theorem spec_forM {xs : List α} {f : α → Prog S ε PUnit} {Q : Except ε PUnit → W → Prop}
    (J : List α → W → Prop) (h0 : J [] w)
    (hstep : ∀ pre x post w, xs = pre ++ x :: post → J pre w →
      Spec h I (f x) w fun r w' => match r with
        | .ok _ => J (pre ++ [x]) w'
        | .error e => Q (.error e) w')
    (hend : ∀ w, J xs w → Q (.ok ⟨⟩) w) : Spec h I (xs.forM f) w Q := by
  -- the loop invariant speaks of what is done, so the induction is on what is left
  suffices hs : ∀ (post pre : List α) (w : W), xs = pre ++ post → J pre w →
      Spec h I (post.forM f) w Q from hs xs [] w rfl h0
  intro post
  induction post with
  | nil =>
    intro pre w hx hJ
    rw [List.append_nil] at hx
    exact hend w (hx ▸ hJ)
  | cons x post ih =>
    intro pre w hx hJ
    show Spec h I (f x >>= fun _ => post.forM f) w Q
    rw [spec_bind]
    refine (hstep pre x post w hx hJ).imp ?_
    rintro (e | u) w' hw'
    · exact hw'
    · exact ih (pre ++ [x]) w' (by simp [hx]) hw'

/-- A loop whose body keeps `I` and never stops early except with an error that `Q`
allows. -/
theorem spec_forM_inv {xs : List α} {f : α → Prog S ε PUnit} (hw : I w)
    (hstep : ∀ x ∈ xs, ∀ w, I w → Spec h I (f x) w fun _ w' => I w') :
    Spec h I (xs.forM f) w fun _ w' => I w' := by
  refine spec_forM (fun _ w => I w) hw (fun pre x post w hx hI => ?_) (fun _ hI => hI)
  refine (hstep x (by simp [hx]) w hI).imp ?_
  rintro (e | u) w' hw' <;> exact hw'

/-- Loops with the same turns are the same. -/
theorem forM_congr {xs : List α} {f g : α → Prog S ε PUnit} (h : ∀ x ∈ xs, f x = g x) :
    xs.forM f = xs.forM g := by
  induction xs with
  | nil => rfl
  | cons x xs ih =>
    show (f x >>= fun _ => xs.forM f) = g x >>= fun _ => xs.forM g
    rw [h x List.mem_cons_self, ih fun y hy => h y (List.mem_cons_of_mem _ hy)]

/-- The last turn of a loop runs after all others. -/
theorem forM_snoc {xs : List α} {x : α} {f : α → Prog S ε PUnit} :
    (xs ++ [x]).forM f = xs.forM f >>= fun _ => f x := by
  induction xs with
  | nil => exact bind_pure_unit
  | cons y xs ih =>
    show (f y >>= fun _ => (xs ++ [x]).forM f) = (f y >>= fun _ => xs.forM f) >>= fun _ => f x
    rw [ih, bind_assoc]

/-- A loop that succeeds has gone through all its turns. -/
theorem run_forM_turns {xs : List α} {f : α → Prog S ε PUnit} {u : PUnit} {w w' : W}
    (hrun : (xs.forM f).run h w = (.ok u, w')) :
    ∀ x ∈ xs, ∃ w₁ w₂, (f x).run h w₁ = (.ok ⟨⟩, w₂) := by
  induction xs generalizing w with
  | nil => exact fun _ hx => absurd hx List.not_mem_nil
  | cons x xs ih =>
    obtain ⟨_, w₁, hx, hxs⟩ := run_bind_eq_ok.mp hrun
    exact List.forall_mem_cons.mpr ⟨⟨w, w₁, hx⟩, ih hxs⟩

/-- A loop that succeeds goes on after each turn. -/
theorem run_forM_split {x : α} {pre post : List α} {f : α → Prog S ε PUnit} {u : PUnit}
    {w w' : W} (hrun : ((pre ++ x :: post).forM f).run h w = (.ok u, w')) :
    ∃ w₁ w₂, (f x).run h w₁ = (.ok ⟨⟩, w₂) ∧ (post.forM f).run h w₂ = (.ok u, w') := by
  induction pre generalizing w with
  | nil =>
    obtain ⟨_, w₂, hx, hpost⟩ := run_bind_eq_ok.mp hrun
    exact ⟨w, w₂, hx, hpost⟩
  | cons y pre ih =>
    obtain ⟨_, _, -, hrest⟩ := run_bind_eq_ok.mp hrun
    exact ih hrest

/-- What all turns have in common has the loop. -/
theorem run_forM_trans {xs : List α} {f : α → Prog S ε PUnit} {R : W → W → Prop} {u : PUnit}
    {w w' : W} (hrun : (xs.forM f).run h w = (.ok u, w')) (refl : ∀ w, R w w)
    (trans : ∀ w₁ w₂ w₃, R w₁ w₂ → R w₂ w₃ → R w₁ w₃)
    (hf : ∀ x ∈ xs, ∀ w w', (f x).run h w = (.ok ⟨⟩, w') → R w w') : R w w' := by
  induction xs generalizing w with
  | nil =>
    obtain rfl := (run_pure_eq_ok.mp hrun).2
    exact refl w
  | cons x xs ih =>
    obtain ⟨_, w₁, hx, hxs⟩ := run_bind_eq_ok.mp hrun
    exact trans _ _ _ (hf x List.mem_cons_self w w₁ hx)
      (ih hxs fun y hy => hf y (List.mem_cons_of_mem _ hy))

/-! ### Triples of programs that succeed -/

/-- The program returns a value, which satisfies `Q` with the last state, and every state
after a call satisfies `I`. -/
def Succeeds (h : Handler S W) (I : W → Prop) (m : Prog S ε α) (w : W) (Q : α → W → Prop) :
    Prop := Spec h I m w fun r w' => ∃ a, r = .ok a ∧ Q a w'

/-- A program that succeeds returns a value, in a state that satisfies `Q`. -/
theorem Succeeds.run {m : Prog S ε α} {Q : α → W → Prop} (hm : Succeeds h I m w Q) :
    ∃ a w', m.run h w = (.ok a, w') ∧ Q a w' := by
  obtain ⟨a, ha, hq⟩ := Spec.run hm
  exact ⟨a, (m.run h w).2, Prod.ext ha rfl, hq⟩

/-- A weaker invariant and a weaker result may be claimed. -/
theorem Succeeds.mono {m : Prog S ε α} {Q Q' : α → W → Prop} (hm : Succeeds h I m w Q)
    (hI : ∀ w, I w → J w) (hQ : ∀ a w, Q a w → Q' a w) : Succeeds h J m w Q' :=
  Spec.mono hm hI fun _ _ ⟨a, ha, hq⟩ => ⟨a, ha, hQ a _ hq⟩

/-- A weaker result may be claimed. -/
theorem Succeeds.imp {m : Prog S ε α} {Q Q' : α → W → Prop} (hm : Succeeds h I m w Q)
    (hQ : ∀ a w, Q a w → Q' a w) : Succeeds h I m w Q' :=
  hm.mono (fun _ hi => hi) hQ

/-- A program that succeeds ends at a moment of its run. -/
theorem Succeeds.moment {m : Prog S ε α} {Q : α → W → Prop} (hm : Succeeds h I m w Q)
    (hJ : ∀ w', m.Moment h w w' → J w') : Succeeds h I m w fun a w' => Q a w' ∧ J w' := by
  have hend : Spec h (fun _ => True) m w fun _ w' => J w' :=
    spec_of_run (fun _ _ => trivial) (hJ _ (moment_run h m w))
  refine (Spec.and hm hend).mono (fun _ hw => hw.1) ?_
  rintro _ w' ⟨⟨a, rfl, hq⟩, hj⟩
  exact ⟨a, rfl, hq, hj⟩

/-- `pure` succeeds. -/
theorem succeeds_pure {a : α} {Q : α → W → Prop} (hq : Q a w) :
    Succeeds h I (pure a : Prog S ε α) w Q := ⟨a, rfl, hq⟩

/-- A lifted result that is a value succeeds. -/
theorem succeeds_lift {r : Except ε α} {a : α} {Q : α → W → Prop} (hr : r = .ok a) (hq : Q a w) :
    Succeeds h I (liftM r : Prog S ε α) w Q := ⟨a, hr, hq⟩

/-- Programs that succeed one after the other. -/
theorem Succeeds.bind {m : Prog S ε α} {f : α → Prog S ε β} {Q : α → W → Prop}
    {Q' : β → W → Prop} (hm : Succeeds h I m w Q)
    (hf : ∀ a w', Q a w' → Succeeds h I (f a) w' Q') : Succeeds h I (m >>= f) w Q' := by
  refine spec_bind.mpr (Spec.imp hm ?_)
  rintro _ w' ⟨a, rfl, hq⟩
  exact hf a w' hq

/-- One call, whose effect is known. -/
theorem succeeds_call {c : S.Call} {r : S.Reply c} {w' : W} {k : S.Reply c → Prog S ε α}
    {Q : α → W → Prop} (hc : h c w = (r, w')) (hI : I w') (hk : Succeeds h I (k r) w' Q) :
    Succeeds h I (perform c >>= k) w Q := by
  refine ⟨?_, ?_⟩
  · show I (h c w).2
    rw [hc]
    exact hI
  · show Succeeds h I (k (h c w).1) (h c w).2 Q
    rw [hc]
    exact hk

/-- What is attempted and succeeds returns a value, not an error. -/
theorem Succeeds.attempt {m : Prog S ε α} {Q : α → W → Prop} (hm : Succeeds h I m w Q) :
    Succeeds h I (m.attempt : Prog S ε' _) w fun r w' => ∃ a, r = .ok a ∧ Q a w' := by
  refine spec_attempt.mpr (Spec.imp hm ?_)
  rintro _ w' ⟨a, rfl, hq⟩
  exact ⟨_, rfl, a, rfl, hq⟩

/-- A program and its clean-up that both succeed. -/
theorem Succeeds.ensuring {m : Prog S ε α} {cleanup : Prog S ε Unit} {Q Q' : α → W → Prop}
    (hm : Succeeds h I m w Q)
    (hc : ∀ a w', Q a w' → Succeeds h I cleanup w' fun _ w'' => Q' a w'') :
    Succeeds h I (m.ensuring cleanup) w Q' := by
  refine spec_ensuring.mpr (Spec.imp hm ?_)
  rintro _ w' ⟨a, rfl, hq⟩
  refine Spec.imp (hc a w' hq) ?_
  rintro _ w'' ⟨u, rfl, hq'⟩
  exact ⟨a, rfl, hq'⟩

/-- Where the program succeeds, the clean-up on errors plays no part. -/
theorem Succeeds.onError {m : Prog S ε α} {cleanup : Prog S ε Unit} {Q : α → W → Prop}
    (hm : Succeeds h I m w Q) : Succeeds h I (m.onError cleanup) w Q := by
  refine spec_onError (Spec.imp hm ?_)
  rintro _ w' ⟨a, rfl, hq⟩
  exact ⟨a, rfl, hq⟩

/-- The loop rule. `J done w` is the loop invariant after the elements `done`. -/
theorem succeeds_forM {xs : List α} {f : α → Prog S ε PUnit} {Q : PUnit → W → Prop}
    (J : List α → W → Prop) (h0 : J [] w)
    (hstep : ∀ pre x post w, xs = pre ++ x :: post → J pre w →
      Succeeds h I (f x) w fun _ w' => J (pre ++ [x]) w')
    (hend : ∀ w, J xs w → Q ⟨⟩ w) : Succeeds h I (xs.forM f) w Q := by
  refine spec_forM J h0 (fun pre x post w hx hJ => ?_) fun w hJ => ⟨⟨⟩, rfl, hend w hJ⟩
  refine Spec.imp (hstep pre x post w hx hJ) ?_
  rintro _ w' ⟨u, rfl, hJ'⟩
  exact hJ'

/-- A loop with a state for what it has done so far, when each of its turns succeeds. -/
theorem run_forM_of_turns {xs : List α} {f : α → Prog S ε PUnit} (J : List α → W → Prop)
    (hw : J [] w) (hf : ∀ pre x post w', xs = pre ++ x :: post → J pre w' →
      ∃ w'', (f x).run h w' = (.ok ⟨⟩, w'') ∧ J (pre ++ [x]) w'') :
    ∃ w', (xs.forM f).run h w = (.ok ⟨⟩, w') ∧ J xs w' := by
  have hloop : Succeeds h (fun _ => True) (xs.forM f) w fun _ => J xs := by
    refine succeeds_forM J hw (fun pre x post w' hxs hw' => ?_) fun _ h => h
    obtain ⟨w'', hrun, hJ⟩ := hf pre x post w' hxs hw'
    refine spec_of_run (fun _ _ => trivial) ?_
    rw [hrun]
    exact ⟨⟨⟩, rfl, hJ⟩
  obtain ⟨⟨⟩, w', hrun, hJ⟩ := hloop.run
  exact ⟨w', hrun, hJ⟩

/-- The loop rule for a loop that passes a value on. -/
theorem succeeds_foldlM {xs : List α} {f : β → α → Prog S ε β} {b : β} {Q : β → W → Prop}
    (J : List α → β → W → Prop) (h0 : J [] b w)
    (hstep : ∀ pre x post b w, xs = pre ++ x :: post → J pre b w →
      Succeeds h I (f b x) w (J (pre ++ [x])))
    (hend : ∀ b w, J xs b w → Q b w) : Succeeds h I (xs.foldlM f b) w Q := by
  -- as for `spec_forM`, the induction is on the turns that are left
  suffices hs : ∀ (post pre : List α) (b : β) (w : W), xs = pre ++ post → J pre b w →
      Succeeds h I (post.foldlM f b) w Q from hs xs [] b w rfl h0
  intro post
  induction post with
  | nil =>
    intro pre b w hx hJ
    rw [List.append_nil] at hx
    exact succeeds_pure (hend b w (hx ▸ hJ))
  | cons x post ih =>
    intro pre b w hx hJ
    rw [List.foldlM_cons]
    refine (hstep pre x post b w hx hJ).bind ?_
    intro b' w' hJ'
    exact ih (pre ++ [x]) b' w' (by simp [hx]) hJ'

/-! ### Programs that only read -/

/-- No call of `m` moves the state, whatever the state is. -/
def Quiet (h : Handler S W) (m : Prog S ε α) : Prop := ∀ w w', m.Visits h w w' → w' = w

/-- A run that visits only the state it starts in ends there. -/
theorem run_snd_of_visits {m : Prog S ε α} {w : W} (hv : ∀ w', m.Visits h w w' → w' = w) :
    (m.run h w).2 = w := by
  induction m generalizing w with
  | done r => rfl
  | call c k ih =>
    have h1 : (h c w).2 = w := hv _ (Or.inl rfl)
    show ((k (h c w).1).run h (h c w).2).2 = w
    rw [h1]
    exact ih _ fun w' h' => hv w' (Or.inr (h1.symm ▸ h'))

/-- A program that only reads leaves the state. -/
theorem Quiet.run_snd {m : Prog S ε α} (hm : Quiet h m) (w : W) : (m.run h w).2 = w :=
  run_snd_of_visits (hm w)

/-- The run of a program that only reads, as a pair. -/
theorem Quiet.run_eq {m : Prog S ε α} (hm : Quiet h m) (w : W) :
    m.run h w = ((m.run h w).1, w) := Prod.ext rfl (hm.run_snd w)

/-- After a quiet program, a triple speaks of the result and of the state before it. -/
theorem Quiet.spec {m : Prog S ε α} (hm : Quiet h m) {Q : Except ε α → W → Prop} (hI : I w)
    (hQ : Q (m.run h w).1 w) : Spec h I m w Q := by
  refine spec_iff.mpr ⟨fun w' hv => (hm w w' hv).symm ▸ hI, ?_⟩
  rw [hm.run_snd w]
  exact hQ

/-- A quiet program succeeds when its result is known. -/
theorem Quiet.succeeds {m : Prog S ε α} (hm : Quiet h m) {a : α} {Q : α → W → Prop} (hI : I w)
    (hr : (m.run h w).1 = .ok a) (hQ : Q a w) : Succeeds h I m w Q :=
  hm.spec hI ⟨a, hr, hQ⟩

/-- A program without a call only reads. -/
theorem quiet_done (r : Except ε α) : Quiet h (.done r : Prog S ε α) := fun _ _ hv => hv.elim

/-- `pure` only reads. -/
theorem quiet_pure (a : α) : Quiet h (pure a : Prog S ε α) := quiet_done _

/-- `throw` only reads. -/
theorem quiet_throw (e : ε) : Quiet h (throw e : Prog S ε α) := quiet_done _

/-- A lifted result only reads. -/
theorem quiet_lift (r : Except ε α) : Quiet h (liftM r : Prog S ε α) := quiet_done _

/-- A state that two programs in sequence visit is visited by the first one, or by the second one
from where the first has returned. -/
theorem visits_bind {m : Prog S ε α} {f : α → Prog S ε β} {w w' : W}
    (hv : (m >>= f).Visits h w w') : m.Visits h w w' ∨
      ∃ a, (m.run h w).1 = .ok a ∧ (f a).Visits h (m.run h w).2 w' := by
  change (m.bind f).Visits h w w' at hv
  induction m generalizing w with
  | done r =>
    cases r with
    | ok a => exact Or.inr ⟨a, rfl, hv⟩
    | error e => exact hv.elim
  | call c k ih =>
    -- either the state after this call, or one of the states after it
    rcases hv with h1 | h1
    · exact Or.inl (Or.inl h1)
    · rcases ih _ h1 with h2 | h2
      · exact Or.inl (Or.inr h2)
      · exact Or.inr h2

/-- The same for the moments, which include the start and the end. -/
theorem moment_bind {m : Prog S ε α} {f : α → Prog S ε β} {w w' : W}
    (hw : (m >>= f).Moment h w w') : m.Moment h w w' ∨
      ∃ a w₁, m.run h w = (.ok a, w₁) ∧ (f a).Moment h w₁ w' := by
  rcases hw with rfl | hv
  · exact .inl (.inl rfl)
  · rcases visits_bind hv with hv | ⟨a, ha, hv⟩
    · exact .inl (.inr hv)
    · exact .inr ⟨a, _, run_eq_of_fst ha, .inr hv⟩

/-- Two programs that only read, in sequence. -/
theorem quiet_bind {m : Prog S ε α} {f : α → Prog S ε β} (hm : Quiet h m)
    (hf : ∀ a, Quiet h (f a)) : Quiet h (m >>= f) := by
  intro w w' hv
  rcases visits_bind hv with h1 | ⟨a, -, h1⟩
  · exact hm w w' h1
  · rw [hm.run_snd w] at h1
    exact hf a w w' h1

/-- The result of a quiet program and what follows it, in one and the same state. -/
theorem Quiet.run_bind_fst {m : Prog S ε α} (hm : Quiet h m) (f : α → Prog S ε β) (w : W) :
    ((m >>= f).run h w).1 = (m.run h w).1 >>= fun a => ((f a).run h w).1 := by
  rw [run_bind, hm.run_eq w]
  cases (m.run h w).1 <;> rfl

/-- A loop whose turns only read computes its result as a pure loop over the results of the
turns. -/
theorem run_foldlM_fst {xs : List α} {f : β → α → Prog S ε β} {b : β}
    (hf : ∀ x ∈ xs, ∀ b, Quiet h (f b x)) (w : W) :
    ((xs.foldlM f b).run h w).1 = xs.foldlM (fun b x => ((f b x).run h w).1) b := by
  induction xs generalizing b with
  | nil => rfl
  | cons x xs ih =>
    rw [List.foldlM_cons, List.foldlM_cons, (hf x (by simp) b).run_bind_fst]
    exact congrArg _ (funext fun b => ih fun y hy => hf y (by simp [hy]))

/-- `attempt` visits the states of the program. -/
theorem visits_attempt {m : Prog S ε α} {w w' : W} :
    (m.attempt : Prog S ε' _).Visits h w w' ↔ m.Visits h w w' := by
  induction m generalizing w with
  | done r => rfl
  | call c k ih => exact or_congr Iff.rfl (ih _)

/-- `attempt` of a program that only reads. -/
theorem quiet_attempt {m : Prog S ε α} (hm : Quiet h m) :
    Quiet h (m.attempt : Prog S ε' _) := fun w w' hv => hm w w' (visits_attempt.mp hv)

/-- A loop whose turns only read. -/
theorem quiet_foldlM {xs : List α} {f : β → α → Prog S ε β} {b : β}
    (hf : ∀ x ∈ xs, ∀ b, Quiet h (f b x)) : Quiet h (xs.foldlM f b) := by
  induction xs generalizing b with
  | nil => exact quiet_pure _
  | cons x xs ih =>
    rw [List.foldlM_cons]
    exact quiet_bind (hf x (by simp) b) fun _ => ih fun y hy => hf y (by simp [hy])

/-! ### Properties of all calls -/

/-- Every call that can occur in `m`, for all replies, satisfies `P`. -/
def Issues (P : S.Call → Prop) : Prog S ε α → Prop
  | .done _ => True
  | .call c k => P c ∧ ∀ r, Issues P (k r)

variable {P P' : S.Call → Prop}

/-- A program without a call has the property of all calls. -/
@[simp] theorem issues_done (r : Except ε α) : Issues P (.done r : Prog S ε α) := trivial

/-- `pure` issues no call. -/
@[simp] theorem issues_pure (a : α) : Issues P (pure a : Prog S ε α) := trivial

/-- `throw` issues no call. -/
@[simp] theorem issues_throw (e : ε) : Issues P (throw e : Prog S ε α) := trivial

/-- A lifted result issues no call. -/
@[simp] theorem issues_lift (r : Except ε α) : Issues P (liftM r : Prog S ε α) := trivial

/-- One call has the property exactly when the call has it. -/
@[simp] theorem issues_perform {c : S.Call} : Issues P (perform c : Prog S ε _) ↔ P c :=
  ⟨fun h => h.1, fun h => ⟨h, fun _ => trivial⟩⟩

/-- The calls of two programs in sequence are those of the first and those of the second, whatever
value the first returns. -/
theorem issues_bind {m : Prog S ε α} {f : α → Prog S ε β} (hm : Issues P m)
    (hf : ∀ a, Issues P (f a)) : Issues P (m >>= f) := by
  show Issues P (m.bind f)
  induction m with
  | done r =>
    cases r with
    | ok a => exact hf a
    | error e => trivial
  | call c k ih => exact ⟨hm.1, fun r => ih r (hm.2 r)⟩

/-- A weaker property of the calls. -/
theorem Issues.mono {m : Prog S ε α} (hm : Issues P m) (hP : ∀ c, P c → P' c) : Issues P' m := by
  induction m with
  | done r => trivial
  | call c k ih => exact ⟨hP c hm.1, fun r => ih r (hm.2 r)⟩

/-- A property that every call has. -/
theorem issues_of_forall (hP : ∀ c, P c) {m : Prog S ε α} : Issues P m := by
  induction m with
  | done r => trivial
  | call c k ih => exact ⟨hP c, ih⟩

/-- `attempt` adds no call. -/
theorem issues_attempt {m : Prog S ε α} (hm : Issues P m) :
    Issues P (m.attempt : Prog S ε' _) := by
  induction m with
  | done r => trivial
  | call c k ih => exact ⟨hm.1, fun r => ih r (hm.2 r)⟩

/-- The calls of a program and of its clean-up. -/
theorem issues_ensuring {m : Prog S ε α} {cleanup : Prog S ε Unit} (hm : Issues P m)
    (hc : Issues P cleanup) : Issues P (m.ensuring cleanup) :=
  issues_bind (issues_attempt hm) fun _ => issues_bind hc fun _ => trivial

/-- The calls of a program and of its clean-up on errors. -/
theorem issues_onError {m : Prog S ε α} {cleanup : Prog S ε Unit} (hm : Issues P m)
    (hc : Issues P cleanup) : Issues P (m.onError cleanup) := by
  refine issues_bind (issues_attempt hm) fun r => ?_
  cases r with
  | ok a => trivial
  | error e => exact issues_bind hc fun _ => trivial

/-- The calls of a loop are those of its turns. -/
theorem issues_forM {xs : List α} {f : α → Prog S ε PUnit} (hf : ∀ x ∈ xs, Issues P (f x)) :
    Issues P (xs.forM f) := by
  induction xs with
  | nil => trivial
  | cons x xs ih =>
    exact issues_bind (hf x (by simp)) fun _ => ih fun y hy => hf y (by simp [hy])

/-- The calls of a loop with an accumulator are those of its turns, from any accumulator. -/
theorem issues_foldlM {xs : List α} {f : β → α → Prog S ε β} {b : β}
    (hf : ∀ x ∈ xs, ∀ b, Issues P (f b x)) : Issues P (xs.foldlM f b) := by
  induction xs generalizing b with
  | nil => trivial
  | cons x xs ih =>
    rw [List.foldlM_cons]
    exact issues_bind (hf x (by simp) b) fun _ => ih fun y hy => hf y (by simp [hy])

/-- Every value `m` can return, for all replies, satisfies `R`. -/
def Returns (R : α → Prop) : Prog S ε α → Prop
  | .done (.ok a) => R a
  | .done (.error _) => True
  | .call _ k => ∀ r, Returns R (k r)

variable {R : α → Prop}

/-- What a sequence returns is what its second program returns. -/
theorem returns_bind {m : Prog S ε β} {f : β → Prog S ε α} (hf : ∀ b, Returns R (f b)) :
    Returns R (m >>= f) := by
  show Returns R (m.bind f)
  induction m with
  | done r =>
    cases r with
    | ok b => exact hf b
    | error e => trivial
  | call c k ih => exact fun r => ih r

/-- The same, where the second program is only run with what the first one returns. -/
theorem returns_bind_returns {R' : β → Prop} {m : Prog S ε β} {f : β → Prog S ε α}
    (hm : Returns R' m) (hf : ∀ b, R' b → Returns R (f b)) : Returns R (m >>= f) := by
  show Returns R (m.bind f)
  induction m with
  | done r =>
    cases r with
    | ok b => exact hf b hm
    | error e => trivial
  | call c k ih => exact fun r => ih r (hm r)

/-- A weaker property of what is returned. -/
theorem Returns.imp {R' : α → Prop} {m : Prog S ε α} (hm : Returns R m) (h : ∀ a, R a → R' a) :
    Returns R' m := by
  induction m with
  | done r =>
    cases r with
    | ok a => exact h a hm
    | error e => trivial
  | call c k ih => exact fun r => ih r (hm r)

/-- After a loop of checks, each element has passed its check. -/
theorem returns_forM {xs : List β} {f : β → Prog S ε PUnit} {R : β → Prop}
    (hf : ∀ x ∈ xs, Returns (fun _ => R x) (f x)) :
    Returns (fun _ => ∀ x ∈ xs, R x) (xs.forM f) := by
  induction xs with
  | nil => exact fun _ h => absurd h List.not_mem_nil
  | cons x xs ih =>
    refine returns_bind_returns (hf x (by simp)) fun _ hx => ?_
    exact (ih fun y hy => hf y (by simp [hy])).imp fun _ h => List.forall_mem_cons.mpr ⟨hx, h⟩

/-- A lifted result returns its value. -/
theorem returns_lift {x : Except ε α} (h : ∀ a, x = .ok a → R a) :
    Returns R (liftM x : Prog S ε α) := by
  cases x with
  | ok a => exact h a rfl
  | error e => trivial

/-- A check that fails returns nothing, so the rest may assume that it passed. -/
theorem returns_check {c : Prop} [Decidable c] {e : ε} {k : β → Prog S ε α} {m : Prog S ε α}
    (hm : ¬ c → Returns R m) : Returns R (if c then throw e >>= k else m) := by
  split
  · trivial
  · next hc => exact hm hc

/-- What an attempted program returns inside its result. -/
theorem returns_attempt {m : Prog S ε α} (hm : Returns R m) :
    Returns (fun r => ∀ a, r = .ok a → R a) (m.attempt : Prog S ε' (Except ε α)) := by
  induction m with
  | done r =>
    cases r with
    | ok a => exact fun b hb => Except.ok.inj hb ▸ hm
    | error e => exact fun b hb => by cases hb
  | call c k ih => exact fun r => ih r (hm r)

/-- A clean-up on errors does not change what is returned. -/
theorem returns_onError {m : Prog S ε α} {cleanup : Prog S ε Unit} (hm : Returns R m) :
    Returns R (m.onError cleanup) := by
  refine returns_bind_returns (returns_attempt hm) fun r hr => ?_
  cases r with
  | ok a => exact hr a rfl
  | error e => exact returns_bind fun _ => trivial

/-- What comes after a program may rest on what it returns. -/
theorem Returns.bind_congr {m : Prog S ε α} (hm : Returns R m) {f g : α → Prog S ε β}
    (h : ∀ a, R a → f a = g a) : m >>= f = m >>= g := by
  show m.bind f = m.bind g
  induction m with
  | done r =>
    cases r with
    | ok a => exact h a hm
    | error e => rfl
  | call c k ih => exact congrArg (Prog.call c) (funext fun r => ih r (hm r))

/-- A loop that passes a value on keeps what its body keeps. -/
theorem returns_foldlM {xs : List β} {f : α → β → Prog S ε α} {a : α} (ha : R a)
    (hf : ∀ x ∈ xs, ∀ a, R a → Returns R (f a x)) : Returns R (xs.foldlM f a) := by
  induction xs generalizing a with
  | nil => exact ha
  | cons x xs ih =>
    rw [List.foldlM_cons]
    refine returns_bind_returns (hf x List.mem_cons_self a ha) fun b hb => ?_
    exact ih hb fun y hy => hf y (List.mem_cons_of_mem _ hy)

/-- The value of a run is one that the program can return. -/
theorem Returns.run {m : Prog S ε α} (hm : Returns R m) {h : Handler S W} {w : W} {a : α}
    (ha : (m.run h w).1 = .ok a) : R a := by
  induction m generalizing w with
  | done r =>
    cases r with
    | ok b => exact Except.ok.inj ha ▸ hm
    | error e => cases ha
  | call c k ih => exact ih _ (hm _) ha

/-- Every result `m` can end with, for all replies, satisfies `E`. -/
def Ends (E : Except ε α → Prop) : Prog S ε α → Prop
  | .done r => E r
  | .call _ k => ∀ r, Ends E (k r)

/-- A program that is done ends in its result. -/
@[simp] theorem ends_done {E : Except ε α → Prop} {r : Except ε α} :
    Ends E (.done r : Prog S ε α) ↔ E r := Iff.rfl

/-- How a sequence ends: in an error of the first program, or as the second one does. -/
theorem ends_bind {E' : Except ε β → Prop} {E : Except ε α → Prop} {m : Prog S ε β}
    {f : β → Prog S ε α} (hm : Ends E' m) (hok : ∀ b, E' (.ok b) → Ends E (f b))
    (herr : ∀ e, E' (.error e) → E (.error e)) : Ends E (m >>= f) := by
  show Ends E (m.bind f)
  induction m with
  | done r =>
    cases r with
    | ok b => exact hok b hm
    | error e => exact herr e hm
  | call c k ih => exact fun r => ih r (hm r)

/-- `attempt` ends in a value that holds the end of the program. -/
theorem ends_attempt {E : Except ε α → Prop} {E' : Except ε' (Except ε α) → Prop}
    {m : Prog S ε α} (hm : Ends E m) (h : ∀ r, E r → E' (.ok r)) :
    Ends E' (m.attempt : Prog S ε' _) := by
  induction m with
  | done r => exact h r hm
  | call c k ih => exact fun r => ih r (hm r)

/-- A weaker property of the ends. -/
theorem Ends.imp {E E' : Except ε α → Prop} {m : Prog S ε α} (hm : Ends E m)
    (h : ∀ r, E r → E' r) : Ends E' m := by
  induction m with
  | done r => exact h r hm
  | call c k ih => exact fun r => ih r (hm r)

/-- A run ends in one of the ends of the program. -/
theorem Ends.run {E : Except ε α → Prop} {m : Prog S ε α} (hm : Ends E m) (h : Handler S W)
    (w : W) : E (m.run h w).1 := by
  induction m generalizing w with
  | done r => exact hm
  | call c k ih => exact ih _ (hm _) _

/-- A property of the ends gives one of the values. -/
theorem Ends.returns {E : Except ε α → Prop} {m : Prog S ε α} (hm : Ends E m)
    (h : ∀ a, E (.ok a) → R a) : Returns R m := by
  induction m with
  | done r =>
    cases r with
    | ok a => exact h a hm
    | error e => trivial
  | call c k ih => exact fun r => ih r (hm r)

/-- A triple may also use what is known of the value that is returned. -/
theorem Spec.returns {m : Prog S ε α} {Q : Except ε α → W → Prop} (hm : Spec h I m w Q)
    (hr : Returns R m) : Spec h I m w fun r w' => Q r w' ∧ ∀ a, r = .ok a → R a :=
  spec_iff.mpr ⟨(spec_iff.mp hm).1, hm.run, fun _ ha => hr.run ha⟩

/-- The continuation of a bind only has to be looked at for the values `m` can return. -/
theorem issues_bind_returns {m : Prog S ε α} {f : α → Prog S ε β} (hm : Issues P m)
    (hr : Returns R m) (hf : ∀ a, R a → Issues P (f a)) : Issues P (m >>= f) := by
  show Issues P (m.bind f)
  induction m with
  | done r =>
    cases r with
    | ok a => exact hf a hr
    | error e => trivial
  | call c k ih => exact ⟨hm.1, fun r => ih r (hm.2 r) (hr r)⟩

/-- Calls that keep an invariant keep it through any program made of them. -/
theorem Issues.spec {m : Prog S ε α} (hm : Issues P m)
    (hP : ∀ c w, P c → I w → I (h c w).2) (hw : I w) :
    Spec h I m w fun _ w' => I w' := by
  induction m generalizing w with
  | done r => exact hw
  | call c k ih =>
    have h1 := hP c w hm.1 hw
    exact ⟨h1, ih _ (hm.2 _) h1⟩

/-- From states that are related by `R` the program returns the same, and ends in states that
are related again. -/
def Agrees (h : Handler S W) (R : W → W → Prop) (m : Prog S ε α) : Prop :=
  ∀ w w', R w w' → (m.run h w).1 = (m.run h w').1 ∧ R (m.run h w).2 (m.run h w').2

/-- Two runs that agree through the first program agree through the second. -/
theorem Agrees.bind {R : W → W → Prop} {m : Prog S ε α} {f : α → Prog S ε β}
    (hm : Agrees h R m) (hf : ∀ a, Agrees h R (f a)) : Agrees h R (m >>= f) := by
  intro w w' hR
  obtain ⟨h1, h2⟩ := hm w w' hR
  rw [run_bind, run_bind]
  rcases hr : m.run h w with ⟨r, v⟩
  rcases hr' : m.run h w' with ⟨r', v'⟩
  rw [hr, hr'] at h1 h2
  subst h1
  cases r with
  | ok a => exact hf a v v' h2
  | error e => exact ⟨rfl, h2⟩

/-- A program agrees from related states when each of its calls does. -/
theorem Issues.agrees {R : W → W → Prop} {m : Prog S ε α} (hm : Issues P m)
    (hP : ∀ c w w', P c → R w w' → (h c w).1 = (h c w').1 ∧ R (h c w).2 (h c w').2) :
    Agrees h R m := by
  induction m with
  | done r => exact fun w w' hR => ⟨rfl, hR⟩
  | call c k ih =>
    intro w w' hR
    obtain ⟨h1, h2⟩ := hP c w w' hm.1 hR
    show ((k (h c w).1).run h (h c w).2).1 = ((k (h c w').1).run h (h c w').2).1 ∧ _
    rw [run_call, run_call, ← h1]
    exact ih _ (hm.2 _) _ _ h2

/-- What every call keeps holds at every moment of any program. -/
theorem Moment.invariant {m : Prog S ε α} {w' : W} (hw' : m.Moment h w w') (hw : I w)
    (hI : ∀ c w, I w → I (h c w).2) : I w' := by
  have hm : Issues (fun _ => True) m := by
    clear hw'
    induction m with
    | done r => trivial
    | call c k ih => exact ⟨trivial, ih⟩
  exact (hm.spec (fun c w _ => hI c w) hw).moment hw hw'

/-- A program whose calls never move the state is quiet. -/
theorem Issues.quiet {m : Prog S ε α} (hm : Issues (fun c => ∀ w, (h c w).2 = w) m) :
    Quiet h m := by
  intro w w' hv
  exact (spec_iff.mp (hm.spec (h := h) (I := fun w' => w' = w)
    (fun c v hc hv => (hc v).trans hv) rfl)).1 w' hv

/-! ### What a program logs -/

section
variable {μ : Type} {log : S.Call → List μ} {L M : List μ → Prop}

/-- Whatever the replies are, the entries that the calls of `m` log satisfy `M`. -/
def Logs (log : S.Call → List μ) (M : List μ → Prop) : Prog S ε α → Prop
  | .done _ => M []
  | .call c k => ∀ r, Logs log (fun ms => M (log c ++ ms)) (k r)

/-- A weaker property of the log. -/
theorem Logs.imp {m : Prog S ε α} (hm : Logs log L m) (h : ∀ ms, L ms → M ms) :
    Logs log M m := by
  induction m generalizing L M with
  | done r => exact h [] hm
  | call c k ih => exact fun r => ih r (hm r) fun ms => h _

/-- The log of `m >>= f` is the log of `m`, and the one of `f` after it unless `m` failed. -/
theorem logs_bind {m : Prog S ε α} {f : α → Prog S ε β} (hm : Logs log L m)
    (hL : ∀ ms, L ms → M ms)
    (hf : ∀ a ms, L ms → Logs log (fun ms' => M (ms ++ ms')) (f a)) : Logs log M (m >>= f) := by
  show Logs log M (m.bind f)
  induction m generalizing L M with
  | done r =>
    cases r with
    | ok a => exact hf a [] hm
    | error e => exact hL [] hm
  | call c k ih =>
    intro r
    refine ih r (hm r) (fun ms => hL _) fun a ms h => ?_
    simpa only [List.append_assoc] using hf a _ h

/-- A program none of whose calls is logged has the empty log. -/
theorem logs_of_issues {m : Prog S ε α} (hm : Issues (fun c => log c = []) m) (h : M []) :
    Logs log M m := by
  induction m with
  | done r => exact h
  | call c k ih =>
    intro r
    show Logs log (fun ms => M (log c ++ ms)) (k r)
    simpa only [hm.1, List.nil_append] using ih r (hm.2 r)

/-- `attempt` logs what the program logs. -/
theorem logs_attempt {m : Prog S ε α} (hm : Logs log M m) :
    Logs log M (m.attempt : Prog S ε' _) := by
  induction m generalizing M with
  | done r => exact hm
  | call c k ih => exact fun r => ih r (hm r)

/-- Under a handler that keeps the log in its state, a run appends to it. -/
theorem Logs.run {m : Prog S ε α} (hm : Logs log M m) {h : Handler S W} (journal : W → List μ)
    (hj : ∀ c w, journal (h c w).2 = journal w ++ log c) (w : W) :
    ∃ ms, M ms ∧ journal (m.run h w).2 = journal w ++ ms := by
  induction m generalizing M w with
  | done r => exact ⟨[], hm, (List.append_nil _).symm⟩
  | call c k ih =>
    obtain ⟨ms, h1, h2⟩ := ih (h c w).1 (hm _) (h c w).2
    refine ⟨log c ++ ms, h1, ?_⟩
    rw [← List.append_assoc, ← hj]
    exact h2

end

end Prog

/-! ### Several volumes -/

/-- The signature `S` on each of the volumes `V`. -/
abbrev Sig.vol (V : Type) (S : Sig) : Sig := ⟨V × S.Call, fun c => S.Reply c.2⟩

namespace Prog

variable {S T : Sig} {ε ε' α β W D σ V : Type}

/-- A handler for one volume, used on each volume of a family. -/
def Handler.vol [DecidableEq V] (h : Handler S D) : Handler (S.vol V) (V → D) :=
  fun c w => ((h c.2 (w c.1)).1, Function.update w c.1 (h c.2 (w c.1)).2)

/-- The program `m` on the volume `v`. -/
def atVol (v : V) : Prog S ε α → Prog (S.vol V) ε α
  | .done r => .done r
  | .call c k => .call (v, c) fun r => atVol v (k r)

/-- The run of a program on one volume changes that volume only. -/
theorem run_atVol [DecidableEq V] (h : Handler S D) (v : V) (m : Prog S ε α) (w : V → D) :
    (m.atVol v).run (Handler.vol h) w
      = ((m.run h (w v)).1, Function.update w v (m.run h (w v)).2) := by
  induction m generalizing w with
  | done r => simp [atVol]
  | call c k ih =>
    refine (ih _ _).trans ?_
    simp [Handler.vol]

/-- The same for a program without errors. -/
theorem runOk_atVol [DecidableEq V] (h : Handler S D) (v : V) (m : Prog S Empty α) (w : V → D) :
    (m.atVol v).runOk (Handler.vol h) w
      = ((m.runOk h (w v)).1, Function.update w v (m.runOk h (w v)).2) := by
  refine runOk_eq ?_
  rw [run_atVol, run_eq_runOk]

/-- A program on one volume visits the states that it visits there, with the other volumes as they
were. -/
theorem visits_atVol [DecidableEq V] {h : Handler S D} {v : V} {m : Prog S ε α} {w w' : V → D}
    (hv : (m.atVol v).Visits (Handler.vol h) w w') :
    ∃ d, m.Visits h (w v) d ∧ w' = Function.update w v d := by
  induction m generalizing w with
  | done r => exact hv.elim
  | call c k ih =>
    rcases hv with rfl | hv
    · exact ⟨(h c (w v)).2, Or.inl rfl, rfl⟩
    · obtain ⟨d, hd, rfl⟩ := ih _ hv
      refine ⟨d, Or.inr ?_, by simp [Handler.vol]⟩
      simpa [Handler.vol] using hd

/-- A triple on one volume is a triple on all of them. -/
theorem spec_atVol [DecidableEq V] {h : Handler S D} {v : V} {m : Prog S ε α} {w : V → D}
    {I : (V → D) → Prop} {Q : Except ε α → (V → D) → Prop}
    (hm : Spec h (fun d => I (Function.update w v d)) m (w v)
      fun r d => Q r (Function.update w v d)) :
    Spec (Handler.vol h) I (m.atVol v) w Q := by
  refine spec_iff.mpr ⟨fun w' hv => ?_, ?_⟩
  · obtain ⟨d, hd, rfl⟩ := visits_atVol hv
    exact (spec_iff.mp hm).1 d hd
  · rw [run_atVol]
    exact hm.run

/-- The calls of a program on one volume are its calls, for that volume. -/
theorem issues_atVol {v : V} {m : Prog S ε α} {P : (S.vol V).Call → Prop}
    (hm : Issues (fun c => P (v, c)) m) : Issues P (m.atVol v) := by
  induction m with
  | done r => trivial
  | call c k ih => exact ⟨hm.1, fun r => ih r (hm.2 r)⟩

/-- Where a program runs does not change how it can end. -/
theorem ends_atVol {v : V} {m : Prog S ε α} {E : Except ε α → Prop} (hm : Ends E m) :
    Ends E (m.atVol v) := by
  induction m with
  | done r => exact hm
  | call c k ih => exact fun r => ih r (hm r)

end Prog

end RrSync.Lib

import RrSync.Model.Basic
import RrSync.Lib.Timed

/-!
# `RrSync.Model.Reconnect`: `reconnect.rs`

Bounded retries of complete, fresh synchronization sessions.

A session is a call of its own here, with a number, and what it returns and how long it takes
is an outcome from outside: one outcome for each call, in order. Time is in milliseconds, the
unit of the timers. `timeout` polls the loop before its timer, so what is ready at the end of
the budget still goes on.
-/

set_option autoImplicit false

namespace RrSync

open Lib

/-- The largest value of `u64`. -/
def maxU64 : Nat := 2 ^ 64 - 1

/-- `Policy`. -/
structure Policy where
  /-- Additional sessions after the initial attempt. Zero preserves manual retry. -/
  attempts : Nat
  delaySeconds : Nat
  maxDelaySeconds : Nat
  /-- Overall command budget, including initial attempt and delays, when enabled. -/
  maxElapsedSeconds : Nat
  deriving DecidableEq

/-- `Policy::default`. -/
def Policy.default : Policy := ⟨0, 5, 60, 3600⟩

/-- `retryable`: a lost connection and a busy server, also one that says so in an ERROR message. -/
def retryable : Error → Bool
  | .connection _ => true
  | .busy => true
  | .remote code _ => code = 9
  | _ => false

/-- What one call of `attempt` comes to, and after how long. An attempt can hang. -/
structure Attempt (T : Type) where
  duration : Option Nat
  result : Except Error T

/-- What `run` waits for. -/
inductive RetryCall
  | attempt (number : Nat)
  | sleep (seconds : Nat)

/-- What an attempt and a pause return. -/
def RetryCall.Reply (T : Type) : RetryCall → Type
  | .attempt _ => Except Error T
  | .sleep _ => Unit

/-- The calls of a client that tries again. -/
abbrev RetrySig (T : Type) : Sig := ⟨RetryCall, RetryCall.Reply T⟩

/-- A program that tries again. -/
abbrev RetryM (T : Type) := Prog (RetrySig T) Error T

/-- `Duration::from_secs`. -/
def fromSecs (seconds : Nat) : Nat := 1000 * seconds

/-- The calls of `attempt` so far: the number of each, and when it started. -/
abbrev AttemptLog := List (Nat × Nat)

/-- The reply to a call comes when the outcome of the attempt does, or when the delay is over. -/
def timing {T : Type} (outcomes : Nat → Attempt T) : Timing (RetrySig T) AttemptLog
  | .attempt number, t, calls =>
    let a := outcomes calls.length
    (a.duration.map (·, a.result), calls ++ [(number, t)])
  | .sleep seconds, _, calls => (some (fromSecs seconds, ()), calls)

/-- `attempt(number).await`. -/
def attempt {T : Type} (number : Nat) : RetryM T := .call (.attempt number) .done

namespace Policy

variable (p : Policy)

/-- `Policy::validate`. -/
def validate : Except Error Unit :=
  if 32 < p.attempts ∨ p.delaySeconds = 0 ∨ p.maxDelaySeconds < p.delaySeconds
      ∨ 86400 < p.maxDelaySeconds ∨ p.maxElapsedSeconds = 0 ∨ 604800 < p.maxElapsedSeconds then
    throw (.config ("invalid reconnect policy: attempts <= 32, positive delays <= 86400, "
      ++ "elapsed budget <= 604800"))
  else pure ()

/-- `saturating_mul` by the shifted one, then the cap. -/
def delay (retry : Nat) : Nat :=
  min (min (p.delaySeconds * 1 <<< min retry 32) maxU64) p.maxDelaySeconds

/-- The loop over the numbers of the attempts. -/
def sessionLoop {T : Type} : List Nat → RetryM T
  | [] => .done (.error (.panic "unreachable"))
  | number :: numbers => .call (.attempt number) fun
    | .ok value => .done (.ok value)
    | .error error =>
      if number < p.attempts && retryable error then
        .call (.sleep (p.delay number)) fun _ => sessionLoop numbers
      else .done (.error error)

/-- The result of `run` with the time it comes at, if it comes, and the calls of `attempt`. -/
def run {T : Type} (outcomes : Nat → Attempt T) : Option (Nat × Except Error T) × AttemptLog :=
  match p.validate with
  | .error e => (some (0, .error e), [])
  | .ok () =>
    if p.attempts = 0 then
      (attempt 0).within (timing outcomes) none 0 []
    else
      let budget := fromSecs p.maxElapsedSeconds
      match (p.sessionLoop (List.range (p.attempts + 1))).within (timing outcomes) (some budget)
          0 [] with
      | (some r, calls) => (some r, calls)
      | (none, calls) => (some (budget, .error (.connection
          "reconnect overall deadline exceeded; final state may require a fresh rescan")), calls)

end Policy

end RrSync

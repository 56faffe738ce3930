import RrSync.Lib.Prog

/-!
# `RrSync.Lib.Timed`: programs whose calls take time

`within` runs a program against a clock. A call is started at a time; its reply comes a while
later, or never. With a limit the program is dropped at the first wait that goes past it, and
what was started until then has been started: the state keeps it. A reply that comes at the
limit itself is still taken, so a program that is ready then goes on.
-/

set_option autoImplicit false

namespace RrSync.Lib

/-- The start of a call: how long the reply takes, the reply, and the next state. There is no
reply when the call never ends. -/
abbrev Timing (S : Sig) (W : Type) := (c : S.Call) → Nat → W → Option (Nat × S.Reply c) × W

namespace Prog

variable {S : Sig} {ε α β W : Type}

/-- The time and the result of a program that is started at a time, and the last state. -/
def within (h : Timing S W) (limit : Option Nat) :
    Prog S ε α → Nat → W → Option (Nat × Except ε α) × W
  | .done r, t, w => (some (t, r), w)
  | .call c k, t, w =>
    match h c t w with
    | (some (d, r), w') =>
      if limit.all (t + d ≤ ·) then (k r).within h limit (t + d) w' else (none, w')
    | (none, w') => (none, w')

variable {h : Timing S W} {limit : Option Nat} {c : S.Call} {k : S.Reply c → Prog S ε α}
  {t d : Nat} {r : S.Reply c} {w w' : W}

/-- A program that is done needs no time. -/
@[simp] theorem within_done (r : Except ε α) :
    (.done r : Prog S ε α).within h limit t w = (some (t, r), w) := rfl

end Prog

end RrSync.Lib

import RrSync.Lib.Sum

/-!
# `RrSync.Lib.Strategy`: programs against a peer that may answer anything

A `Strategy` answers each call and sees all that was said before, so the runs against all
strategies are the runs against all sequences of replies. The state of such a peer is the list
of what was said. `EndsOn` is `Ends` for replies that satisfy a condition, which is what a
transport guarantees of a peer that guarantees nothing.
-/

set_option autoImplicit false

namespace RrSync.Lib

/-- A call and its reply. -/
abbrev Exchange (S : Sig) := (c : S.Call) × S.Reply c

/-- What a peer answers, after what was said. -/
abbrev Strategy (S : Sig) := List (Exchange S) → (c : S.Call) → S.Reply c

/-- The peer that follows a strategy. -/
def Strategy.handler {S : Sig} (peer : Strategy S) : Prog.Handler S (List (Exchange S)) :=
  fun c said => (peer said c, said ++ [⟨c, peer said c⟩])

namespace Prog

variable {S T : Sig} {ε α β W : Type}

/-! ### Results for some replies -/

variable {A : (c : S.Call) → S.Reply c → Prop}

/-- Every result `m` can end with, for all replies that satisfy `A`, satisfies `E`. -/
def EndsOn (A : (c : S.Call) → S.Reply c → Prop) (E : Except ε α → Prop) : Prog S ε α → Prop
  | .done r => E r
  | .call c k => ∀ r, A c r → EndsOn A E (k r)

/-- A property of all ends is one of the ends for some replies. -/
theorem Ends.on {E : Except ε α → Prop} {m : Prog S ε α} (hm : Ends E m) : EndsOn A E m := by
  induction m with
  | done r => exact hm
  | call c k ih => exact fun r _ => ih r (hm r)

/-- How a sequence ends when every reply is an allowed one. -/
theorem endsOn_bind {E' : Except ε β → Prop} {E : Except ε α → Prop} {m : Prog S ε β}
    {f : β → Prog S ε α} (hm : EndsOn A E' m) (hok : ∀ b, E' (.ok b) → EndsOn A E (f b))
    (herr : ∀ e, E' (.error e) → E (.error e)) : EndsOn A E (m >>= f) := by
  show EndsOn A E (m.bind f)
  induction m with
  | done r =>
    cases r with
    | ok b => exact hok b hm
    | error e => exact herr e hm
  | call c k ih => exact fun r hr => ih r (hm r hr)

/-- `attempt` ends in a value that holds the end of the program. -/
theorem endsOn_attempt {E : Except ε α → Prop} {E' : Except ε (Except ε α) → Prop}
    {m : Prog S ε α} (hm : EndsOn A E m) (h : ∀ r, E r → E' (.ok r)) :
    EndsOn A E' (m.attempt : Prog S ε (Except ε α)) := by
  induction m with
  | done r => exact h r hm
  | call c k ih => exact fun r hr => ih r (hm r hr)

/-- Against a handler whose replies are all allowed, the run has one of the ends. -/
theorem EndsOn.run {E : Except ε α → Prop} {m : Prog S ε α} (hm : EndsOn A E m)
    {h : Handler S W} (hA : ∀ c w, A c (h c w).1) (w : W) : E (m.run h w).1 := by
  induction m generalizing w with
  | done r => exact hm
  | call c k ih => exact ih _ (hm _ (hA c w)) _

end Prog

end RrSync.Lib

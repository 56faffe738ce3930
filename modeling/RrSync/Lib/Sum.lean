import RrSync.Lib.Prog

/-!
# `RrSync.Lib.Sum`: programs over two signatures

A program that works in two places at once issues calls of two signatures. What it does in
the first place is a program over the first signature, carried over by `left`; a handler for
each place gives one for both, and what runs in the first place leaves the second alone.
-/

set_option autoImplicit false

namespace RrSync.Lib

/-- The calls of both signatures. -/
abbrev Sig.sum (S T : Sig) : Sig := ⟨S.Call ⊕ T.Call, Sum.elim S.Reply T.Reply⟩

namespace Prog

variable {S T : Sig} {ε α W X : Type}

/-- A handler for each of the two signatures. -/
def Handler.sum (h : Handler S W) (k : Handler T X) : Handler (S.sum T) (W × X)
  | .inl c, w => ((h c w.1).1, (h c w.1).2, w.2)
  | .inr c, w => ((k c w.2).1, w.1, (k c w.2).2)

/-- The program `m`, in the first place. -/
def left : Prog S ε α → Prog (S.sum T) ε α
  | .done r => .done r
  | .call c k => .call (.inl c) fun r => left (k r)

variable {h : Handler S W} {k : Handler T X} {m : Prog S ε α}

/-- The run in the first place leaves the second one. -/
theorem run_left (w : W) (x : X) : (m.left : Prog (S.sum T) ε α).run (h.sum k) (w, x)
    = ((m.run h w).1, (m.run h w).2, x) := by
  induction m generalizing w with
  | done r => rfl
  | call c n ih => exact ih _ _

/-- A triple in the first place is a triple of both, with the second place as it is. -/
theorem spec_left {I : W × X → Prop} {Q : Except ε α → W × X → Prop} {w : W} {x : X}
    (hm : Spec h (fun w' => I (w', x)) m w fun r w' => Q r (w', x)) :
    Spec (h.sum k) I (m.left : Prog (S.sum T) ε α) (w, x) Q := by
  induction m generalizing w with
  | done r => exact hm
  | call c n ih => exact ⟨hm.1, ih _ hm.2⟩

/-- The calls of a program in the first place. -/
theorem issues_left {P : (S.sum T).Call → Prop} (hm : Issues (fun c => P (.inl c)) m) :
    Issues P (m.left : Prog (S.sum T) ε α) := by
  induction m with
  | done r => trivial
  | call c n ih => exact ⟨hm.1, fun r => ih r (hm.2 r)⟩

/-- Where a program runs does not change how it can end. -/
theorem ends_left {E : Except ε α → Prop} (hm : Ends E m) :
    Ends E (m.left : Prog (S.sum T) ε α) := by
  induction m with
  | done r => exact hm
  | call c n ih => exact fun r => ih r (hm r)

end Prog

end RrSync.Lib

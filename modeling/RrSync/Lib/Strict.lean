import RrSync.Lib.Prog

/-!
# `RrSync.Lib.Strict`: programs that give up on some replies

A program is strict in the replies `Bad` when it returns no value after one of them. So a run that
returns a value has seen none, and another handler that agrees on all other replies runs it the
same way (`Strict.run`). A cleanup need not be strict, only free of such replies
(`strict_ensuring`, `strict_onError`).
-/

set_option autoImplicit false

namespace RrSync.Lib.Prog

variable {S : Sig} {ε α β W W' : Type} {Bad : (c : S.Call) → S.Reply c → Prop}

/-- After a reply of `Bad` the program returns no value. -/
def Strict (Bad : (c : S.Call) → S.Reply c → Prop) : Prog S ε α → Prop
  | .done _ => True
  | .call c k => ∀ r, (Bad c r → (k r).Returns fun _ => False) ∧ Strict Bad (k r)

/-- The call has no reply of `Bad`. -/
def Safe (Bad : (c : S.Call) → S.Reply c → Prop) (c : S.Call) : Prop := ∀ r, ¬ Bad c r

/-- A lifted result calls nothing, so nothing bad is passed over. -/
theorem strict_lift (r : Except ε α) : Strict Bad (liftM r : Prog S ε α) := trivial

/-- A program whose calls have no reply of `Bad`. -/
theorem strict_of_issues {m : Prog S ε α} (hm : Issues (Safe Bad) m) : Strict Bad m := by
  induction m with
  | done r => trivial
  | call c k ih =>
    intro r
    exact ⟨fun hr => absurd hr (hm.1 r), ih r (hm.2 r)⟩

/-- Two strict programs in sequence. -/
theorem strict_bind {m : Prog S ε α} {f : α → Prog S ε β} (hm : Strict Bad m)
    (hf : ∀ a, Strict Bad (f a)) : Strict Bad (m >>= f) := by
  show Strict Bad (m.bind f)
  induction m with
  | done r =>
    cases r with
    | ok a => exact hf a
    | error e => trivial
  | call c k ih =>
    intro r
    refine ⟨fun hr => ?_, ih r (hm r).2⟩
    exact returns_bind_returns ((hm r).1 hr) fun _ h => h.elim

/-- A loop of strict turns. -/
theorem strict_forM {xs : List α} {f : α → Prog S ε PUnit} (hf : ∀ x ∈ xs, Strict Bad (f x)) :
    Strict Bad (xs.forM f) := by
  induction xs with
  | nil => trivial
  | cons x xs ih =>
    exact strict_bind (hf x List.mem_cons_self) fun _ =>
      ih fun y hy => hf y (List.mem_cons_of_mem _ hy)

/-- A check before a strict program. -/
theorem strict_check {c : Prop} [Decidable c] {e : ε} {k : β → Prog S ε α} {m : Prog S ε α}
    (hm : Strict Bad m) : Strict Bad (if c then throw e >>= k else m) := by
  split
  · trivial
  · exact hm

/-- A program that returns no value does not begin to by a cleanup. -/
theorem returns_ensuring {m : Prog S ε α} {cleanup : Prog S ε Unit}
    (hm : m.Returns fun _ => False) : (m.ensuring cleanup).Returns fun _ => False := by
  refine returns_bind_returns (returns_attempt hm) fun r hr => returns_bind fun _ => ?_
  cases r with
  | ok a => exact (hr a rfl).elim
  | error e => trivial

/-- A clean-up whose calls cannot be answered badly. -/
theorem strict_ensuring {m : Prog S ε α} {cleanup : Prog S ε Unit} (hm : Strict Bad m)
    (hcleanup : Issues (Safe Bad) cleanup) : Strict Bad (m.ensuring cleanup) := by
  induction m with
  | done r =>
    have hrest : Strict Bad (cleanup >>= fun _ => (.done r : Prog S ε α)) :=
      strict_bind (strict_of_issues hcleanup) fun _ => trivial
    exact hrest
  | call c k ih =>
    intro r
    exact ⟨fun hr => returns_ensuring ((hm r).1 hr), ih r (hm r).2⟩

/-- The same for a clean-up on errors. -/
theorem strict_onError {m : Prog S ε α} {cleanup : Prog S ε Unit} (hm : Strict Bad m)
    (hcleanup : Issues (Safe Bad) cleanup) : Strict Bad (m.onError cleanup) := by
  induction m with
  | done r =>
    cases r with
    | ok a => trivial
    | error e =>
      have hrest : Strict Bad (cleanup >>= fun _ => (.done (.error e) : Prog S ε α)) :=
        strict_bind (strict_of_issues hcleanup) fun _ => trivial
      exact hrest
  | call c k ih =>
    intro r
    exact ⟨fun hr => returns_onError ((hm r).1 hr), ih r (hm r).2⟩

/-- A run that returns a value is a run under any handler that agrees on the replies that are not
of `Bad`. The calls of the program satisfy `P`. -/
theorem Strict.run {m : Prog S ε α} (hm : Strict Bad m) {P : S.Call → Prop} (hP : Issues P m)
    {h : Handler S W} {h' : Handler S W'} {view : W → W'}
    (hagree : ∀ c w, P c → ¬ Bad c (h c w).1 → h' c (view w) = ((h c w).1, view (h c w).2))
    {w w' : W} {a : α} (hrun : m.run h w = (.ok a, w')) :
    m.run h' (view w) = (.ok a, view w') := by
  induction m generalizing w with
  | done r =>
    obtain ⟨rfl, rfl⟩ := Prod.mk.inj hrun
    rfl
  | call c k ih =>
    rw [run_call] at hrun ⊢
    -- After a reply of `Bad` there would be no value.
    have hgood : ¬ Bad c (h c w).1 := fun hbad =>
      ((hm _).1 hbad).run (congrArg Prod.fst hrun)
    rw [hagree c w hP.1 hgood]
    exact ih _ (hm _).2 (hP.2 _) hrun

end RrSync.Lib.Prog

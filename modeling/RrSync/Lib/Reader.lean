import Mathlib.Data.List.Basic

/-!
# `RrSync.Lib.Reader`: readers that undo an encoding

A reader takes elements from the front of a list. `Exact r E` says of a reader that it
accepts exactly the encodings `E`, and returns what they encode and all that comes after
them. One rule for each way readers are put together makes the statement compositional.

Whatever is encoded is read back (`Exact.read`), whatever is read was encoded
(`Exact.encoded`), and no encoding starts another one (`Exact.prefix_free`).
-/

set_option autoImplicit false

namespace RrSync.Lib

variable {β ε α γ : Type}

/-- The reader accepts exactly the lists that start with an encoding. -/
def Exact (r : StateT (List β) (Except ε) α) (E : α → List β → Prop) : Prop :=
  ∀ s a rest, r s = .ok (a, rest) ↔ ∃ e, E a e ∧ s = e ++ rest

section
variable {r : StateT (List β) (Except ε) α} {E E' : α → List β → Prop}

/-- An exact reader reads an encoding and leaves the rest. -/
theorem Exact.read (h : Exact r E) {a : α} {e : List β} (he : E a e) (rest : List β) :
    r (e ++ rest) = .ok (a, rest) := (h _ _ _).mpr ⟨e, he, rfl⟩

/-- What an exact reader has read is an encoding of its result. -/
theorem Exact.encoded (h : Exact r E) {s rest : List β} {a : α} (hr : r s = .ok (a, rest)) :
    ∃ e, E a e ∧ s = e ++ rest := (h _ _ _).mp hr

/-- Two encodings that start the same list are the same. -/
theorem Exact.prefix_free (h : Exact r E) {a a' : α} {e e' s s' : List β} (he : E a e)
    (he' : E a' e') (hs : e ++ s = e' ++ s') : a = a' ∧ e = e' := by
  have h1 := h.read he s
  rw [hs, h.read he' s'] at h1
  obtain ⟨rfl, rfl⟩ := Prod.mk.inj (Except.ok.inj h1)
  exact ⟨rfl, List.append_cancel_right hs⟩

/-- The relation may be replaced by an equivalent one. -/
theorem Exact.congr (h : Exact r E) (hE : ∀ a e, E a e ↔ E' a e) : Exact r E' := by
  intro s a rest
  rw [h s a rest]
  exact exists_congr fun e => and_congr_left fun _ => hE a e

/-! ### How readers are put together -/

/-- `pure` reads nothing, so the encoding is empty. -/
theorem exact_pure (a : α) : Exact (β := β) (pure a : StateT (List β) (Except ε) α)
    fun b e => a = b ∧ e = [] := by
  intro s b rest
  show (Except.ok (a, s) : Except ε _) = _ ↔ _
  simp [and_comm]

/-- `throw` accepts no encoding. -/
theorem exact_throw (x : ε) : Exact (β := β) (throw x : StateT (List β) (Except ε) α)
    fun _ _ => False := by
  intro s b rest
  show (Except.error x : Except ε _) = _ ↔ _
  simp

/-- A check that takes nothing from the list. -/
theorem exact_lift (x : Except ε α) : Exact (β := β) (liftM x : StateT (List β) (Except ε) α)
    fun a e => x = .ok a ∧ e = [] := by
  intro s a rest
  cases x with
  | error x =>
    show (Except.error x : Except ε _) = _ ↔ _
    simp
  | ok b =>
    show (Except.ok (b, s) : Except ε _) = _ ↔ _
    simp [eq_comm, and_comm]

/-- One reader after another reads the encodings put one after another. The second one may
rest on what the first one has checked. -/
theorem Exact.bind_of {f : α → StateT (List β) (Except ε) γ} {F : α → γ → List β → Prop}
    (h : Exact r E) (hf : ∀ a e, E a e → Exact (f a) (F a)) :
    Exact (r >>= f) fun c e => ∃ a e₁ e₂, E a e₁ ∧ F a c e₂ ∧ e = e₁ ++ e₂ := by
  intro s c rest
  -- the monad of the reader, opened once
  have key : (r >>= f) s = .ok (c, rest) ↔
      ∃ a s', r s = .ok (a, s') ∧ f a s' = .ok (c, rest) := by
    show (r s >>= fun p => f p.1 p.2) = _ ↔ _
    cases r s with
    | error x => simp [Bind.bind, Except.bind]
    | ok p => simp [Bind.bind, Except.bind, Prod.ext_iff]
  rw [key]
  constructor
  · rintro ⟨a, s', h1, h2⟩
    obtain ⟨e₁, he₁, rfl⟩ := h.encoded h1
    obtain ⟨e₂, he₂, rfl⟩ := (hf a e₁ he₁).encoded h2
    exact ⟨e₁ ++ e₂, ⟨a, e₁, e₂, he₁, he₂, rfl⟩, (List.append_assoc _ _ _).symm⟩
  · rintro ⟨_, ⟨a, e₁, e₂, he₁, he₂, rfl⟩, rfl⟩
    refine ⟨a, e₂ ++ rest, ?_, (hf a e₁ he₁).read he₂ rest⟩
    rw [List.append_assoc]
    exact h.read he₁ _

/-- Exact readers in sequence read the encodings one after the other. -/
theorem Exact.bind {f : α → StateT (List β) (Except ε) γ} {F : α → γ → List β → Prop}
    (h : Exact r E) (hf : ∀ a, Exact (f a) (F a)) :
    Exact (r >>= f) fun c e => ∃ a e₁ e₂, E a e₁ ∧ F a c e₂ ∧ e = e₁ ++ e₂ :=
  h.bind_of fun a _ _ => hf a

/-- A reader that chooses by a condition, with an encoding for each choice. -/
theorem Exact.ite {c : Prop} [Decidable c] {r' : StateT (List β) (Except ε) α}
    (h : c → Exact r E) (h' : ¬ c → Exact r' E') :
    Exact (if c then r else r') fun a e => if c then E a e else E' a e := by
  by_cases hc : c
  · simpa only [if_pos hc] using h hc
  · simpa only [if_neg hc] using h' hc

/-- A check in front of a reader. -/
theorem Exact.guard {c : Prop} [Decidable c] {x : ε} {f : γ → StateT (List β) (Except ε) α}
    (h : Exact r E) :
    Exact (if c then throw x >>= f else r) fun a e => ¬ c ∧ E a e := by
  by_cases hc : c
  · rw [if_pos hc]
    intro s a rest
    show (Except.error x : Except ε _) = _ ↔ _
    simp [hc]
  · rw [if_neg hc]
    exact h.congr fun a e => (and_iff_right hc).symm

end

end RrSync.Lib

import Mathlib.Data.List.DropRight

/-!
# `RrSync.Lib.Machine`: runs of a state machine and their histories

A machine answers an input with an output and moves to the next state. `events` is the run
over a list of inputs, one event a step. The induction rules stated here:

* `after_invariant`: an invariant of the state that every step keeps holds of every state that
  can be reached;

* `events_invariant`: an invariant of the state that every step keeps holds around every
  event of a run;
* `events_history`: the same for an invariant that also speaks of the events so far;
* `events_evolve`: what some events open is kept, with all it has to do with the one that opened
  it and with those since then, until another one opens something else;
* `events_since`: the same for what never changes;
* `events_until`: a property that only some events keep holds until another one comes;
* `events_bisim`: states related by a bisimulation show the same.
-/

set_option autoImplicit false

namespace RrSync.Lib

variable {σ ι ο : Type}

/-- One step of a run: the state before it, the input, the output and the state after it. -/
structure Event (σ ι ο : Type) where
  pre : σ
  input : ι
  output : ο
  post : σ

/-- The event of the input `i` in the state `s`. -/
def event (step : σ → ι → ο × σ) (s : σ) (i : ι) : Event σ ι ο :=
  ⟨s, i, (step s i).1, (step s i).2⟩

/-- The events of the run over the inputs `is` from the state `s`. -/
def events (step : σ → ι → ο × σ) (s : σ) : List ι → List (Event σ ι ο)
  | [] => []
  | i :: is => event step s i :: events step (step s i).2 is

/-- The state after the inputs `is`. -/
def after (step : σ → ι → ο × σ) (s : σ) (is : List ι) : σ := is.foldl (fun s i => (step s i).2) s

variable {step : σ → ι → ο × σ}

/-- An invariant that every step keeps holds of every state that can be reached. -/
theorem after_invariant (Inv : σ → Prop) {s : σ} (h0 : Inv s)
    (hstep : ∀ s i, Inv s → Inv (step s i).2) (is : List ι) : Inv (after step s is) := by
  induction is generalizing s with
  | nil => exact h0
  | cons i is ih => exact ih (hstep s i h0)

/-- An invariant of the events so far and the state they led to holds before every event of
a run, and every event is the step from its own first state. -/
theorem events_history (Inv : List (Event σ ι ο) → σ → Prop) {s : σ} (h0 : Inv [] s)
    (hstep : ∀ past s i, Inv past s → Inv (past ++ [event step s i]) (step s i).2)
    {is : List ι} {past fut : List (Event σ ι ο)} {e : Event σ ι ο}
    (he : events step s is = past ++ e :: fut) :
    Inv past e.pre ∧ e = event step e.pre e.input := by
  -- the past grows by one event a turn, so the induction keeps it open
  suffices hs : ∀ (is : List ι) (done past : List (Event σ ι ο)) (s : σ), Inv done s →
      events step s is = past ++ e :: fut →
      Inv (done ++ past) e.pre ∧ e = event step e.pre e.input from
    hs is [] past s h0 he
  intro is
  induction is with
  | nil => intro done past s _ h; simp [events] at h
  | cons i is ih =>
    intro done past s hI h
    cases past with
    | nil =>
      simp only [events, List.nil_append, List.cons.injEq] at h
      rw [List.append_nil, ← h.1]
      exact ⟨hI, rfl⟩
    | cons x past =>
      simp only [events, List.cons_append, List.cons.injEq] at h
      have h1 := ih (done ++ [event step s i]) past _ (hstep done s i hI) h.2
      rw [← h.1]
      simpa using h1

/-- An invariant of the state that every step keeps holds around every event of a run. -/
theorem events_invariant (Inv : σ → Prop) {s : σ} (h0 : Inv s)
    (hstep : ∀ s i, Inv s → Inv (step s i).2) {is : List ι} {e : Event σ ι ο}
    (he : e ∈ events step s is) : Inv e.pre ∧ Inv e.post ∧ e = event step e.pre e.input := by
  obtain ⟨past, fut, hsplit⟩ := List.append_of_mem he
  obtain ⟨h1, h2⟩ := events_history (fun _ s => Inv s) h0 (fun _ s i => hstep s i) hsplit
  refine ⟨h1, ?_, h2⟩
  rw [h2]
  exact hstep _ _ h1

/-- What is in the state before an event was put there by the last event that opens something.
All events since then have kept what it had to do with that event and with the events in between,
or they have removed it. `Opens o since b` says what `b` has to do with the event `o` that opened it
and with the events `since`. -/
theorem events_evolve {β : Type} (cur : σ → Option β) (starts : Event σ ι ο → Bool)
    (Opens : Event σ ι ο → List (Event σ ι ο) → β → Prop) (Inv : List (Event σ ι ο) → σ → Prop)
    {s : σ} (h0 : Inv [] s) (hnone : cur s = none)
    (hinv : ∀ past s i, Inv past s → Inv (past ++ [event step s i]) (step s i).2)
    (hstart : ∀ past s i, Inv past s → starts (event step s i) = true →
      ∀ b ∈ cur (step s i).2, Opens (event step s i) [] b)
    (hkeep : ∀ past s i, Inv past s → starts (event step s i) = false →
      ∀ b' ∈ cur (step s i).2, ∃ b ∈ cur s, ∀ o,
        Opens o (past.rtakeWhile fun x => !starts x) b →
        Opens o ((past.rtakeWhile fun x => !starts x) ++ [event step s i]) b')
    {is : List ι} {past fut : List (Event σ ι ο)} {e : Event σ ι ο}
    (he : events step s is = past ++ e :: fut) : Inv past e.pre ∧ e = event step e.pre e.input ∧
      ∀ b ∈ cur e.pre, ∃ before o, past = before ++ o :: past.rtakeWhile (fun x => !starts x) ∧
        Opens o (past.rtakeWhile fun x => !starts x) b := by
  have h := events_history (fun past s => Inv past s ∧ ∀ b ∈ cur s, ∃ before o,
    past = before ++ o :: past.rtakeWhile (fun x => !starts x) ∧
      Opens o (past.rtakeWhile fun x => !starts x) b)
    ⟨h0, fun b hb => by rw [hnone] at hb; cases hb⟩ (fun past s i h => ?_) he
  · exact ⟨h.1.1, h.2, h.1.2⟩
  obtain ⟨hs, hcur⟩ := h
  refine ⟨hinv past s i hs, fun b' hb' => ?_⟩
  cases hst : starts (event step s i) with
  | true =>
    -- The event opens something, and so nothing has happened since.
    have hnil : (past ++ [event step s i]).rtakeWhile (fun x => !starts x) = [] :=
      List.rtakeWhile_concat_neg _ _ _ (by simp [hst])
    refine ⟨past, event step s i, ?_, ?_⟩
    · rw [hnil]
    · rw [hnil]
      exact hstart past s i hs hst b' hb'
  | false =>
    obtain ⟨b, hb, hopens⟩ := hkeep past s i hs hst b' hb'
    obtain ⟨before, o, hpast, ho⟩ := hcur b hb
    have hsnoc : (past ++ [event step s i]).rtakeWhile (fun x => !starts x)
        = past.rtakeWhile (fun x => !starts x) ++ [event step s i] :=
      List.rtakeWhile_concat_pos _ _ _ (by simp [hst])
    refine ⟨before, o, ?_, ?_⟩
    · rw [hsnoc, ← List.cons_append, ← List.append_assoc, ← hpast]
    · rw [hsnoc]
      exact hopens o ho

/-- The same when what is kept does not change. -/
theorem events_since {β : Type} (cur : σ → Option β) (starts : Event σ ι ο → Bool)
    (Opens : Event σ ι ο → β → Prop) (Inv : σ → Prop) {s : σ} (h0 : Inv s) (hnone : cur s = none)
    (hinv : ∀ s i, Inv s → Inv (step s i).2)
    (hstart : ∀ s i, Inv s → starts (event step s i) = true →
      ∀ b ∈ cur (step s i).2, Opens (event step s i) b)
    (hkeep : ∀ s i, Inv s → starts (event step s i) = false →
      ∀ b ∈ cur (step s i).2, b ∈ cur s)
    {is : List ι} {past fut : List (Event σ ι ο)} {e : Event σ ι ο}
    (he : events step s is = past ++ e :: fut) : Inv e.pre ∧ e = event step e.pre e.input ∧
      ∀ b ∈ cur e.pre, ∃ before o, past = before ++ o :: past.rtakeWhile (fun x => !starts x) ∧
        Opens o b :=
  events_evolve cur starts (fun o _ => Opens o) (fun _ => Inv) h0 hnone (fun _ => hinv)
    (fun _ => hstart) (fun _ s i hs hst b hb => ⟨b, hkeep s i hs hst b hb, fun _ => id⟩) he

/-- What comes after an event of a run is the run from the state after it. -/
theorem events_after {s : σ} {is : List ι} {past fut : List (Event σ ι ο)} {e : Event σ ι ο}
    (h : events step s is = past ++ e :: fut) : ∃ js, fut = events step e.post js := by
  induction is generalizing s past with
  | nil => simp [events] at h
  | cons i is ih =>
    cases past with
    | nil =>
      simp only [events, List.nil_append, List.cons.injEq] at h
      exact ⟨is, by rw [← h.1, ← h.2]; rfl⟩
    | cons x past =>
      simp only [events, List.cons_append, List.cons.injEq] at h
      exact ih h.2

/-- A property of the state that holds now and that some events keep holds until another event
comes. -/
theorem events_until (Inv : σ → Prop) (Keeps : Event σ ι ο → Prop) {s : σ} (h0 : Inv s)
    (hstep : ∀ s i, Inv s → Keeps (event step s i) → Inv (step s i).2) {is : List ι}
    {mid fut : List (Event σ ι ο)} {d : Event σ ι ο} (h : events step s is = mid ++ d :: fut)
    (hmid : ∀ x ∈ mid, Keeps x) : Inv d.pre ∧ d = event step d.pre d.input := by
  induction is generalizing s mid with
  | nil => simp [events] at h
  | cons i is ih =>
    -- the marked event is this one, or it is one of the events after it
    cases mid with
    | nil =>
      simp only [events, List.nil_append, List.cons.injEq] at h
      rw [← h.1]
      exact ⟨h0, rfl⟩
    | cons x mid =>
      simp only [events, List.cons_append, List.cons.injEq] at h
      have hx : Keeps (event step s i) := h.1 ▸ hmid x (by simp)
      exact ih (hstep s i h0 hx) h.2 fun y hy => hmid y (by simp [hy])

/-- Two states that a bisimulation relates show the same over the inputs that it allows. -/
theorem events_bisim {β : Type} (R : σ → σ → Prop) (Allowed : ι → Prop) (obs : σ → β)
    (hobs : ∀ s t, R s t → obs s = obs t)
    (hstep : ∀ s t i, R s t → Allowed i → (step s i).1 = (step t i).1 ∧ R (step s i).2 (step t i).2)
    {s t : σ} (h : R s t) {is : List ι} (his : ∀ i ∈ is, Allowed i) :
    (events step s is).map (fun e => (e.output, obs e.post))
      = (events step t is).map fun e => (e.output, obs e.post) := by
  induction is generalizing s t with
  | nil => rfl
  | cons i is ih =>
    obtain ⟨h1, h2⟩ := hstep s t i h (his i (by simp))
    simp only [events, List.map_cons]
    rw [ih h2 fun j hj => his j (by simp [hj])]
    simp only [event, h1, hobs _ _ h2]

end RrSync.Lib

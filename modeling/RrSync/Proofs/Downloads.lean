import RrSync.Lib.Strategy
import RrSync.Model.ClientV2
import RrSync.Proofs.Confined
import RrSync.Proofs.Moments

/-!
# `RrSync.Proofs.Downloads`: what a pull may do to the tree of the client

A `Seat` is the place where a client runs: it answers the calls of the client, and each call is
either one on the tree or leaves the tree alone. The pulls of both clients are one program over a
seat, `Seat.fetch`, with a body for the files of its own.

`fetch_permits` frames a pull by the effects of its plan. `fetch_placed` and `fetch_removed` are
about single objects: the place of a planned file holds the old object or a file that was checked,
and no removal is made before all files are in place and the end is confirmed. What a plan replaces
by an object of another type is the exception. It is removed when its turn comes, in `prepare` for a
directory and in `install` for a file, and until the replacement is there its place is empty.
-/

set_option autoImplicit false

namespace RrSync

open Lib

/-! ### Seats -/

/-- Where a client runs: what answers its calls, the disk of its tree, and what it has said to
the peer. -/
structure Seat (T : Sig) (W : Type) where
  handler : Prog.Handler T W
  disk : W → Disk
  said : W → List (Lib.Exchange LinkSig)
  /-- The call on the tree that a call is. -/
  call? : T.Call → Option FsCall
  /-- A program on the tree. -/
  on : {α : Type} → FsM α → Prog T Error α
  still : ∀ c s, call? c = none → disk (handler c s).2 = disk s
  moves : ∀ c s f, call? c = some f → disk (handler c s).2 = (exec f (disk s)).2
  grows : ∀ c s, said s <+: said (handler c s).2
  issues_on : ∀ {α : Type} {P : FsCall → Prop} {m : FsM α}, Calls P m →
    (on m).Issues fun c => ∀ f ∈ call? c, P f
  spec_on : ∀ {α : Type} {m : FsM α} {s : W} {I : W → Prop} {Q : Except Error α → W → Prop},
    Prog.Spec exec (fun d => ∀ s', disk s' = d → said s' = said s → I s') m (disk s)
      (fun r d => ∀ s', disk s' = d → said s' = said s → Q r s') →
    Prog.Spec handler I (on m) s Q

/-- The plan removes what is at the path to put an object of another type there, or above it. -/
def Plan.Supplants (p : Plan) (root : Root) (source : Manifest) (q : Path) : Prop :=
  ∃ e ∈ source.entries, ∃ entries, p.conflict? e.path = some entries ∧
    ∃ x ∈ entries, q = root.pathOf x.path

/-- The effects that remove an object only for a conflict that is replaced, or as a removal. -/
def clearing (root : Root) (source : Manifest) (p : Plan) : Effect := fun q old new =>
  old ≠ none → new = none →
    p.Supplants root source q ∨ ∃ x ∈ p.removals, q = root.pathOf x.path

section
variable {root : Root} {source destination : Manifest} {options : Options} {p : Plan} {q : Path}

/-- Nothing at all clears only what a conflict clears. -/
theorem clearing_refl (x : Option Node) : clearing root source p q x x := by
  intro hold hnew
  exact absurd hnew hold

/-- An object that is gone in the end went in one of the steps. -/
theorem clearing_trans {x y z : Option Node} (h : clearing root source p q x y)
    (h' : clearing root source p q y z) : clearing root source p q x z := by
  intro hold hnew
  by_cases hy : y = none
  · exact h hold hy
  · exact h' hy hnew

/-- A new time clears nothing. -/
theorem clearing_stamps : (clearing root source p).Stamps q := by
  intro old new h hold hnew
  obtain ⟨n, n', rfl, rfl, -⟩ := h
  cases hnew

/-- A new directory clears nothing. -/
theorem clearing_makesTo : (clearing root source p).MakesTo q := by
  intro a _ _
  refine ⟨fun n _ hold _ => absurd rfl hold, clearing_stamps⟩

/-- The steps of a plan remove an object only where the lists of the plan say so. -/
theorem permits_clearing : Permits (clearing root source p) root source destination options p where
  base := clearing_makesTo
  directory _ _ _ := ⟨clearing_makesTo, clearing_stamps⟩
  file _ _ _ := ⟨clearing_stamps, fun _ _ _ _ _ _ hnew => by cases hnew⟩
  conflict e he entries hentries x hx :=
    ⟨clearing_stamps, fun _ _ _ => .inl ⟨e, he, entries, hentries, x, hx, rfl⟩⟩
  removal x hx := ⟨clearing_stamps, fun _ _ _ => .inr ⟨x, hx, rfl⟩⟩

end

/-- What a peer was told and what it answered says of the file `i` whether its content is good. -/
abbrev Goodness := List (Lib.Exchange LinkSig) → Nat → Entry → Bytes → Prop

namespace Seat

variable {T : Sig} {W α : Type} (seat : Seat T W)

/-- The body of the object at a path. -/
def body (s : W) (q : Path) : Option Body := ((seat.disk s).tree.get q).map Node.body

/-- The call is none on the tree, or one that satisfies `P`. -/
def Touches (P : FsCall → Prop) (c : T.Call) : Prop := ∀ f ∈ seat.call? c, P f

/-- All changes to the tree are effects `E`. -/
def Framed (E : Effect) (s s' : W) : Prop :=
  ∀ q, E q ((seat.disk s).tree.get q) ((seat.disk s').tree.get q)

/-- The object at a path has the same body, and nothing that was said is taken back. -/
def SameAt (q : Path) (s s' : W) : Prop :=
  seat.body s' q = seat.body s q ∧ seat.said s <+: seat.said s'

/-- The place of the file `i` holds what it held or a good file, or nothing where the file
replaces an object of another type. -/
def KeptAt (replaced : Prop) (good : Goodness) (q : Path) (i : Nat) (e : Entry) (s s' : W) : Prop :=
  Kept replaced (good (seat.said s') i e) (seat.body s q) (seat.body s' q)

/-- The place of the file `i` holds a good file. -/
def PlacedAt (good : Goodness) (q : Path) (i : Nat) (e : Entry) (s : W) : Prop :=
  ∃ data, seat.body s q = some (.file data) ∧ good (seat.said s) i e data

/-- What has been said is good enough for longer. -/
def Lasting (good : Goodness) : Prop :=
  ∀ said more i e data, said <+: more → good said i e data → good more i e data

variable {seat} {replaced : Prop} {good : Goodness} {q : Path} {i : Nat} {e : Entry} {s₀ s s' s'' : W}
  {m : Prog T Error α}

/-- The state itself. -/
theorem SameAt.refl : seat.SameAt q s s := ⟨rfl, List.prefix_refl _⟩

/-- One step after the other. -/
theorem SameAt.trans (h : seat.SameAt q s s') (h' : seat.SameAt q s' s'') :
    seat.SameAt q s s'' := ⟨h'.1.trans h.1, h.2.trans h'.2⟩

/-- A place is kept when nothing happens there. -/
theorem KeptAt.same (hgood : Lasting good) (h : seat.KeptAt replaced good q i e s₀ s)
    (hs : seat.SameAt q s s') : seat.KeptAt replaced good q i e s₀ s' := by
  unfold KeptAt
  rw [hs.1]
  exact Kept.imp h fun data => hgood _ _ i e data hs.2

/-- A file stays placed when nothing happens there. -/
theorem PlacedAt.same (hgood : Lasting good) (h : seat.PlacedAt good q i e s)
    (hs : seat.SameAt q s s') : seat.PlacedAt good q i e s' := by
  obtain ⟨data, hd, hg⟩ := h
  exact ⟨data, hs.1.trans hd, hgood _ _ i e data hs.2 hg⟩

/-- A program that makes no call on the tree. -/
abbrev Aside (seat : Seat T W) (m : Prog T Error α) : Prop :=
  m.Issues (seat.Touches fun _ => False)

/-- A part that does not touch the tree touches only what is allowed. -/
theorem Aside.touches (hm : seat.Aside m) {P : FsCall → Prop} : m.Issues (seat.Touches P) :=
  Prog.Issues.mono hm fun _ hc f hf => (hc f hf).elim

/-- What was said is never taken back. -/
theorem said_of_moment (hs : m.Moment seat.handler s s') : seat.said s <+: seat.said s' :=
  hs.invariant (I := fun s' => seat.said s <+: seat.said s') (List.prefix_refl _)
    fun c v hv => hv.trans (seat.grows c v)

/-- A run only adds to what was said. -/
theorem said_of_run {r : Except Error α} (h : m.run seat.handler s = (r, s')) :
    seat.said s <+: seat.said s' := by
  have hs := said_of_moment (Prog.moment_run seat.handler m s)
  rwa [h] at hs

/-- A part of a session has only the effects of its calls. -/
theorem spec_framed {E : Effect} (htrans : ∀ q x y z, E q x y → E q y z → E q x z)
    (hm : m.Issues (seat.Touches (FsCall.Safe E))) (hs : seat.Framed E s₀ s) :
    Prog.Spec seat.handler (seat.Framed E s₀) m s fun _ => seat.Framed E s₀ := by
  refine Prog.Issues.spec hm (fun c v hc hv => ?_) hs
  intro q
  cases hf : seat.call? c with
  | none =>
    rw [seat.still c v hf]
    exact hv q
  | some f =>
    rw [seat.moves c v f hf]
    exact keeps_safe htrans (hc f hf) hv q

/-- A part whose calls leave a path alone. -/
theorem spec_same (hm : m.Issues (seat.Touches (FsCall.Safe (fixed q)))) :
    Prog.Spec seat.handler (seat.SameAt q s) m s fun _ => seat.SameAt q s := by
  have hstart : seat.Framed (fixed q) s s := fun _ => fixed_refl _ _
  refine ((spec_framed (fixed_trans (p := q)) hm hstart).and
    (Prog.spec_of_run (fun _ => said_of_moment)
      (said_of_moment (Prog.moment_run seat.handler m s)))).mono
    (fun s' hs' => ⟨hs'.1 q rfl, hs'.2⟩) fun _ s' hs' => ⟨hs'.1 q rfl, hs'.2⟩

/-- An object that a program does not touch is the same at each of its moments. -/
theorem same_of_moment (hm : m.Issues (seat.Touches (FsCall.Safe (fixed q))))
    (hs : m.Moment seat.handler s s') : seat.SameAt q s s' :=
  (spec_same hm).moment .refl hs

/-- What keeps the object at the place of the file keeps the place. -/
theorem spec_kept_same (hgood : Lasting good) (hs : seat.KeptAt replaced good q i e s₀ s)
    (hm : m.Issues (seat.Touches (FsCall.Safe (fixed q)))) :
    Prog.Spec seat.handler (seat.KeptAt replaced good q i e s₀) m s
      fun _ => seat.KeptAt replaced good q i e s₀ :=
  (spec_same hm).mono (fun _ => hs.same hgood) fun _ _ => hs.same hgood

/-- What is known when the body of the loop is done with the file `i`. -/
def Fetched (seat : Seat T W) (replaced : Prop) (good : Goodness) (q : Path) (i : Nat) (e : Entry) (s₀ : W)
    (r : Except Error Unit) (s : W) : Prop :=
  seat.KeptAt replaced good q i e s₀ s ∧ ∀ u, r = .ok u → seat.PlacedAt good q i e s

/-- A fetch that fails places nothing. -/
theorem fetched_error {err : Error} (hs : seat.KeptAt replaced good q i e s₀ s) :
    seat.Fetched replaced good q i e s₀ (.error err) s := ⟨hs, fun _ h => by cases h⟩

/-- What is done away from the tree does not matter, but for what was said. -/
theorem spec_aside_bind {k : α → Prog T Error Unit} (hgood : Lasting good) (hm : seat.Aside m)
    (hs : seat.KeptAt replaced good q i e s₀ s)
    (hk : ∀ a s', m.run seat.handler s = (.ok a, s') → seat.KeptAt replaced good q i e s₀ s' →
      Prog.Spec seat.handler (seat.KeptAt replaced good q i e s₀) (k a) s' (seat.Fetched replaced good q i e s₀)) :
    Prog.Spec seat.handler (seat.KeptAt replaced good q i e s₀) (m >>= k) s
      (seat.Fetched replaced good q i e s₀) := by
  have hkept (s' : W) (h : m.Moment seat.handler s s') : seat.KeptAt replaced good q i e s₀ s' :=
    hs.same hgood (same_of_moment hm.touches h)
  have hend := hkept _ (Prog.moment_run seat.handler m s)
  refine Prog.spec_bind.mpr (Prog.spec_of_run hkept ?_)
  cases hr : (m.run seat.handler s).1 with
  | error err => exact fetched_error hend
  | ok a => exact hk a _ (Prog.run_eq_of_fst hr) hend

/-- What is done away from the tree, after the file is in place. -/
theorem spec_fetched {m : Prog T Error Unit} (hgood : Lasting good) (hm : seat.Aside m)
    (hs : seat.Fetched replaced good q i e s₀ (.ok ()) s) :
    Prog.Spec seat.handler (seat.KeptAt replaced good q i e s₀) m s (seat.Fetched replaced good q i e s₀) :=
  (spec_same hm.touches).mono (fun _ => hs.1.same hgood) fun _ _ h =>
    ⟨hs.1.same hgood h, fun _ _ => (hs.2 () rfl).same hgood h⟩

/-- The clean-up of a fetch does not touch the tree. -/
theorem spec_onError {m cleanup : Prog T Error Unit} (hgood : Lasting good)
    (hcleanup : seat.Aside cleanup)
    (hm : Prog.Spec seat.handler (seat.KeptAt replaced good q i e s₀) m s (seat.Fetched replaced good q i e s₀)) :
    Prog.Spec seat.handler (seat.KeptAt replaced good q i e s₀) (m.onError cleanup) s
      (seat.Fetched replaced good q i e s₀) := by
  refine Prog.spec_onError (hm.imp fun r s' h => ?_)
  cases r with
  | ok u => exact h
  | error err =>
    refine (spec_kept_same hgood h.1 hcleanup.touches).imp ?_
    rintro (err' | u) s'' h' <;> exact fetched_error h'

/-! ### Pulls -/

section
variable [Sha256] {root : Root} {source destination : Manifest} {options : Options} {p : Plan}

/-- An installation puts a good file in its place. -/
theorem spec_install {e' : Entry} {file : Bytes} (hpath : e'.path = e.path)
    (hyields : file.length = e'.size → (∀ x ∈ e'.hash, x = digest file) →
      good (seat.said s) i e file)
    (hs : seat.KeptAt (p.Replaces e.path) good (root.pathOf e.path) i e s₀ s) :
    Prog.Spec seat.handler (seat.KeptAt (p.Replaces e.path) good (root.pathOf e.path) i e s₀)
      (seat.on (install root e' destination p file)) s
      (seat.Fetched (p.Replaces e.path) good (root.pathOf e.path) i e s₀) := by
  -- A content with the size and the hash of the entry is a good one.
  have hgood (h : Reading.Yields ⟨reads file, none⟩ e'.size e'.hash) :
      good (seat.said s) i e (reads file).flatten := by
    obtain ⟨-, hsize, hhash⟩ := h
    rw [reads_flatten] at hsize hhash ⊢
    exact hyields hsize hhash
  have hspec := @spec_kept _ root e e' destination p ⟨reads file, none⟩ (good (seat.said s) i e)
    (seat.disk s₀) (seat.disk s) hpath hgood hs
  have hplaced := Prog.spec_of_run (h := exec) (I := fun _ => True) (m := install root e' destination p file)
    (w := seat.disk s) (fun _ _ => trivial) (Q := fun r d => ∀ u, r = .ok u → ∃ data,
      (d.tree.get (root.pathOf e.path)).map Node.body = some (.file data) ∧
      good (seat.said s) i e data) ?_
  · refine seat.spec_on ((hspec.and hplaced).mono (fun d hd s' hdisk hsaid => ?_)
      fun r d hd s' hdisk hsaid => ⟨?_, fun u hu => ?_⟩)
    · have hk := hd.1
      unfold KeptAt body
      rwa [hdisk, hsaid]
    · have hk := hd.1
      unfold KeptAt body
      rwa [hdisk, hsaid]
    · obtain ⟨data, hdata, hg⟩ := hd.2 u hu
      exact ⟨data, by rw [body, hdisk]; exact hdata, by rwa [hsaid]⟩
  -- When the install returns, the file is in its place.
  · intro u hrun
    obtain ⟨hsize, hhash, -, n, hn, hb, -⟩ := install_run (Prod.ext hrun rfl)
    rw [hpath] at hn
    exact ⟨file, by rw [hn, Option.map_some, hb], hyields hsize hhash⟩

/-- A pull, with the body of its loop and its end. -/
def fetch (seat : Seat T W) (root : Root) (source : Manifest) (p : Plan)
    (body : Nat → Prog T Error Unit) (close : Prog T Error Unit) : Prog T Error Unit := do
  seat.on (prepare root source p)
  p.files.forM body
  close
  seat.on (finish root source p)

/-- What the body of the loop does to the tree: it installs its file, if it is good. -/
structure Fetches (seat : Seat T W) (root : Root) (source destination : Manifest) (p : Plan)
    (good : Goodness) (body : Nat → Prog T Error Unit) : Prop where
  calls : ∀ {E : Effect} {i : Nat} {e : Entry}, i ∈ p.files → source.entries[i]? = some e →
    (∀ e' file, e'.path = e.path → Calls (FsCall.Safe E) (install root e' destination p file)) →
    (body i).Issues (seat.Touches (FsCall.Safe E))
  placed : ∀ {i : Nat} {e : Entry} {s₀ s : W}, i ∈ p.files → source.entries[i]? = some e →
    seat.KeptAt (p.Replaces e.path) good (root.pathOf e.path) i e s₀ s →
    Prog.Spec seat.handler (seat.KeptAt (p.Replaces e.path) good (root.pathOf e.path) i e s₀) (body i) s
      (seat.Fetched (p.Replaces e.path) good (root.pathOf e.path) i e s₀)

variable (hp : plan source destination options = .ok p) {body : Nat → Prog T Error Unit}
  {close : Prog T Error Unit} (hbody : seat.Fetches root source destination p good body)
  (hclose : seat.Aside close)
include hp hbody hclose

/-- At every moment of a pull, what has changed is among the effects of its plan. -/
theorem fetch_permits {E : Effect} (hE : Permits E root source destination options p)
    (hrefl : ∀ q x, E q x x) (htrans : ∀ q x y z, E q x y → E q y z → E q x z)
    (hs : (seat.fetch root source p body close).Moment seat.handler s s') :
    seat.Framed E s s' := by
  have hstart : seat.Framed E s s := fun q => hrefl q _
  refine (spec_framed htrans ?_ hstart).moment hstart hs
  refine Prog.issues_bind (seat.issues_on (hE.prepare hp)) fun _ => Prog.issues_bind ?_ fun _ =>
    Prog.issues_bind hclose.touches fun _ => seat.issues_on (hE.finish hp)
  refine Prog.issues_forM fun j hj => ?_
  obtain ⟨d, hd, -⟩ := (mem_files hp).mp hj
  exact hbody.calls hj hd fun e' file hpath => hE.install hp hj hd hpath

/-- The place of a planned file holds the old object or a good file. It is empty only where the
file replaces an object of another type. -/
theorem fetch_placed (hgood : Lasting good) (hi : i ∈ p.files) (he : source.entries[i]? = some e)
    (hs : (seat.fetch root source p body close).Moment seat.handler s s') :
    seat.KeptAt (p.Replaces e.path) good (root.pathOf e.path) i e s s' := by
  have h0 : seat.KeptAt (p.Replaces e.path) good (root.pathOf e.path) i e s s := .inl rfl
  have hspec : Prog.Spec seat.handler (seat.KeptAt (p.Replaces e.path) good (root.pathOf e.path) i e s)
      (seat.fetch root source p body close) s
      fun _ => seat.KeptAt (p.Replaces e.path) good (root.pathOf e.path) i e s := by
    refine Prog.spec_bind.mpr ((spec_kept_same hgood h0
      (seat.issues_on (planned_prepare hp hi he))).imp ?_)
    rintro (err | u) s₁ h₁
    · exact h₁
    refine Prog.spec_bind.mpr ((Prog.spec_forM_inv h₁ fun j hj s₂ h₂ => ?_).imp ?_)
    -- The turn of this file keeps or places it, and the turns of the others stay away from it.
    · by_cases hji : j = i
      · subst hji
        exact (hbody.placed hj he h₂).imp fun _ _ h => h.1
      · obtain ⟨d, hd, -⟩ := (mem_files hp).mp hj
        refine spec_kept_same hgood h₂ (hbody.calls hj hd fun e' file hpath => ?_)
        refine planned_install hp he (List.mem_of_getElem? hd) hpath ?_
        rintro rfl
        exact hji ((plan_ok.mp hp).1.index_inj hd he)
    · rintro (err | u) s₂ h₂
      · exact h₂
      refine Prog.spec_bind.mpr ((spec_kept_same hgood h₂ hclose.touches).imp ?_)
      rintro (err | u) s₃ h₃
      · exact h₃
      · exact spec_kept_same hgood h₃ (seat.issues_on (planned_finish hp he))
  exact hspec.moment h0 hs

/-- Nothing is removed before every planned file is in place and the end is confirmed. -/
theorem fetch_removed (hgood : Lasting good) {Done : List (Lib.Exchange LinkSig) → Prop}
    (hdone : ∀ said more, said <+: more → Done said → Done more)
    (hclosed : ∀ s s', close.run seat.handler s = (.ok (), s') → Done (seat.said s'))
    {x : Entry} (hx : x ∈ p.removals)
    (hs : (seat.fetch root source p body close).Moment seat.handler s s') :
    seat.body s' (root.pathOf x.path) = seat.body s (root.pathOf x.path) ∨
      Done (seat.said s') ∧ ∀ i ∈ p.files, ∀ e, source.entries[i]? = some e →
        seat.PlacedAt good (root.pathOf e.path) i e s' := by
  let Same (s' : W) : Prop := seat.SameAt (root.pathOf x.path) s s'
  let All (is : List Nat) (s' : W) : Prop := ∀ i ∈ is, ∀ e, source.entries[i]? = some e →
    seat.PlacedAt good (root.pathOf e.path) i e s'
  -- Until the peer has confirmed the end, the object is as it was. After it, all files are in
  -- place.
  let I (s' : W) : Prop := Same s' ∨ Done (seat.said s') ∧ All p.files s'
  have hspec : Prog.Spec seat.handler I (seat.fetch root source p body close) s fun _ => I := by
    refine Prog.spec_bind.mpr ((spec_same (seat.issues_on (removal_prepare hp hx))).mono
      (fun _ => .inl) ?_)
    rintro (err | u) s₁ h₁
    · exact .inl h₁
    refine Prog.spec_bind.mpr (Prog.spec_forM (fun pre s' => Same s' ∧ All pre s')
      ⟨h₁, fun _ h => absurd h List.not_mem_nil⟩ (fun pre j post s₂ hfiles h₂ => ?_) fun s₂ h₂ => ?_)
    · -- One turn of the loop: the removal stays, and so do the files that are in place.
      have hj : j ∈ p.files := by simp [hfiles]
      obtain ⟨d, hd, -⟩ := (mem_files hp).mp hj
      have hsame (s' : W) (h : (body j).Moment seat.handler s₂ s') : Same s' :=
        h₂.1.trans (same_of_moment (hbody.calls hj hd fun e' file hpath =>
          removal_install hp hx (List.mem_of_getElem? hd) hpath) h)
      have hrun := Prog.moment_run seat.handler (body j) s₂
      refine Prog.spec_of_run (fun s' h => .inl (hsame s' h)) ?_
      have hstart : seat.KeptAt (p.Replaces d.path) good (root.pathOf d.path) j d s₂ s₂ := .inl rfl
      have hplaced := (hbody.placed hj hd hstart).run
      cases hr : ((body j).run seat.handler s₂).1 with
      | error err => exact .inl (hsame _ hrun)
      | ok u =>
        refine ⟨hsame _ hrun, fun i hi e he => ?_⟩
        by_cases hij : i = j
        · subst hij
          obtain rfl := Option.some.inj (hd.symm.trans he)
          exact hplaced.2 u hr
        · have hi : i ∈ pre := (List.mem_append.mp hi).resolve_right (by simpa using hij)
          refine (h₂.2 i hi e he).same hgood (same_of_moment
            (hbody.calls hj hd fun e' file hpath => ?_) hrun)
          refine planned_install hp he (List.mem_of_getElem? hd) hpath ?_
          rintro rfl
          exact hij ((plan_ok.mp hp).1.index_inj he hd)
    · refine Prog.spec_bind.mpr (Prog.spec_of_run
        (fun s' h => .inl (h₂.1.trans (same_of_moment hclose.touches h))) ?_)
      have hrun := Prog.moment_run seat.handler close s₂
      cases hr : (close.run seat.handler s₂).1 with
      | error err => exact .inl (h₂.1.trans (same_of_moment hclose.touches hrun))
      | ok u =>
        have hend : Done (seat.said (close.run seat.handler s₂).2) ∧
            All p.files (close.run seat.handler s₂).2 :=
          ⟨hclosed _ _ (Prod.ext hr rfl), fun i hi e he => (h₂.2 i hi e he).same hgood
            (same_of_moment hclose.touches hrun)⟩
        have hkeep (s' : W) (h : (seat.on (finish root source p)).Moment seat.handler
            (close.run seat.handler s₂).2 s') : I s' := by
          have hsame (i : Nat) (e : Entry) (he : source.entries[i]? = some e) :
              seat.SameAt (root.pathOf e.path) (close.run seat.handler s₂).2 s' :=
            same_of_moment (seat.issues_on (planned_finish hp he)) h
          refine .inr ⟨?_, fun i hi e he => (hend.2 i hi e he).same hgood (hsame i e he)⟩
          exact hdone _ _ (said_of_moment h) hend.1
        exact Prog.spec_of_run hkeep (hkeep _ (Prog.moment_run _ _ _))
  refine (hspec.moment (.inl .refl) hs).imp (fun h => h.1) id

end

/-- What a client takes from the things that were said. -/
structure Terms where
  /-- The session was opened with this manifest. -/
  listed : List (Lib.Exchange LinkSig) → Manifest → Prop
  good : Goodness
  /-- The end of the session was confirmed. -/
  closed : List (Lib.Exchange LinkSig) → Prop

/-- Nothing that is said later takes it back. -/
structure Terms.Lasting (terms : Terms) : Prop where
  listed : ∀ said more remote, said <+: more → terms.listed said remote → terms.listed more remote
  good : Seat.Lasting terms.good
  closed : ∀ said more, said <+: more → terms.closed said → terms.closed more

section
variable {root : Root} {source destination : Manifest} {options : Options} {p : Plan}
  {terms : Terms}

/-- What a pull has done to the tree, at one of its moments. -/
structure Pulled (seat : Seat T W) (root : Root) (source destination : Manifest) (p : Plan)
    (terms : Terms) (s s' : W) : Prop where
  /-- It changes at the paths of the plan, below the root. -/
  within : seat.Framed (confined root.base.utf8 (p.entries source)) s s'
  /-- What is protected by an entry of either manifest stays. -/
  spared : seat.Framed (sparing root source destination) s s'
  /-- The place of a planned file holds the old object or a good file. It is empty only where the
  file replaces an object of another type. -/
  placed : ∀ i ∈ p.files, ∀ e, source.entries[i]? = some e →
    seat.KeptAt (p.Replaces e.path) terms.good (root.pathOf e.path) i e s s'
  /-- No removal of the plan is made before every planned file is in place and the end is
  confirmed. -/
  removed : ∀ x ∈ p.removals, seat.body s' (root.pathOf x.path) = seat.body s (root.pathOf x.path) ∨
    terms.closed (seat.said s') ∧ ∀ i ∈ p.files, ∀ e, source.entries[i]? = some e →
      seat.PlacedAt terms.good (root.pathOf e.path) i e s'
  /-- Nothing else goes away, but what is replaced by an object of another type. -/
  cleared : ∀ q, seat.body s q ≠ none → seat.body s' q = none → p.Supplants root source q ∨
    (∃ x ∈ p.removals, q = root.pathOf x.path) ∧ terms.closed (seat.said s') ∧
      ∀ i ∈ p.files, ∀ e, source.entries[i]? = some e →
        seat.PlacedAt terms.good (root.pathOf e.path) i e s'

/-- A pull whose files are fetched as `Fetches` asks is what `Pulled` says, at every moment. -/
theorem fetch_pulled [Sha256] (hp : plan source destination options = .ok p)
    {body : Nat → Prog T Error Unit} {close : Prog T Error Unit}
    (hbody : seat.Fetches root source destination p terms.good body) (hclose : seat.Aside close)
    (hlasting : terms.Lasting)
    (hclosed : ∀ s s', close.run seat.handler s = (.ok (), s') → terms.closed (seat.said s'))
    (hs : (seat.fetch root source p body close).Moment seat.handler s s') :
    seat.Pulled root source destination p terms s s' where
  within := fetch_permits hp hbody hclose (permits_confined hp) (fun _ => confined_refl)
    (fun _ _ _ _ => confined_trans) hs
  spared := fetch_permits hp hbody hclose (permits_sparing hp) sparing_refl sparing_trans hs
  placed _ hi _ he := fetch_placed hp hbody hclose hlasting.good hi he hs
  removed _ hx := fetch_removed hp hbody hclose hlasting.good hlasting.closed hclosed hx hs
  cleared q hold hnew := by
    have hclearing : Permits (clearing root source p) root source destination options p :=
      permits_clearing
    have hframe := fetch_permits hp hbody hclose hclearing (fun _ => clearing_refl)
      (fun _ _ _ _ => clearing_trans) hs q
    have hgone := hframe (fun h => hold (by rw [Seat.body, h]; rfl))
      (Option.map_eq_none_iff.mp hnew)
    -- What has gone was cleared for a conflict, or is a removal, which is gone only after the end.
    rcases hgone with hclears | ⟨x, hx, rfl⟩
    · exact .inl hclears
    · have hkept := fetch_removed hp hbody hclose hlasting.good hlasting.closed hclosed hx hs
      refine .inr ⟨⟨x, hx, rfl⟩, hkept.resolve_left fun hsame => ?_⟩
      exact hold (hsame.symm.trans hnew)

/-- What happens away from the tree changes nothing, before a pull and after it. -/
theorem Pulled.same (h : seat.Pulled root source destination p terms s s')
    (hlasting : terms.Lasting) {s₀ : W} (h₀ : seat.disk s = seat.disk s₀)
    (hdisk : seat.disk s'' = seat.disk s') (hsaid : seat.said s' <+: seat.said s'') :
    seat.Pulled root source destination p terms s₀ s'' := by
  -- Nothing differs in the disk, and no less was said.
  have hsame (q : Path) : seat.SameAt q s' s'' := ⟨by rw [body, body, hdisk], hsaid⟩
  have hbody (q : Path) : seat.body s q = seat.body s₀ q := by rw [body, body, h₀]
  have hplaced (i : Nat) (e : Entry) (h : seat.PlacedAt terms.good (root.pathOf e.path) i e s') :
      seat.PlacedAt terms.good (root.pathOf e.path) i e s'' := h.same hlasting.good (hsame _)
  refine ⟨?_, ?_, fun i hi e he => ?_, fun x hx => ?_, fun q hold hnew => ?_⟩
  · unfold Framed
    rw [hdisk, ← h₀]
    exact h.within
  · unfold Framed
    rw [hdisk, ← h₀]
    exact h.spared
  · have hkept := (h.placed i hi e he).same hlasting.good (hsame _)
    unfold KeptAt at hkept ⊢
    rwa [← hbody]
  · rw [(hsame _).1, ← hbody]
    exact (h.removed x hx).imp id fun h => ⟨hlasting.closed _ _ hsaid h.1,
      fun i hi e he => hplaced i e (h.2 i hi e he)⟩
  · rw [(hsame q).1] at hnew
    rw [← hbody] at hold
    exact (h.cleared q hold hnew).imp id fun h => ⟨h.1, hlasting.closed _ _ hsaid h.2.1,
      fun i hi e he => hplaced i e (h.2.2 i hi e he)⟩

end

/-- A program with calls that only look leaves the disk as it is. -/
theorem disk_of_moment (hm : m.Issues (seat.Touches FsCall.Reads))
    (hs : m.Moment seat.handler s s') : seat.disk s' = seat.disk s := by
  refine Prog.Spec.moment (I := fun s' => seat.disk s' = seat.disk s)
    (Prog.Issues.spec hm (fun c v hc hv => ?_) rfl) rfl hs
  cases hf : seat.call? c with
  | none => exact (seat.still c v hf).trans hv
  | some f => exact (seat.moves c v f hf).trans (((hc f hf).exec_snd _).trans hv)

/-! ### Sessions -/

section
variable {root : Root} {scan : Scan} {job : SyncRequest} {remote : Manifest} {terms : Terms}

/-- What a session has done to the tree of the client, at one of its moments: nothing, or what its
pull has done. -/
inductive Survives (seat : Seat T W) (root : Root) (scan : Scan) (job : SyncRequest) (terms : Terms)
    (s s' : W) : Prop
  | still (disk : seat.disk s' = seat.disk s)
  | pulled {remote : Manifest} {p : Plan} (pull : job.push = false)
      (real : job.options.dryRun = false) (listed : terms.listed (seat.said s') remote)
      (planned : plan remote scan.manifest job.options = .ok p)
      (pulled : seat.Pulled root remote scan.manifest p terms s s')

/-- What survives does so when the tree stays. -/
theorem Survives.same (h : seat.Survives root scan job terms s s') (hlasting : terms.Lasting) {s₀ : W}
    (h₀ : seat.disk s = seat.disk s₀) (hdisk : seat.disk s'' = seat.disk s')
    (hsaid : seat.said s' <+: seat.said s'') : seat.Survives root scan job terms s₀ s'' := by
  cases h with
  | still h => exact .still (hdisk.trans (h.trans h₀))
  | pulled hpull hreal hlisted hplan h =>
    exact .pulled hpull hreal (hlasting.listed _ _ _ hsaid hlisted) hplan
      (h.same hlasting h₀ hdisk hsaid)

/-- A session that ends at once leaves the tree. -/
theorem survives_throw {e : Error}
    (hs : (throw e : Prog T Error Unit).Moment seat.handler s s') :
    seat.Survives root scan job terms s s' := .still (congrArg seat.disk (hs.resolve_right id))

/-- What comes before a session, away from the tree. -/
theorem survives_bind {k : α → Prog T Error Unit} (hlasting : terms.Lasting) (hm : seat.Aside m)
    (hk : ∀ a s₁, m.run seat.handler s = (.ok a, s₁) → (k a).Moment seat.handler s₁ s' →
      seat.Survives root scan job terms s₁ s')
    (hs : (m >>= k).Moment seat.handler s s') : seat.Survives root scan job terms s s' := by
  rcases Prog.moment_bind hs with hs | ⟨a, s₁, hrun, hs⟩
  · exact .still (disk_of_moment hm.touches hs)
  · have hs₁ := Prog.moment_run seat.handler m s
    rw [hrun] at hs₁
    exact (hk a s₁ hrun hs).same hlasting (disk_of_moment hm.touches hs₁) rfl (List.prefix_refl _)

/-- What comes after a session, away from the tree. -/
theorem survives_close {m : Prog T Error Unit} {close : Prog T Error Unit} (hlasting : terms.Lasting)
    (hclose : seat.Aside close)
    (hm : ∀ s', m.Moment seat.handler s s' → seat.Survives root scan job terms s s')
    (hs : (m.attempt >>= fun r => close >>= fun _ => liftM r : Prog T Error Unit).Moment
      seat.handler s s') : seat.Survives root scan job terms s s' := by
  have hattempt (s' : W) (h : (m.attempt : Prog T Error _).Moment seat.handler s s') :
      seat.Survives root scan job terms s s' := hm s' (h.imp id Prog.visits_attempt.mp)
  rcases Prog.moment_bind hs with hs | ⟨r, s₁, hrun, hs⟩
  · exact hattempt _ hs
  · have hs₁ := hattempt _ (Prog.moment_run seat.handler _ s)
    rw [hrun] at hs₁
    have haside : seat.Aside (close >>= fun _ => liftM r : Prog T Error Unit) :=
      Prog.issues_bind hclose fun _ => trivial
    exact hs₁.same hlasting rfl (disk_of_moment haside.touches hs) (said_of_moment hs)

/-- A pull, once the peer has sent its manifest. -/
theorem survives_pull [Sha256] {body : Plan → Nat → Prog T Error Unit} {close : Prog T Error Unit}
    (hpull : job.push = false) (hlisted : terms.listed (seat.said s) remote)
    (hbody : ∀ p, plan remote scan.manifest job.options = .ok p →
      seat.Fetches root remote scan.manifest p terms.good (body p))
    (hclose : seat.Aside close) (hlasting : terms.Lasting)
    (hclosed : ∀ s s', close.run seat.handler s = (.ok (), s') → terms.closed (seat.said s'))
    (hs : ((liftM (plan remote scan.manifest job.options) : Prog T Error Plan) >>= fun p =>
      if job.options.dryRun then close else seat.fetch root remote p (body p) close).Moment
        seat.handler s s') : seat.Survives root scan job terms s s' := by
  have haside : seat.Aside (liftM (plan remote scan.manifest job.options) : Prog T Error Plan) :=
    trivial
  refine survives_bind hlasting haside (fun p s₁ hplan hs => ?_) hs
  obtain ⟨hp, rfl⟩ := Prog.run_lift_eq_ok.mp hplan
  split at hs
  · exact .still (disk_of_moment hclose.touches hs)
  · next hreal =>
    exact .pulled hpull (Bool.eq_false_iff.mpr hreal)
      (hlasting.listed _ _ _ (said_of_moment hs) hlisted) hp
      (fetch_pulled hp (hbody p hp) hclose hlasting hclosed hs)

end

end Seat

end RrSync

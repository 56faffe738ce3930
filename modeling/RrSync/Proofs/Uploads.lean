import RrSync.Proofs.Marks
import RrSync.Proofs.Moments
import RrSync.Proofs.Phases
import RrSync.Proofs.Authority
import Mathlib.Data.List.DropRight

/-!
# `RrSync.Proofs.Uploads`: the order of an upload

`Session.Tracked` is an invariant of a session and of the calls since its START: a file that
is done was installed by one of these calls, a file that is pending was begun by one of them,
and what has been received came after that. `uploads_ordered` follows: nothing is removed
before every file of the plan is installed, every file is installed at most once, from a file
that came between its BEGIN and its COMMIT, and `prepare` runs at most once.
-/

set_option autoImplicit false

namespace RrSync

open Lib

/-! ### An object that a step leaves alone -/

/-- The effects that leave the object at `p` as it is, but for its time. -/
def fixed (p : Path) : Effect := fun q old new => q = p → new.map Node.body = old.map Node.body

/-- An object that nothing happens to is fixed. -/
theorem fixed_refl {p : Path} (q : Path) (x : Option Node) : fixed p q x x := fun _ => rfl

/-- An object that is fixed twice is fixed. -/
theorem fixed_trans {p : Path} (q : Path) (x y z : Option Node) (h : fixed p q x y)
    (h' : fixed p q y z) : fixed p q x z := fun hq => (h' hq).trans (h hq)

/-- It is fixed, but for its time, by a new time. -/
theorem fixed_stamps {p q : Path} : (fixed p).Stamps q := by
  rintro _ _ ⟨n, n', rfl, rfl, hb⟩ -
  exact congrArg some hb

section
variable {root : Root} {source destination : Manifest} {options : Options} {p : Plan} {y : String}

/-- It is fixed by the making of the root, which is not the object. -/
theorem fixed_makesTo_base (hy : y ≠ "") : (fixed (root.pathOf y)).MakesTo (root.pathOf "") := by
  intro q hq hb
  refine ⟨?_, fixed_stamps⟩
  rintro n - rfl
  exact absurd SepPath.Below.refl (not_below_base hy hq hb)

/-- It is fixed by removals of other objects. -/
theorem fixed_dropsAll {entries : List Entry} (h : ∀ z ∈ entries, z.path ≠ y) :
    (fixed (root.pathOf y)).DropsAll root entries := by
  intro z hz
  refine ⟨fixed_stamps, ?_⟩
  intro n hq
  exact absurd (pathOf_injective hq) (h z hz)

/-- A mark has no effect on the tree. -/
theorem calls_mark {E : Effect} {m : Mark} {k : FsM Unit} (hk : Calls (FsCall.Safe E) k) :
    Calls (FsCall.Safe E) (mark m >>= fun _ => k) :=
  Prog.issues_bind (calls_sys (c := .mark m) (safe_quiet trivial fun _ _ _ h => h) fun _ =>
    trivial) fun _ => hk

variable (hp : plan source destination options = .ok p)
include hp

/-- What a type conflict removes, by the manifests. -/
theorem fixed_conflict {e : Entry} (he : e ∈ source.entries)
    (hdrop : clashes destination (guardedPaths source destination) e = true →
      ∀ z ∈ destination.entries, Below z.path.utf8 e.path.utf8 → z.path ≠ y)
    {entries : List Entry} (hc : p.conflict? e.path = some entries) :
    (fixed (root.pathOf y)).DropsAll root entries := by
  rw [conflict?_eq hp he] at hc
  split at hc
  · next hcl =>
    obtain rfl := Option.some.inj hc
    refine fixed_dropsAll fun z hz => ?_
    obtain ⟨hzd, hzb⟩ := mem_conflictEntries.mp hz
    exact hdrop hcl z hzd hzb
  · cases hc

/-- `prepare` leaves an object alone that it neither makes nor clears. -/
theorem fixed_prepare (hy : y ≠ "")
    (hmake : ∀ d ∈ source.entries, d.kind = .directory → ¬ Below d.path.utf8 y.utf8)
    (hdrop : ∀ d ∈ source.entries, d.kind = .directory →
      clashes destination (guardedPaths source destination) d = true →
      ∀ z ∈ destination.entries, Below z.path.utf8 d.path.utf8 → z.path ≠ y) :
    Calls (FsCall.Safe (fixed (root.pathOf y))) (prepare root source p) := by
  obtain ⟨hsrc, -, -, -⟩ := plan_ok.mp hp
  refine calls_prepare (fixed_makesTo_base hy) fun i hi e he => ?_
  obtain ⟨d, hd, hm⟩ := (mem_directories hp).mp hi
  obtain rfl := Option.some.inj (he.symm.trans hd)
  have hmem := List.mem_of_getElem? he
  have hk := (live_of_makes hm).2
  refine ⟨?_, fun entries hc => fixed_conflict hp hmem (hdrop e hmem hk) hc⟩
  intro q _ hb
  refine ⟨?_, fixed_stamps⟩
  rintro n - rfl
  exact absurd ((SepPath.below_join (hsrc.path_ne_nil hmem) (mt String.utf8_eq_nil.mp hy)).mp hb)
    (hmake e hmem hk)

/-- The entry that is installed may carry another hash than that of the source. -/
theorem fixed_install [Sha256] {e e' : Entry} {file : Bytes} (he : e ∈ source.entries)
    (hpath : e'.path = e.path) (hne : e.path ≠ y)
    (hdrop : clashes destination (guardedPaths source destination) e = true →
      ∀ z ∈ destination.entries, Below z.path.utf8 e.path.utf8 → z.path ≠ y) :
    Calls (FsCall.Safe (fixed (root.pathOf y))) (install root e' destination p file) := by
  refine calls_install fixed_stamps ?_ fun entries hc => ?_
  · intro old n data _ _ hq
    exact absurd ((pathOf_injective hq).symm.trans hpath).symm hne
  · rw [hpath] at hc
    exact fixed_conflict hp he hdrop hc

omit hp in
/-- `finish` leaves an object alone that it does not remove. -/
theorem fixed_finish (hremove : ∀ x ∈ p.removals, x.path ≠ y) :
    Calls (FsCall.Safe (fixed (root.pathOf y))) (finish root source p) :=
  calls_finish (fixed_dropsAll hremove) fun _ _ _ _ => fixed_stamps

/-! An object to be removed changes in `finish` only. -/

section
variable {x : Entry} (hx : x ∈ p.removals)
include hx

/-- What a plan removes is not cleared for a type conflict. -/
theorem removal_zone {c : Entry} (hc : c ∈ source.entries)
    (hcl : clashes destination (guardedPaths source destination) c = true) :
    ∀ z ∈ destination.entries, Below z.path.utf8 c.path.utf8 → z.path ≠ x.path := by
  obtain ⟨-, -, hr⟩ := (mem_removals hp).mp hx
  intro z _ hzc h
  exact (removes_iff.mp hr).2.2 c hc hcl (h ▸ hzc)

/-- So `prepare` leaves the removals alone. -/
theorem removal_prepare :
    Calls (FsCall.Safe (fixed (root.pathOf x.path))) (prepare root source p) := by
  obtain ⟨hxd, -, -, -, hno⟩ := removal_facts hp hx
  exact fixed_prepare hp ((plan_ok.mp hp).2.1.path_ne_empty hxd) (fun d hd _ => hno d hd)
    fun d hd _ => removal_zone hp hx hd

/-- And so does the install of any file. -/
theorem removal_install [Sha256] {e e' : Entry} {file : Bytes} (he : e ∈ source.entries)
    (hpath : e'.path = e.path) :
    Calls (FsCall.Safe (fixed (root.pathOf x.path))) (install root e' destination p file) := by
  refine fixed_install hp he hpath (fun h => ?_) (removal_zone hp hx he)
  exact (removal_facts hp hx).2.2.2.2 e he (h ▸ SepPath.Below.refl)

end

/-! The object in the place of a planned file changes in its `install` only. -/

section
variable {n : Nat} {e : Entry} (hn : n ∈ p.files) (he : source.entries[n]? = some e)
include hn he

/-- A planned file is a file. -/
theorem planned_kind : e.kind = .file := by
  obtain ⟨e', he', ht⟩ := (mem_files hp).mp hn
  obtain rfl := Option.some.inj (he.symm.trans he')
  exact (live_of_transfers ht).2

omit hn in
/-- What a type conflict removes in the place of the file, it removes for that file. -/
theorem planned_zone {c : Entry} (hc : c ∈ source.entries) (hne : c ≠ e)
    (hcl : clashes destination (guardedPaths source destination) c = true) :
    ∀ z ∈ destination.entries, Below z.path.utf8 c.path.utf8 → z.path ≠ e.path := by
  intro z hz hzc h
  have hec : Below e.path.utf8 c.path.utf8 := h ▸ hzc
  exact hne (eq_of_clash_zone hp hc hcl hz hzc (List.mem_of_getElem? he)
    (h ▸ SepPath.Below.refl) hec).symm

/-- `prepare` leaves the place of a planned file alone, but for a conflict that is cleared. -/
theorem planned_prepare :
    Calls (FsCall.Safe (fixed (root.pathOf e.path))) (prepare root source p) := by
  obtain ⟨hsrc, -, -, -⟩ := plan_ok.mp hp
  have hmem := List.mem_of_getElem? he
  have hfile := planned_kind hp hn he
  have hdir {d : Entry} (hd : d.kind = .directory) : d ≠ e := by
    rintro rfl
    rw [hfile] at hd
    cases hd
  refine fixed_prepare hp (hsrc.path_ne_empty hmem) (fun d hd hk hb => ?_) fun d hd hk =>
    planned_zone hp he hd (hdir hk)
  exact hdir hk (hsrc.eq_of_below_file hmem (by rw [hfile]; decide) hd hb)

omit hn in
/-- So does the install of another file. -/
theorem planned_install [Sha256] {d d' : Entry} {file : Bytes} (hd : d ∈ source.entries)
    (hpath : d'.path = d.path) (hne : d ≠ e) :
    Calls (FsCall.Safe (fixed (root.pathOf e.path))) (install root d' destination p file) :=
  fixed_install hp hd hpath
    (fun h => hne ((plan_ok.mp hp).1.eq_of_path hd (List.mem_of_getElem? he) h))
    (planned_zone hp he hd hne)

omit hn in
/-- And so does `finish`. -/
theorem planned_finish :
    Calls (FsCall.Safe (fixed (root.pathOf e.path))) (finish root source p) :=
  fixed_finish fun _ hx h =>
    (removal_facts hp hx).2.2.2.2 e (List.mem_of_getElem? he) (h ▸ SepPath.Below.refl)

end

end

/-! ### Which request changes which object -/

section
variable [Sha256] {st : Server × Disk} {w : Disk} {s : Session}

/-- A moment of a request all of whose calls leave the object at `p` as it is. -/
theorem during_fixed {now : Instant} {connection : ConnectionId} {permission : Permission}
    {request : Message} {p : Path}
    (h : ∀ s, permission ≠ .deny → st.1.session = some s → s.connection = connection →
      Session.Steps (FsCall.Safe (fixed p)) { s with activity := now } request)
    (hw : During st w (.handle now connection permission request)) :
    (w.tree.get p).map Node.body = (st.2.tree.get p).map Node.body := by
  have hcalls := Server.calls_handle (Server.calls_handleInner (fun _ hc => hc.safe) h)
  exact frame_of_issues hcalls fixed_refl fixed_trans (fun c hc => hc.2) hw p rfl

variable (hst : st.1.Coherent) (hs : st.1.session = some s)
include hst hs

/-- An object to be removed changes only while FINISH is handled. -/
theorem removal_changes {x : Entry} (hx : x ∈ s.plan.removals) {i : Input} (hw : During st w i)
    (hne : (w.tree.get (s.root.pathOf x.path)).map Node.body ≠
      (st.2.tree.get (s.root.pathOf x.path)).map Node.body) :
    ∃ now permission, i = .handle now s.connection permission .finish ∧ s.Admits .finish ∧
      s.push = true ∧ s.options.dryRun = false := by
  have hp := (hst s hs).1.planned
  cases i with
  | handle now connection permission request =>
    -- No other request changes the object: `prepare` and the installs keep away from removals.
    by_contra hcon
    refine hne (during_fixed (fun s' _ hs' howner => ?_) hw)
    obtain rfl := Option.some.inj (hs.symm.trans hs')
    constructor
    · intro _ _ _ _
      exact calls_mark (removal_prepare hp hx)
    · intro i resource f e _ _ _ _ he
      exact calls_mark (removal_install hp hx (List.mem_of_getElem? he) rfl)
    · intro hr ha hpush hd
      -- FINISH may change it, and is the request in question.
      subst hr howner
      exact (hcon ⟨now, permission, rfl, ha, hpush, hd⟩).elim
  | _ => exact absurd (hw ▸ rfl) hne

/-- The object in the place of a file of the plan changes only while its COMMIT is handled. -/
theorem planned_changes {n : Nat} {e : Entry} (hn : n ∈ s.plan.files)
    (he : s.source.entries[n]? = some e) {i : Input} (hw : During st w i)
    (hne : (w.tree.get (s.root.pathOf e.path)).map Node.body ≠
      (st.2.tree.get (s.root.pathOf e.path)).map Node.body) :
    ∃ now permission j resource, i = .handle now s.connection permission (.commit j resource) ∧
      j.toNat = n ∧ s.Admits (.commit j resource) := by
  have hp := (hst s hs).1.planned
  have hsrc := (plan_ok.mp hp).1
  cases i with
  | handle now connection permission request =>
    -- The other calls keep away from the place: `prepare` makes directories, `finish` drops what
    -- the source lacks, and the install of another file has another place.
    by_contra hcon
    refine hne (during_fixed (fun s' _ hs' howner => ?_) hw)
    obtain rfl := Option.some.inj (hs.symm.trans hs')
    constructor
    · intro _ _ _ _
      exact calls_mark (planned_prepare hp hn he)
    · intro j resource f d hr ha _ _ hd
      refine calls_mark (planned_install hp he (List.mem_of_getElem? hd) rfl ?_)
      rintro rfl
      subst hr howner
      exact hcon ⟨now, permission, j, resource, rfl, hsrc.index_inj hd he, ha⟩
    · intro _ _ _ _
      exact calls_mark (planned_finish hp he)
  | _ => exact absurd (hw ▸ rfl) hne

omit hst in
/-- At each moment of a COMMIT the place of its file shows the old object or the file that was received,
or nothing where an object of another type is replaced. -/
theorem commit_kept {now : Instant} {permission : Permission} {i : UInt32} {resource : TransferId}
    {f : ReceivedFile} {e : Entry} (hf : s.received = some f)
    (he : s.source.entries[i.toNat]? = some e)
    (hw : During st w (.handle now s.connection permission (.commit i resource))) :
    Kept (s.plan.Replaces e.path) (· = f.file)
      ((st.2.tree.get (s.root.pathOf e.path)).map Node.body)
      ((w.tree.get (s.root.pathOf e.path)).map Node.body) := by
  let I (v : Disk) : Prop := Kept (s.plan.Replaces e.path) (· = f.file)
    ((st.2.tree.get (s.root.pathOf e.path)).map Node.body)
    ((v.tree.get (s.root.pathOf e.path)).map Node.body)
  -- Before the first call nothing has changed.
  have hstart : I st.2 := .inl rfl
  have hcommit : Prog.Spec exec I (Session.commit { s with activity := now } i.toNat resource) st.2
      fun _ => I := by
    refine Prog.spec_lift_bind (fun _ _ => hstart) fun _ _ => Prog.spec_check hstart fun _ => ?_
    simp only [hf]
    refine Prog.spec_lift_bind (fun _ _ => hstart) fun e' he' => Prog.spec_check hstart fun _ => ?_
    obtain rfl := Option.some.inj ((index_ok.mp he').symm.trans he)
    -- The only calls are those of the install, after the mark in the journal.
    have hinstall := @spec_kept _ s.root e' e' s.destination s.plan ⟨reads f.file, none⟩ (· = f.file)
      st.2 { st.2 with journal := st.2.journal ++ [.install i.toNat f.file] } rfl
      (fun _ => reads_flatten _) hstart
    rw [installFrom_reads] at hinstall
    refine Prog.spec_bind.mpr ⟨hstart, ?_⟩
    refine (Prog.spec_bind (m := install s.root e' s.destination s.plan f.file)).mpr
      (hinstall.imp fun r v hv => ?_)
    cases r <;> exact hv
  -- The checks of the server around it read only.
  have hinner : Prog.Spec exec I (st.1.handleInner now s.connection permission (.commit i resource))
      st.2 fun _ => I := by
    have hfilter : st.1.session.filter (·.connection = s.connection) = some s := by
      rw [hs]
      simp
    refine Prog.spec_check hstart fun _ => ?_
    simp only [hfilter]
    refine Prog.spec_check hstart fun _ => Prog.spec_bind.mpr (Prog.spec_bind.mpr ?_)
    refine hcommit.imp fun r v hv => ?_
    cases r <;> exact hv
  refine Prog.Spec.moment (Q := fun _ => I) (Prog.spec_bind.mpr ?_) hstart hw
  refine Prog.spec_attempt.mpr (hinner.imp fun r v hv => ?_)
  cases r <;> exact hv

end

/-! ### The calls since START -/

/-- One call of the adapter, in a run. -/
abbrev Occurrence := Event (Server × Disk) Input Output

namespace Occurrence

/-- The call is a START that was accepted. -/
def starts (e : Occurrence) : Bool :=
  match e.input, e.output with
  | .handle _ _ _ (.start _ _ _ _), .reply (.ok _) => true
  | _, _ => false

/-- What the call wrote to the journal. -/
def marks (e : Occurrence) : List Mark := e.post.2.journal.drop e.pre.2.journal.length

/-- The call is this request, and its answer is OK. -/
def Answers (e : Occurrence) (connection : ConnectionId) (request : Message) : Prop :=
  ∃ now permission, e.input = .handle now connection permission request ∧
    e.output = .reply (.ok (.message .ok))

/-- The call delivers the file. -/
def Delivers (e : Occurrence) (connection : ConnectionId) (f : ReceivedFile) : Prop :=
  e.input = .receive connection f ∧ e.output = .received (.ok ())

end Occurrence

/-- The calls after the last accepted START. -/
def sinceStart (past : List Occurrence) : List Occurrence := past.rtakeWhile fun e => !e.starts

/-- The calls since START after one more call. -/
theorem sinceStart_snoc {past : List Occurrence} {e : Occurrence} :
    sinceStart (past ++ [e]) = if e.starts then [] else sinceStart past ++ [e] := by
  unfold sinceStart
  rw [List.rtakeWhile_concat]
  cases e.starts <;> rfl

/-- How many of the marks written by the calls satisfy a test. -/
def tally (test : Mark → Bool) (since : List Occurrence) : Nat :=
  (since.flatMap Occurrence.marks).countP test

/-- The number of marks after one more call. -/
theorem tally_snoc {test : Mark → Bool} {since : List Occurrence} {e : Occurrence} :
    tally test (since ++ [e]) = tally test since + e.marks.countP test := by
  simp [tally]

/-- The mark is that of an installation of the file `n`. -/
def Mark.installs (n : Nat) : Mark → Bool
  | .install i _ => i = n
  | _ => false

/-- The mark of the making of directories. -/
def Mark.prepares : Mark → Bool
  | .prepare => true
  | _ => false

/-- The file `n` of the plan is begun by one of the calls, and a later one delivers `f`. -/
def Delivered (connection : ConnectionId) (n : Nat) (f : ReceivedFile)
    (since : List Occurrence) : Prop :=
  ∃ a begin b delivery c i, since = a ++ begin :: b ++ delivery :: c ∧
    begin.Answers connection (.begin i) ∧ i.toNat = n ∧ delivery.Delivers connection f

namespace Session

/-- One of the calls is a COMMIT of the file `n` that put a file of the size and the hash of
the entry in its place. -/
def Installed (s : Session) [Sha256] (n : Nat) (since : List Occurrence) : Prop :=
  ∃ d ∈ since, ∃ i resource e node data, d.Answers s.connection (.commit i resource) ∧
    i.toNat = n ∧ s.source.entries[n]? = some e ∧
    d.post.2.tree.get (s.root.pathOf e.path) = some node ∧ node.body = .file data ∧
    data.length = e.size ∧ ∀ x ∈ e.hash, x = digest data

/-- What holds of a session and of the calls since its START. -/
structure Tracked (s : Session) [Sha256] (since : List Occurrence) : Prop where
  done : s.push = true → ∀ n ∈ s.done, s.Installed n since
  pending : s.push = true → ∀ n ∈ s.pending, ∃ a begin b i, since = a ++ begin :: b ∧
    begin.Answers s.connection (.begin i) ∧ i.toNat = n ∧
    ∀ f ∈ s.received, ∃ b₁ delivery b₂, b = b₁ ++ delivery :: b₂ ∧
      delivery.Delivers s.connection f
  installs : ∀ n, n ∉ s.done → tally (Mark.installs n) since = 0
  prepares : s.prepared = false → tally Mark.prepares since = 0

section
variable [Sha256] {s : Session} {since : List Occurrence} {e : Occurrence}

/-- A file that was installed stays so. -/
theorem Installed.snoc {n : Nat} (h : s.Installed n since) : s.Installed n (since ++ [e]) := by
  obtain ⟨d, hd, hrest⟩ := h
  exact ⟨d, List.mem_append_left _ hd, hrest⟩

/-- A call that writes nothing and does not touch the session. -/
theorem Tracked.snoc (h : s.Tracked since) (he : e.marks = []) : s.Tracked (since ++ [e]) where
  done hpush n hn := (h.done hpush n hn).snoc
  pending hpush n hn := by
    obtain ⟨a, begin, b, i, rfl, hb, hi, hf⟩ := h.pending hpush n hn
    refine ⟨a, begin, b ++ [e], i, by simp, hb, hi, fun f hr => ?_⟩
    obtain ⟨b₁, delivery, b₂, rfl, hd⟩ := hf f hr
    exact ⟨b₁, delivery, b₂ ++ [e], by simp, hd⟩
  installs n hn := by rw [tally_snoc, he, h.installs n hn]; rfl
  prepares hp := by rw [tally_snoc, he, h.prepares hp]; rfl

/-- What a session has done does not depend on its last activity. -/
theorem Tracked.touch (h : s.Tracked since) (now : Instant) :
    Session.Tracked { s with activity := now } since :=
  ⟨h.done, h.pending, h.installs, h.prepares⟩

/-- A file that was received was delivered between its BEGIN and now. -/
theorem Tracked.delivered (h : s.Tracked since) (hpush : s.push = true) {n : Nat}
    (hn : s.pending = some n) {f : ReceivedFile} (hf : s.received = some f) :
    Delivered s.connection n f since := by
  obtain ⟨a, begin, b, i, rfl, hb, hi, hr⟩ := h.pending hpush n hn
  obtain ⟨b₁, delivery, b₂, rfl, hd⟩ := hr f hf
  exact ⟨a, begin, b₁, delivery, b₂, i, by simp, hb, hi, hd⟩

omit [Sha256] in
/-- When the counts agree, every file of the plan is done. -/
theorem Coherent.complete (hs : s.Coherent) (h : s.done.length = s.plan.files.length) :
    ∀ n ∈ s.plan.files, n ∈ s.done := by
  have hperm := (List.subperm_of_subset hs.done.1 hs.done.2).perm_of_length_le h.ge
  exact fun n hn => hperm.mem_iff.mpr hn

end

end Session

section
variable [Sha256] {server : Server} {w w' : Disk} {s : Session} {now : Instant}
  {connection : ConnectionId} {permission : Permission}

/-- A COMMIT that is answered has put the file in its place. -/
theorem Server.commit_run {i : UInt32} {resource : TransferId} {r : ServerReply × Server}
    (hs : server.session = some s) (howner : s.connection = connection) {e : Entry}
    (he : s.source.entries[i.toNat]? = some e)
    (h : (server.handleInner now connection permission (.commit i resource)).run exec w
      = (.ok r, w')) :
    ∃ node data, w'.tree.get (s.root.pathOf e.path) = some node ∧ node.body = .file data ∧
      data.length = e.size ∧ ∀ x ∈ e.hash, x = digest data := by
  have hfilter : server.session.filter (·.connection = connection) = some s := by
    rw [hs]
    simp [howner]
  -- The checks of the server and of the session have passed, down to the install.
  obtain ⟨-, h⟩ := Prog.run_check_bind_eq_ok.mp h
  simp only [hfilter] at h
  obtain ⟨-, h⟩ := Prog.run_check_bind_eq_ok.mp h
  obtain ⟨_, _, hserve, hpure⟩ := Prog.run_bind_eq_ok.mp h
  obtain ⟨-, rfl⟩ := Prog.run_pure_eq_ok.mp hpure
  obtain ⟨_, _, hcommit, hpure⟩ := Prog.run_bind_eq_ok.mp hserve
  obtain ⟨-, rfl⟩ := Prog.run_pure_eq_ok.mp hpure
  obtain ⟨_, _, hlift, h⟩ := Prog.run_bind_eq_ok.mp hcommit
  obtain ⟨-, rfl⟩ := Prog.run_lift_eq_ok.mp hlift
  obtain ⟨-, h⟩ := Prog.run_check_bind_eq_ok.mp h
  split at h
  · cases h
  · next f hr =>
    obtain ⟨e', _, hlift, h⟩ := Prog.run_bind_eq_ok.mp h
    obtain ⟨he', rfl⟩ := Prog.run_lift_eq_ok.mp hlift
    obtain rfl := Option.some.inj ((index_ok.mp he').symm.trans he)
    obtain ⟨-, h⟩ := Prog.run_check_bind_eq_ok.mp h
    obtain ⟨_, w₁, -, h⟩ := Prog.run_bind_eq_ok.mp h
    obtain ⟨_, w₂, hinstall, hpure⟩ := Prog.run_bind_eq_ok.mp h
    obtain ⟨-, rfl⟩ := Prog.run_pure_eq_ok.mp hpure
    -- What the install has verified is what it has written.
    obtain ⟨hsize, hhash, -, node, hnode, hbody, -⟩ := install_run hinstall
    exact ⟨node, f.file, hnode, hbody, hsize, hhash⟩

/-- What a request writes to the journal. -/
theorem marks_handle {st : Server × Disk} {request : Message} :
    Occurrence.marks (event step st (.handle now connection permission request)) = [] ∨
    ∃ s, st.1.session = some s ∧ s.connection = connection ∧
      Session.Logged { s with activity := now } request
        (Occurrence.marks (event step st (.handle now connection permission request))) := by
  obtain ⟨ms, hms, hj⟩ := (@Server.handle_logged st.1 now connection permission _ request).run
    Disk.journal (fun c w => (exec_env_journal c w).2) st.2
  have hm : Occurrence.marks (event step st (.handle now connection permission request)) = ms := by
    rw [Prog.run_eq_runOk] at hj
    show List.drop st.2.journal.length (step st _).2.2.journal = ms
    rw [step_handle, hj, List.drop_left]
  rwa [hm]

/-- No other call writes to the journal. -/
theorem marks_quiet {st : Server × Disk} {i : Input} (h : (step st i).2.2 = st.2) :
    Occurrence.marks (event step st i) = [] := by
  show List.drop st.2.journal.length (Disk.journal (step st i).2.2) = []
  rw [h, List.drop_length]

/-- Only a request of the owner of the session writes to the journal. -/
theorem marks_owner {st : Server × Disk} {i : Input} {m : Mark}
    (hm : m ∈ Occurrence.marks (event step st i)) :
    ∃ now connection permission request s, i = .handle now connection permission request ∧
      st.1.session = some s ∧ s.connection = connection ∧
      Session.Logged { s with activity := now } request
        (Occurrence.marks (event step st i)) := by
  -- An input that leaves the disk alone leaves no mark.
  have hquiet (h : (step st i).2.2 = st.2) : False := by
    rw [marks_quiet h] at hm
    cases hm
  cases i with
  | handle now connection permission request =>
    rcases @marks_handle _ now connection permission st request with h | ⟨s, hs, howner, hl⟩
    · rw [h] at hm
      cases hm
    · exact ⟨now, connection, permission, request, s, rfl, hs, howner, hl⟩
  | receive connection file =>
    refine (hquiet ?_).elim
    rw [step_receive]
    split <;> rfl
  | _ => exact (hquiet rfl).elim

/-! ### The invariant -/

/-- What holds of a run: its marks, its state and the session. -/
structure Track (past : List Occurrence) (st : Server × Disk) : Prop where
  coherent : st.1.Coherent
  installOnce : ∀ n, tally (Mark.installs n) (sinceStart past) ≤ 1
  prepareOnce : tally Mark.prepares (sinceStart past) ≤ 1
  session : ∀ s ∈ st.1.session, s.Tracked (sinceStart past)

/-- Nothing was done before the first call. -/
theorem started_track (root : Root) (w : Disk) : Track [] (⟨root, none⟩, w) :=
  ⟨started_coherent root, fun _ => Nat.zero_le _, Nat.zero_le _,
    fun _ h => absurd h (Option.not_mem_none _)⟩

/-- The marks that a request of the owner adds. -/
theorem Session.Logged.tallies {request : Message} {ms : List Mark} {since : List Occurrence}
    (ht : s.Tracked since) (h : s.Logged request ms)
    (hi : ∀ n, tally (Mark.installs n) since ≤ 1) (hp : tally Mark.prepares since ≤ 1) :
    (∀ n, tally (Mark.installs n) since + ms.countP (Mark.installs n) ≤ 1) ∧
      tally Mark.prepares since + ms.countP Mark.prepares ≤ 1 := by
  cases h with
  | nothing => exact ⟨hi, hp⟩
  | prepare _ _ _ _ fresh =>
    refine ⟨fun n => hi n, ?_⟩
    -- It was not prepared before, so this is the first time.
    rw [ht.prepares fresh]
    decide
  | @install i resource f admitted =>
    refine ⟨fun n => ?_, hp⟩
    -- The file of this COMMIT was not done before. The count of any other stays.
    by_cases hn : i.toNat = n
    · rw [ht.installs n (hn ▸ admitted.1.2.2)]
      simp [Mark.installs, hn]
    · simpa [Mark.installs, hn] using hi n
  | finish _ _ _ before =>
    -- FINISH prepares only what was not prepared.
    subst before
    split
    · exact ⟨fun n => hi n, hp⟩
    · next hfresh =>
      refine ⟨fun n => hi n, ?_⟩
      rw [ht.prepares (by simpa using hfresh)]
      decide

omit [Sha256] in
/-- Only COMMIT leaves the mark of an install. -/
theorem Session.Logged.no_install {request : Message} {ms : List Mark} (h : s.Logged request ms)
    (hr : ∀ i resource, request ≠ .commit i resource) (n : Nat) :
    ms.countP (Mark.installs n) = 0 := by
  cases h with
  | nothing => rfl
  | prepare => rfl
  | install => exact absurd rfl (hr _ _)
  | finish _ _ _ before =>
    subst before
    split <;> rfl

omit [Sha256] in
/-- The mark of an install is that of the COMMIT, with the file that was received. -/
theorem Session.Logged.mem_install {request : Message} {ms : List Mark}
    (h : s.Logged request ms) {n : Nat} {file : Bytes} (hm : .install n file ∈ ms) :
    ∃ i resource f, request = .commit i resource ∧ i.toNat = n ∧ f.file = file ∧
      s.received = some f ∧ s.Admits request := by
  cases h with
  | nothing => cases hm
  | prepare => simp at hm
  | @install i resource f admitted _ received =>
    obtain ⟨rfl, rfl⟩ : n = i.toNat ∧ file = f.file := by simpa using hm
    exact ⟨i, resource, f, rfl, rfl, rfl, received, admitted⟩
  | finish _ _ _ before =>
    subst before
    split at hm <;> simp at hm

omit [Sha256] in
/-- In a pull session nothing is written. -/
theorem Session.Logged.pull {request : Message} {ms : List Mark} (h : s.Logged request ms)
    (hpull : s.push = false) : ms = [] := by
  cases h with
  | nothing => rfl
  | prepare _ _ push => cases hpull.symm.trans push
  | install admitted => cases hpull.symm.trans admitted.1.1
  | finish _ push => cases hpull.symm.trans push

/-- A request of the owner that is accepted. -/
theorem Session.Tracked.serves {request : Message} {reply : ServerReply}
    {session : Option Session} {since : List Occurrence} {e : Occurrence} (hs : s.Coherent)
    (ht : s.Tracked since) (hdry : s.options.dryRun = true → request = .finish)
    (h : s.Serves request reply session) (hl : s.Logged request e.marks)
    (he : ∃ now permission, e.input = .handle now s.connection permission request)
    (ho : e.output = .reply (.ok reply))
    (hcommit : ∀ i resource e', request = .commit i resource →
      s.source.entries[i.toNat]? = some e' → ∃ node data,
        e.post.2.tree.get (s.root.pathOf e'.path) = some node ∧ node.body = .file data ∧
        data.length = e'.size ∧ ∀ x ∈ e'.hash, x = digest data) :
    ∀ s' ∈ session, s'.Tracked (since ++ [e]) := by
  obtain ⟨now, permission, hi⟩ := he
  have hpull (h : s.push = false) : e.marks = [] := hl.pull h
  cases h with
  | @begin i push file fresh idle =>
    -- After BEGIN the file is pending since this request, and nothing was delivered for it before.
    rintro _ ⟨⟩
    refine ⟨fun h n hn => (ht.done h n hn).snoc, fun _ n hn => ?_, fun n hn => ?_, nofun⟩
    · cases hn
      refine ⟨since, e, [], i, rfl, ⟨now, permission, hi, ho⟩, rfl, fun f hf => ?_⟩
      rw [hs.received_none (.inl idle)] at hf
      cases hf
    · rw [tally_snoc, ht.installs n hn, hl.no_install nofun n]
  | @commit i resource f entry push file fresh pending received hentry =>
    rintro _ ⟨⟩
    -- After COMMIT the file is done, and this request is the one that has put it there.
    obtain ⟨node, data, hput⟩ := hcommit i resource entry rfl hentry
    have hmarks (test : Mark → Bool) (htest : ∀ file, test (.install i.toNat file) = false) :
        e.marks.countP test = 0 := by
      generalize e.marks = ms at hl
      cases hl with
      | nothing => rfl
      | prepare _ early => exact absurd rfl (early i resource)
      | install => simp [htest]
    refine ⟨fun h n hn => ?_, fun _ _ => nofun, fun n hn => ?_, fun hp => ?_⟩
    -- A file is done now or was done before.
    · rcases List.mem_insert_iff.mp hn with rfl | hn
      · exact ⟨e, List.mem_append_right _ (List.mem_singleton.mpr rfl), i, resource, entry, node,
          data, ⟨now, permission, hi, ho⟩, rfl, hentry, hput⟩
      · exact (ht.done h n hn).snoc
    · obtain ⟨hne, hn⟩ := not_or.mp (mt List.mem_insert_iff.mpr hn)
      rw [tally_snoc, ht.installs n hn, hmarks _ fun file => by simpa [Mark.installs] using Ne.symm hne]
    · rw [tally_snoc, ht.prepares hp, hmarks _ fun _ => rfl]
  | get pull =>
    rintro _ ⟨⟩
    -- A pull leaves no mark.
    have h := ht.snoc (hpull pull)
    exact ⟨h.done, fun hp => absurd hp (by rw [pull]; decide), h.installs, h.prepares⟩
  | verified pull =>
    rintro _ ⟨⟩
    have h := ht.snoc (hpull pull)
    refine ⟨fun hp => absurd hp (by rw [pull]; decide), fun hp => absurd hp (by rw [pull]; decide),
      fun n hn => h.installs n fun hm => hn (List.mem_insert_of_mem hm), h.prepares⟩
  | finish => exact fun _ h => absurd h (Option.not_mem_none _)

variable {past : List Occurrence} {st : Server × Disk}

/-- A call that writes nothing and leaves at most the session that was there. -/
theorem Track.quiet (h : Track past st) {i : Input} (hm : Occurrence.marks (event step st i) = [])
    (hstart : Occurrence.starts (event step st i) = false)
    (hs : ∀ s' ∈ (step st i).2.1.session, ∃ s ∈ st.1.session,
      s' = { s with activity := s'.activity }) :
    Track (past ++ [event step st i]) (step st i).2 := by
  have hsince : sinceStart (past ++ [event step st i]) = sinceStart past ++ [event step st i] := by
    rw [sinceStart_snoc, hstart]
    rfl
  -- No count changes when there is no new mark.
  have htally (test : Mark → Bool) :
      tally test (sinceStart (past ++ [event step st i])) = tally test (sinceStart past) := by
    rw [hsince, tally_snoc, hm]
    rfl
  refine ⟨step_coherent h.coherent i, fun n => ?_, ?_, fun s' hs' => ?_⟩
  · rw [htally]
    exact h.installOnce n
  · rw [htally]
    exact h.prepareOnce
  · obtain ⟨s, hmem, heq⟩ := hs s' hs'
    rw [hsince, heq]
    exact ((h.session s hmem).snoc hm).touch _

/-- An accepted START. -/
theorem Track.start (h : Track past st) {i : Input}
    (hstart : Occurrence.starts (event step st i) = true)
    (hs : ∀ s ∈ (step st i).2.1.session, s.done = [] ∧ s.pending = none) :
    Track (past ++ [event step st i]) (step st i).2 := by
  have hsince : sinceStart (past ++ [event step st i]) = [] := by rw [sinceStart_snoc, if_pos hstart]
  refine ⟨step_coherent h.coherent i, fun n => ?_, ?_, fun s hmem => ?_⟩
  · rw [hsince]
    exact Nat.zero_le _
  · rw [hsince]
    exact Nat.zero_le _
  · obtain ⟨hdone, hpending⟩ := hs s hmem
    rw [hsince]
    refine ⟨fun _ n hn => ?_, fun _ n hn => ?_, fun _ _ => rfl, fun _ => rfl⟩
    · rw [hdone] at hn
      cases hn
    · rw [hpending] at hn
      cases hn

/-- A request of the owner, which is served or ends the session. -/
theorem Track.owner (h : Track past st) {s : Session} (hs : st.1.session = some s)
    {now : Instant} {permission : Permission} {request : Message}
    (hstart : Occurrence.starts
      (event step st (.handle now s.connection permission request)) = false)
    (hsession : ∀ s' ∈ (step st (.handle now s.connection permission request)).2.1.session,
      ({ s with activity := now } : Session).Logged request
        (Occurrence.marks (event step st (.handle now s.connection permission request))) →
      s'.Tracked (sinceStart past ++
        [event step st (.handle now s.connection permission request)])) :
    Track (past ++ [event step st (.handle now s.connection permission request)])
      (step st (.handle now s.connection permission request)).2 := by
  -- The marks are those that the request allows.
  have hl : ({ s with activity := now } : Session).Logged request
      (Occurrence.marks (event step st (.handle now s.connection permission request))) := by
    rcases @marks_handle _ now s.connection permission st request with hm | ⟨s', hs', -, hl⟩
    · rw [hm]
      exact .nothing
    · obtain rfl := Option.some.inj (hs.symm.trans hs')
      exact hl
  obtain ⟨h1, h2⟩ := hl.tallies ((h.session s hs).touch now) h.installOnce h.prepareOnce
  have hsince := @sinceStart_snoc past (event step st (.handle now s.connection permission request))
  rw [hstart] at hsince
  refine ⟨step_coherent h.coherent _, fun n => ?_, ?_, fun s' hs' => ?_⟩
  · rw [hsince]
    exact tally_snoc.trans_le (h1 n)
  · rw [hsince]
    exact tally_snoc.trans_le h2
  · rw [hsince]
    exact hsession s' hs' hl

/-- A request that is refused. -/
theorem Track.refused (h : Track past st) {now : Instant} {connection : ConnectionId}
    {permission : Permission} {request : Message} {err : Error}
    (ho : (step st (.handle now connection permission request)).1 = .reply (.error err))
    (hs : (step st (.handle now connection permission request)).2.1
      = st.1.disconnect connection) :
    Track (past ++ [event step st (.handle now connection permission request)])
      (step st (.handle now connection permission request)).2 := by
  have hstart : Occurrence.starts
      (event step st (.handle now connection permission request)) = false := by
    unfold Occurrence.starts event
    rw [ho]
    cases request <;> rfl
  -- The owner loses its session. Nobody else has one, and then nothing is marked.
  by_cases howner : ∃ s, st.1.session = some s ∧ s.connection = connection
  · obtain ⟨s, hsession, rfl⟩ := howner
    refine h.owner hsession hstart fun s' hs' _ => ?_
    rw [hs] at hs'
    obtain ⟨hmem, hne⟩ := Server.mem_disconnect hs'
    obtain rfl := Option.some.inj (hsession.symm.trans hmem)
    exact absurd rfl hne
  · refine h.quiet ?_ hstart fun s' hs' => ⟨s', ?_, rfl⟩
    · rcases @marks_handle _ now connection permission st request with hm | ⟨s, hsession, hc, -⟩
      · exact hm
      · exact absurd ⟨s, hsession, hc⟩ howner
    · rw [hs] at hs'
      exact (Server.mem_disconnect hs').1

/-- A file that is kept for the pending upload. -/
theorem Track.received (h : Track past st) {s : Session} (hs : st.1.session = some s)
    {file : ReceivedFile}
    (hstep : RrSync.step st (.receive s.connection file)
      = (.received (.ok ()), ⟨st.1.root, some { s with received := some file }⟩, st.2)) :
    Track (past ++ [event step st (.receive s.connection file)])
      (step st (.receive s.connection file)).2 := by
  have hm : Occurrence.marks (event step st (.receive s.connection file)) = [] :=
    marks_quiet (by rw [hstep])
  have hsince := @sinceStart_snoc past (event step st (.receive s.connection file))
  have ht := (h.session s hs).snoc hm
  refine ⟨step_coherent h.coherent _, fun n => ?_, ?_, ?_⟩
  · rw [hsince]
    exact tally_snoc.trans_le (by rw [hm]; exact h.installOnce n)
  · rw [hsince]
    exact tally_snoc.trans_le (by rw [hm]; exact h.prepareOnce)
  · rw [hsince, hstep]
    rintro _ ⟨⟩
    refine ⟨ht.done, fun hpush n hn => ?_, ht.installs, ht.prepares⟩
    -- The file comes after the BEGIN of its index.
    obtain ⟨a, begin, b, i, hab, hb, hi, -⟩ := (h.session s hs).pending hpush n hn
    refine ⟨a, begin, b ++ [event step st (.receive s.connection file)], i, ?_, hb, hi, ?_⟩
    · show sinceStart past ++ [_] = _
      rw [hab]
      simp
    · rintro _ ⟨⟩
      exact ⟨b, _, [], rfl, rfl, congrArg Prod.fst hstep⟩

/-- A step keeps track of what was done. -/
theorem Track.step (h : Track past st) (i : Input) :
    Track (past ++ [event step st i]) (step st i).2 := by
  cases i with
  | handle now connection permission request =>
    rcases Server.handle_cases h.coherent now connection permission request st.2 with
      ⟨reply, hr, hacc⟩ | ⟨e, hr, -, hdis⟩
    · have ho : (RrSync.step st (.handle now connection permission request)).1
          = .reply (.ok reply) := congrArg Output.reply hr
      have hpost : (RrSync.step st (.handle now connection permission request)).2.1
        = ((st.1.handle now connection permission request).runOk exec st.2).1.2 := rfl
      generalize ((st.1.handle now connection permission request).runOk exec st.2).1.2 = server'
        at hacc hpost
      -- A request that is answered is START, or one of the owner.
      cases hacc with
      | start =>
        refine h.start ?_ fun s hs => ?_
        · unfold Occurrence.starts event
          rw [ho]
        · rw [hpost] at hs
          cases hs
          exact ⟨rfl, rfl⟩
      | @serve s _ _ session allowed active owner dry served =>
        subst owner
        refine h.owner active ?_ fun s' hs' hl => ?_
        · unfold Occurrence.starts event
          rw [ho]
          cases served <;> rfl
        · rw [hpost] at hs'
          refine ((h.session s active).touch now).serves ((h.coherent s active).1.touch now) dry
            served hl ⟨now, permission, rfl⟩ ho ?_ s' hs'
          intro j resource entry hj hentry
          subst hj
          rcases hrun : (st.1.handleInner now s.connection permission (.commit j resource)).run
            exec st.2 with ⟨_ | r, w'⟩
          · rw [Server.handle_run, hrun] at hr
            cases hr
          · have hw : (RrSync.step st (.handle now s.connection permission
                (.commit j resource))).2.2 = w' := by
              rw [step_handle, Server.handle_run, hrun]
            -- The run of COMMIT says what is in its place now.
            obtain ⟨node, data, hput⟩ := Server.commit_run active rfl hentry hrun
            exact ⟨node, data, hw ▸ hput⟩
    · exact h.refused (congrArg Output.reply hr) hdis
  | receive connection file =>
    obtain ⟨server', hrun, -, hcases⟩ := h.coherent.receive connection file
    have hstep : RrSync.step st (.receive connection file) = (.received (.ok ()), server', st.2) := by
      rw [step_receive, hrun]
    have hm : Occurrence.marks (event RrSync.step st (.receive connection file)) = [] :=
      marks_quiet (by rw [hstep])
    -- ⟨s, hs, rfl, -, rfl⟩ | The file is ignored, or the session has received it.
    rcases hcases with rfl | ⟨s, hs, rfl, -, rfl⟩
    · refine h.quiet hm rfl fun s' hs' => ⟨s', ?_, rfl⟩
      rwa [hstep] at hs'
    · exact h.received hs hstep
  | disconnect connection =>
    exact h.quiet (marks_quiet rfl) rfl fun s' hs' => ⟨s', (Server.mem_disconnect hs').1, rfl⟩
  | touch connection now =>
    refine h.quiet (marks_quiet rfl) rfl fun s' hs' => ?_
    obtain ⟨s, hs, rfl⟩ := Option.map_eq_some_iff.mp hs'
    refine ⟨s, hs, ?_⟩
    split <;> rfl
  | expire now timeout =>
    exact h.quiet (marks_quiet rfl) rfl fun s' hs' => ⟨s', Server.mem_expire hs', rfl⟩

/-! ### The order of an upload -/

/-- The call is a COMMIT of the file `n` by the owner, with a file that one of the calls
delivered. -/
structure Session.Uploads (s : Session) (n : Nat) (f : ReceivedFile) (since : List Occurrence)
    (e : Occurrence) : Prop where
  commit : ∃ now permission i,
    e.input = .handle now s.connection permission (.commit i f.transferId) ∧ i.toNat = n
  plain : f.hasMetadata = false
  size : ∃ entry, s.source.entries[n]? = some entry ∧ f.size = entry.size
  delivered : Delivered s.connection n f since

/-- What holds of a call after the calls `past`. An object in the place of a planned file changes only
to the file that was delivered for it, and is gone only while an object of another type is replaced. -/
structure Ordered (past : List Occurrence) (e : Occurrence) : Prop where
  removed : ∀ s ∈ e.pre.1.session, ∀ x ∈ s.plan.removals, ∀ w, During e.pre w e.input →
    (w.tree.get (s.root.pathOf x.path)).map Node.body ≠
      (e.pre.2.tree.get (s.root.pathOf x.path)).map Node.body →
    (∃ now permission, e.input = .handle now s.connection permission .finish) ∧
      ∀ n ∈ s.plan.files, s.Installed n (sinceStart past)
  placed : ∀ s ∈ e.pre.1.session, ∀ n ∈ s.plan.files, ∀ entry,
    s.source.entries[n]? = some entry → ∀ w, During e.pre w e.input →
    (w.tree.get (s.root.pathOf entry.path)).map Node.body ≠
      (e.pre.2.tree.get (s.root.pathOf entry.path)).map Node.body →
    ∃ f, s.Uploads n f (sinceStart past) e ∧
      ((w.tree.get (s.root.pathOf entry.path)).map Node.body = some (.file f.file) ∨
        s.plan.Replaces entry.path ∧ w.tree.get (s.root.pathOf entry.path) = none)
  installed : ∀ n file, .install n file ∈ e.marks →
    ∃ s ∈ e.pre.1.session, ∃ f, f.file = file ∧ s.Uploads n f (sinceStart past) e
  installOnce : ∀ n, tally (Mark.installs n) (sinceStart (past ++ [e])) ≤ 1
  prepareOnce : tally Mark.prepares (sinceStart (past ++ [e])) ≤ 1

/-- A COMMIT that the state machine admits uses a file that was delivered. -/
theorem Session.Tracked.uploads {since : List Occurrence} {i : UInt32} {resource : TransferId}
    {e : Occurrence} (ht : s.Tracked since) (ha : s.Admits (.commit i resource))
    (he : ∃ now permission, e.input = .handle now s.connection permission (.commit i resource)) :
    ∃ f, s.received = some f ∧ s.Uploads i.toNat f since e := by
  obtain ⟨⟨hpush, -, -⟩, hpending, f, entry, hf, hentry, rfl, hsize, hplain⟩ := ha
  obtain ⟨now, permission, hi⟩ := he
  exact ⟨f, hf, ⟨now, permission, i, hi, rfl⟩, hplain, ⟨entry, hentry, hsize⟩,
    ht.delivered hpush hpending hf⟩

/-- In every run of the server, an object to be removed stays until the FINISH of the owner,
which comes after all files of the plan were installed in the session. A file is installed at
most once in a session, by a COMMIT of the owner, from a file that came between its BEGIN and
its COMMIT. And `prepare` runs at most once in a session. -/
theorem uploads_ordered (root : Root) (w : Disk) (is : List Input)
    (past : List Occurrence) (e : Occurrence) (fut : List Occurrence)
    (h : events step (⟨root, none⟩, w) is = past ++ e :: fut) : Ordered past e := by
  obtain ⟨ht, he⟩ := events_history Track (started_track root w)
    (fun past st i h => h.step i) h
  have hnext : Track (past ++ [e]) e.post := by
    rw [he]
    exact ht.step e.input
  refine ⟨?_, ?_, ?_, hnext.installOnce, hnext.prepareOnce⟩
  · intro s hs x hx w' hw hne
    obtain ⟨now, permission, hi, ha, hpush, hdry⟩ := removal_changes ht.coherent hs hx hw hne
    refine ⟨⟨now, permission, hi⟩, fun n hn => ?_⟩
    -- FINISH admits removals only when all files are done, each by its COMMIT.
    have hdone := (ht.coherent s hs).1.complete (ha hdry).2 n hn
    exact (ht.session s hs).done hpush n hdone
  · intro s hs n hn entry hentry w' hw hne
    obtain ⟨now, permission, i, resource, hi, rfl, ha⟩ :=
      planned_changes ht.coherent hs hn hentry hw hne
    obtain ⟨f, hreceived, hf⟩ := (ht.session s hs).uploads ha ⟨now, permission, hi⟩
    rw [hi] at hw
    refine ⟨f, hf, ?_⟩
    -- The body of a planned file is as before, or a conflict was cleared, or it is the uploaded
    -- file.
    rcases commit_kept hs hreceived hentry hw with h | ⟨hreplaced, h⟩ | ⟨data, h, rfl⟩
    · exact absurd h hne
    · exact .inr ⟨hreplaced, Option.map_eq_none_iff.mp h⟩
    · exact .inl h
  · intro n file hm
    rw [he] at hm
    obtain ⟨now, connection, permission, request, s, hi, hs, rfl, hl⟩ := marks_owner hm
    -- An install belongs to a COMMIT, whose file was uploaded.
    obtain ⟨i, resource, f, rfl, rfl, rfl, hf, ha⟩ := hl.mem_install hm
    obtain ⟨f', hf', hu⟩ := (ht.session s hs).uploads ha ⟨now, permission, hi⟩
    obtain rfl := Option.some.inj (hf.symm.trans hf')
    exact ⟨s, hs, f, rfl, hu⟩

end

/-- The eighth call of a push is the COMMIT of a file. -/
theorem uploads_ordered_small : @Ordered emptySha ((smallPushed .full).take 7)
    ((smallPushed .full).get ⟨7, by decide⟩) :=
  @uploads_ordered emptySha .opened smallDisk (smallPush .full) _ _ ((smallPushed .full).drop 8) (by
    show smallPushed .full = _
    rw [List.get_eq_getElem, List.getElem_cons_drop, List.take_append_drop])

end RrSync

import RrSync.Proofs.Engine
import RrSync.Proofs.Effects
import RrSync.Lib.Machine

/-!
# `RrSync.Proofs.Requests`: which calls a request makes

`Session.Admits` is what the state machine asks of a request of the owner before it does
anything. `calls_handleInner` says of the calls of any request: they only look, or they are
those of `prepare`, `install` and `finish` for a request that is admitted. The rule is stated
for any predicate `P` of calls, so one walk through the server serves all results about what
it does to the disk.
-/

set_option autoImplicit false

namespace RrSync

open Lib

namespace Session

/-- What the state machine asks of a request before it does anything. -/
def Admits (s : Session) : Message → Prop
  | .begin i => (s.push = true ∧ i.toNat ∈ s.plan.files ∧ i.toNat ∉ s.done) ∧ s.pending = none
  | .commit i resource => (s.push = true ∧ i.toNat ∈ s.plan.files ∧ i.toNat ∉ s.done) ∧
    s.pending = some i.toNat ∧ ∃ f e, s.received = some f ∧
      s.source.entries[i.toNat]? = some e ∧ f.transferId = resource ∧ f.size = e.size ∧
      f.hasMetadata = false
  | .get i => (s.push = false ∧ i.toNat ∈ s.plan.files ∧ i.toNat ∉ s.done) ∧ s.pending = none
  | .verified i => (s.push = false ∧ i.toNat ∈ s.plan.files ∧ i.toNat ∉ s.done) ∧
    s.pending = some i.toNat
  | .finish => s.options.dryRun = false →
    s.pending = none ∧ s.done.length = s.plan.files.length
  | _ => False

/-- A request that is served was admitted by the state. -/
theorem Serves.admits {s : Session} {request : Message} {reply : ServerReply}
    {session : Option Session} (h : s.Serves request reply session) : s.Admits request := by
  cases h with
  | begin h1 h2 h3 h4 => exact ⟨⟨h1, h2, h3⟩, h4⟩
  | commit h1 h2 h3 h4 h5 h6 h7 h8 h9 => exact ⟨⟨h1, h2, h3⟩, h4, _, _, h5, h6, h7, h8, h9⟩
  | get h1 h2 h3 h4 => exact ⟨⟨h1, h2, h3⟩, h4⟩
  | verified h1 h2 h3 h4 => exact ⟨⟨h1, h2, h3⟩, h4⟩
  | finish h => exact h

/-- The calls of the three steps of a synchronization that a request may run. -/
structure Steps (P : FsCall → Prop) (s : Session) [Sha256] (request : Message) : Prop where
  prepare : s.Admits request → s.push = true → s.options.dryRun = false → s.prepared = false →
    Calls P (do mark .prepare; RrSync.prepare s.root s.source s.plan)
  install : ∀ i resource f e, request = .commit i resource → s.Admits request →
    s.options.dryRun = false → s.received = some f → s.source.entries[i.toNat]? = some e →
    Calls P (do
      mark (.install i.toNat f.file)
      RrSync.install s.root e s.destination s.plan f.file)
  finish : request = .finish → s.Admits request → s.push = true → s.options.dryRun = false →
    Calls P (do mark .finish; RrSync.finish s.root s.source s.plan)

variable {P : FsCall → Prop} {s : Session}

/-- `check_source` only reads. -/
theorem calls_checkSource (hP : ∀ c, c.Reads → P c) {root : Root} {scan : Scan} :
    Calls P (checkSource root scan) := by
  have h {path : String} {stamp : Stamp} : Calls P (ensureUnchanged root path stamp) :=
    calls_ensureUnchanged.mono hP
  have hrest : Calls P (scan.manifest.entries.forM fun e => do
      if e.kind ≠ .guarded then
        let stamp ← (scan.stamp e.path : Except Error Stamp)
        ensureUnchanged root e.path stamp : FsM PUnit) :=
    Prog.issues_forM fun e _ => calls_ite (calls_lift fun _ _ => h) trivial
  unfold checkSource
  split
  · exact Prog.issues_bind h fun _ => hrest
  · exact hrest

/-- Making the directories of a plan once. -/
theorem calls_ready (hready : s.prepared = false →
    Calls P (do mark .prepare; RrSync.prepare s.root s.source s.plan)) : Calls P s.ready := by
  unfold ready
  split
  · trivial
  · next h =>
    have h1 := hready (by simpa using h)
    show Calls P (mark .prepare >>= fun _ => RrSync.prepare s.root s.source s.plan >>= fun _ => _)
    rw [← bind_assoc]
    exact Prog.issues_bind h1 fun _ => trivial

/-- `ready` leaves the session as it is, but for the note that it has run. -/
theorem returns_ready :
    s.ready.Returns fun s' => s'.root = s.root ∧ s'.source = s.source ∧ s'.plan = s.plan := by
  unfold ready
  split
  · exact ⟨rfl, rfl, rfl⟩
  · exact Prog.returns_bind fun _ => Prog.returns_bind fun _ => ⟨rfl, rfl, rfl⟩

/-- The calls of a request of the owner are those of its steps. -/
theorem calls_serve [Sha256] (hP : ∀ c, c.Reads → P c) {request : Message}
    (hdry : s.options.dryRun = true → request = .finish) (h : s.Steps P request) :
    Calls P (s.serve request) := by
  have hd (hne : request ≠ .finish) : s.options.dryRun = false :=
    Bool.eq_false_iff.mpr fun hd => hne (hdry hd)
  cases request with
  | begin i =>
    refine Prog.issues_bind ?_ fun _ => trivial
    refine calls_lift fun _ hf => calls_unless fun hp => Prog.issues_bind ?_ fun _ => trivial
    -- The checks that were passed are what the request admits.
    have hf := requireFile_ok.mp hf
    exact calls_ready (h.prepare ⟨hf, by simpa using hp⟩ hf.1 (hd nofun))
  | commit i resource =>
    refine Prog.issues_bind ?_ fun _ => trivial
    refine calls_lift fun _ hf => calls_unless fun hp => ?_
    have hf := requireFile_ok.mp hf
    split
    · trivial
    · next f hr =>
      refine calls_index fun e he => calls_unless fun hc => ?_
      simp only [ne_eq, Bool.or_eq_true, decide_eq_true_eq, not_or, Decidable.not_not,
        Bool.not_eq_true] at hc hp
      have h1 := h.install i resource f e rfl
        ⟨hf, hp, f, e, hr, he, hc.1.1, hc.1.2, hc.2⟩ (hd nofun) hr he
      show Calls P (mark _ >>= fun _ => RrSync.install s.root e s.destination s.plan f.file >>= fun _ => _)
      rw [← bind_assoc]
      exact Prog.issues_bind h1 fun _ => trivial
  | get i =>
    refine Prog.issues_bind ?_ fun _ => trivial
    refine calls_lift fun _ _ => calls_unless fun _ => calls_index fun e _ =>
      calls_lift fun _ _ => Prog.issues_bind (calls_snapshot.mono hP) fun _ => trivial
  | verified i =>
    refine Prog.issues_bind ?_ fun _ => trivial
    refine calls_lift fun _ _ => calls_unless fun _ => calls_index fun e _ =>
      calls_lift fun _ _ => Prog.issues_bind (calls_ensureUnchanged.mono hP) fun _ => trivial
  | finish =>
    refine Prog.issues_bind ?_ fun _ => trivial
    unfold finish
    split
    · next hdry =>
      have hdry : s.options.dryRun = false := by simpa using hdry
      refine calls_unless fun hp => ?_
      simp only [Bool.or_eq_true, decide_eq_true_eq, not_or, Decidable.not_not, ne_eq,
        Option.not_isSome_iff_eq_none] at hp
      have ha : s.Admits .finish := fun _ => hp
      split
      · next hpush =>
        -- Preparing changes only the flag.
        refine Prog.issues_bind_returns (calls_ready (h.prepare ha hpush hdry)) returns_ready
          fun s' hs' => ?_
        rw [hs'.1, hs'.2.1, hs'.2.2]
        exact h.finish rfl ha hpush hdry
      · exact calls_checkSource hP
    · trivial
  | _ => trivial

end Session

namespace Server

variable {P : FsCall → Prop} {server : Server} {now : Instant} {connection : ConnectionId}
  {permission : Permission} [Sha256]

/-- START only reads. -/
theorem calls_start (hP : ∀ c, c.Reads → P c) {push : Bool} {options : Options} {path : String}
    {manifest : Manifest} :
    Calls P (server.start now connection permission push options path manifest) := by
  refine calls_unless fun _ => calls_unless fun _ => calls_lift fun root _ => ?_
  have hrest : Calls P (do
      let scan ← scan root options.checksum
      let plan ← (RrSync.plan (if push then manifest else scan.manifest)
        (if push then scan.manifest else manifest) options : Except Error Plan)
      pure (ServerReply.message (.manifest scan.manifest), (⟨server.root,
        some (.opened connection push options root manifest scan plan now)⟩ : Server))) :=
    Prog.issues_bind (calls_scan.mono hP) fun _ => calls_lift fun _ _ => trivial
  refine calls_ite (Prog.issues_bind (calls_exists.mono hP) fun found => ?_) hrest
  exact calls_unless fun _ => hrest

/-- The calls of a request: they only look, or they are those of the owner's steps. -/
theorem calls_handleInner (hP : ∀ c, c.Reads → P c) {request : Message}
    (h : ∀ s, permission ≠ .deny → server.session = some s → s.connection = connection →
      Session.Steps P { s with activity := now } request) :
    Calls P (server.handleInner now connection permission request) := by
  refine calls_unless fun hallowed => ?_
  have hrest : Calls P (server.inSession now connection request) := by
    unfold inSession
    split
    · trivial
    · next s hs =>
      obtain ⟨hsession, howner⟩ := Option.filter_eq_some_iff.mp hs
      refine calls_unless fun hdry => Prog.issues_bind ?_ fun _ => trivial
      exact Session.calls_serve hP (fun hd => Decidable.not_not.mp fun h => hdry ⟨hd, h⟩)
        (h s hallowed hsession (by simpa using howner))
  cases request with
  | start push options path manifest => exact calls_start hP
  | _ => exact hrest

/-- `handle` makes the calls of `handleInner`, and no other. -/
theorem calls_handle {request : Message}
    (h : Calls P (server.handleInner now connection permission request)) :
    Prog.Issues (S := FsSig) P (server.handle now connection permission request) := by
  refine Prog.issues_bind (Prog.issues_attempt h) fun r => ?_
  split <;> trivial

end Server

/-! ### Calls of the adapter -/

/-- The disk at some moment of a call of the adapter. -/
def During [Sha256] (st : Server × Disk) (w : Disk) : Input → Prop
  | .handle now connection permission request =>
    (st.1.handle now connection permission request).Moment exec st.2 w
  | _ => w = st.2

/-- A new server has no session. -/
theorem started_coherent (root : Root) : Server.Coherent ⟨root, none⟩ :=
  fun _ h => absurd h (Option.not_mem_none _)

section
variable [Sha256] {st : Server × Disk}

/-- A step that is a request. -/
theorem step_handle {now : Instant} {connection : ConnectionId} {permission : Permission}
    {request : Message} : step st (.handle now connection permission request) =
      (.reply ((st.1.handle now connection permission request).runOk exec st.2).1.1,
        ((st.1.handle now connection permission request).runOk exec st.2).1.2,
        ((st.1.handle now connection permission request).runOk exec st.2).2) := rfl

/-- A step that is a file. -/
theorem step_receive {connection : ConnectionId} {file : ReceivedFile} :
    step st (.receive connection file) = match st.1.receive connection file with
      | .ok server => (.received (.ok ()), server, st.2)
      | .error e => (.received (.error e), st) := rfl

/-- Every step keeps the invariant. -/
theorem step_coherent (hs : st.1.Coherent) (i : Input) : (step st i).2.1.Coherent := by
  cases i with
  | handle now connection permission request =>
    rcases Server.handle_cases hs now connection permission request st.2 with
      ⟨reply, -, h⟩ | ⟨e, -, -, h⟩
    · exact hs.accepts h
    · rw [step_handle]
      exact h ▸ hs.disconnect
  | receive connection file =>
    obtain ⟨server', h, hc, -⟩ := hs.receive connection file
    rw [step_receive, h]
    exact hc
  | disconnect connection => exact hs.disconnect
  | touch connection now => exact hs.touch
  | expire now timeout => exact hs.expire

/-- Every state of a run satisfies the invariant. -/
theorem events_coherent {root : Root} {w : Disk} {is : List Input}
    {e : Event (Server × Disk) Input Output} (he : e ∈ events step (⟨root, none⟩, w) is) :
    e.pre.1.Coherent ∧ e = event step e.pre e.input := by
  obtain ⟨h, -, h'⟩ := events_invariant (fun st : Server × Disk => st.1.Coherent)
    (started_coherent root) (fun st i hs => step_coherent hs i) he
  exact ⟨h, h'⟩

end

end RrSync

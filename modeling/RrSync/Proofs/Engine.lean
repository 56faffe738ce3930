import RrSync.Model.Engine
import RrSync.Proofs.Panics
import RrSync.Proofs.Phases

/-!
# `RrSync.Proofs.Engine`: what one call of the server can do

`Session.Coherent` is the invariant of a session, `Session.Serves` lists what can come of a
request of its owner, and `Server.Accepts` what can come of any request. `handleInner_ends`
says that a request ends in one of these ways or with an error that is no panic. All later
results about runs of the server start from it.
-/

set_option autoImplicit false

namespace RrSync

open Lib

/-- The invariant of a session. -/
structure Session.Coherent (s : Session) : Prop where
  planned : RrSync.plan s.source s.destination s.options = .ok s.plan
  scanned : s.scan.Complete s.options.checksum
  own : s.scan.manifest = if s.push then s.destination else s.source
  done : s.done.Nodup ∧ ∀ i ∈ s.done, i ∈ s.plan.files
  pending : ∀ i ∈ s.pending, i ∈ s.plan.files ∧ i ∉ s.done
  received : ∀ f ∈ s.received, s.push = true ∧ f.hasMetadata = false ∧
    ∃ i e, s.pending = some i ∧ s.source.entries[i]? = some e ∧ f.size = e.size
  dry : s.options.dryRun = true →
    s.prepared = false ∧ s.pending = none ∧ s.received = none ∧ s.done = []
  pull : s.push = false → s.prepared = false

/-- The file is planned, still to be done, and sent in the right direction. -/
theorem requireFile_ok {s : Session} {i : Nat} {push : Bool} {u : Unit} :
    requireFile s i push = .ok u ↔ s.push = push ∧ i ∈ s.plan.files ∧ i ∉ s.done := by
  unfold requireFile
  rw [ite_throw_eq_ok, pure_eq_ok, and_iff_left rfl]
  simp [not_or, and_assoc]

/-- `require_file` does not panic. -/
theorem fine_requireFile {s : Session} {i : Nat} {push : Bool} :
    Fine (fun _ => s.push = push ∧ i ∈ s.plan.files ∧ i ∉ s.done) (requireFile s i push) := by
  cases h : requireFile s i push with
  | ok u => exact requireFile_ok.mp h
  | error e =>
    unfold requireFile at h
    split at h
    · obtain rfl := Except.error.inj h
      exact id
    · cases h

namespace Session

/-- What can come of a request of the owner: the reply and the session after it. -/
inductive Serves (s : Session) : Message → ServerReply → Option Session → Prop
  | begin {i : UInt32} (push : s.push = true) (file : i.toNat ∈ s.plan.files)
      (fresh : i.toNat ∉ s.done) (idle : s.pending = none) :
      Serves s (.begin i) (.message .ok)
        (some { s with prepared := true, pending := some i.toNat })
  | commit {i : UInt32} {resource : TransferId} {f : ReceivedFile} {e : Entry}
      (push : s.push = true) (file : i.toNat ∈ s.plan.files) (fresh : i.toNat ∉ s.done)
      (pending : s.pending = some i.toNat) (received : s.received = some f)
      (entry : s.source.entries[i.toNat]? = some e) (transferId : f.transferId = resource)
      (size : f.size = e.size) (plain : f.hasMetadata = false) :
      Serves s (.commit i resource) (.message .ok)
        (some { s with received := none, pending := none, done := s.done.insert i.toNat })
  | get {i : UInt32} {file : Bytes} (pull : s.push = false) (planned : i.toNat ∈ s.plan.files)
      (fresh : i.toNat ∉ s.done) (idle : s.pending = none) :
      Serves s (.get i) (.file .ok file) (some { s with pending := some i.toNat })
  | verified {i : UInt32} (pull : s.push = false) (file : i.toNat ∈ s.plan.files)
      (fresh : i.toNat ∉ s.done) (pending : s.pending = some i.toNat) :
      Serves s (.verified i) (.message .ok)
        (some { s with pending := none, done := s.done.insert i.toNat })
  | finish (complete : s.options.dryRun = false →
      s.pending = none ∧ s.done.length = s.plan.files.length) :
      Serves s .finish (.message .ok) none

variable {s : Session}

/-- A planned file is an entry of the source. -/
theorem Coherent.file_lt (hs : s.Coherent) {i : Nat} (hi : i ∈ s.plan.files) :
    i < s.source.entries.length := RrSync.file_lt hs.planned hi

/-- A planned directory is an entry of the source. -/
theorem Coherent.directory_lt (hs : s.Coherent) {i : Nat} (hi : i ∈ s.plan.directories) :
    i < s.source.entries.length := RrSync.directory_lt hs.planned hi

/-- In a pull the source is the scan, so each of its entries has a stamp. -/
theorem Coherent.stamp (hs : s.Coherent) (hpull : s.push = false) {i : Nat} {e : Entry}
    (he : s.source.entries[i]? = some e) : ∃ stamp, s.scan.stamp e.path = .ok stamp := by
  refine hs.scanned.stamped e ?_
  rw [hs.own, hpull]
  exact List.mem_of_getElem? he

/-- A mark does not panic. -/
theorem fair_mark (m : Mark) : Fair (mark m) := fair_bind (fair_sys _) fun _ => trivial

/-- Making the directories of the plan once does not panic. -/
theorem Coherent.sound_ready (hs : s.Coherent) :
    Sound (fun s' => s' = { s with prepared := true }) s.ready := by
  unfold ready
  split
  · next h =>
    show s = _
    rw [← h]
  · exact fair_bind (fair_mark _) fun _ =>
      fair_bind (fair_prepare fun i hi => hs.directory_lt hi) fun _ => rfl

/-- `check_source` finds a stamp for each entry that it looks at. -/
theorem fair_checkSource {root : Root} {scan : Scan} {checksum : Bool}
    (h : scan.Complete checksum) : Fair (checkSource root scan) := by
  have hrest : Fair (scan.manifest.entries.forM fun e => do
      if e.kind ≠ .guarded then
        let stamp ← (scan.stamp e.path : Except Error Stamp)
        ensureUnchanged root e.path stamp : FsM PUnit) := by
    refine fair_forM fun e he => sound_ite (fun _ => ?_) fun _ => trivial
    obtain ⟨stamp, hs⟩ := h.stamped e he
    refine fair_bind (sound_lift ?_) fun _ => fair_ensureUnchanged
    rw [hs]
    trivial
  unfold checkSource
  split
  · exact fair_bind fair_ensureUnchanged fun _ => hrest
  · exact hrest

section
variable [Sha256]

omit [Sha256] in
/-- BEGIN does not panic, and waits for the file. -/
theorem Coherent.sound_begin (hs : s.Coherent) (i : Nat) :
    Sound (fun s' => (s.push = true ∧ i ∈ s.plan.files ∧ i ∉ s.done) ∧ s.pending = none ∧
      s' = { s with prepared := true, pending := some i }) (s.begin i) := by
  refine sound_bind (sound_lift fine_requireFile) fun _ hf => sound_check id fun hp =>
    sound_bind hs.sound_ready fun s' h => ?_
  subst h
  exact ⟨hf, by simpa using hp, rfl⟩

/-- COMMIT does not panic, and has installed what was received. -/
theorem Coherent.sound_commit (hs : s.Coherent) (i : Nat) (resource : TransferId) :
    Sound (fun s' => (s.push = true ∧ i ∈ s.plan.files ∧ i ∉ s.done) ∧ s.pending = some i ∧
      (∃ f e, s.received = some f ∧ s.source.entries[i]? = some e ∧ f.transferId = resource ∧
        f.size = e.size ∧ f.hasMetadata = false) ∧
      s' = { s with received := none, pending := none, done := s.done.insert i })
      (s.commit i resource) := by
  refine sound_bind (sound_lift fine_requireFile) fun _ hf => sound_check id fun hp => ?_
  split
  · exact id
  · next f hr =>
    refine sound_entry (hs.file_lt hf.2.1) fun e he => sound_check id fun hc => ?_
    refine fair_bind (fair_mark _) fun _ => fair_bind fair_install fun _ => ?_
    simp only [ne_eq, Bool.or_eq_true, decide_eq_true_eq, not_or, Decidable.not_not,
      Bool.not_eq_true] at hc hp
    exact ⟨hf, hp, ⟨f, e, hr, he, hc.1.1, hc.1.2, hc.2⟩, rfl⟩

omit [Sha256] in
/-- GET does not panic, and waits for the confirmation. -/
theorem Coherent.sound_get (hs : s.Coherent) (i : Nat) :
    Sound (fun r => (s.push = false ∧ i ∈ s.plan.files ∧ i ∉ s.done) ∧ s.pending = none ∧
      r.2 = { s with pending := some i }) (s.get i) := by
  refine sound_bind (sound_lift fine_requireFile) fun _ hf => sound_check id fun hp =>
    sound_entry (hs.file_lt hf.2.1) fun e he => ?_
  obtain ⟨stamp, hst⟩ := hs.stamp hf.1 he
  refine fair_bind (sound_lift ?_) fun _ => fair_bind fair_snapshot fun file => ?_
  · rw [hst]
    trivial
  · exact ⟨hf, by simpa using hp, rfl⟩

omit [Sha256] in
/-- VERIFIED does not panic, and counts the file as done. -/
theorem Coherent.sound_verified (hs : s.Coherent) (i : Nat) :
    Sound (fun s' => (s.push = false ∧ i ∈ s.plan.files ∧ i ∉ s.done) ∧ s.pending = some i ∧
      s' = { s with pending := none, done := s.done.insert i }) (s.verified i) := by
  refine sound_bind (sound_lift fine_requireFile) fun _ hf => sound_check id fun hp =>
    sound_entry (hs.file_lt hf.2.1) fun e he => ?_
  obtain ⟨stamp, hst⟩ := hs.stamp hf.1 he
  refine fair_bind (sound_lift ?_) fun _ => fair_bind fair_ensureUnchanged fun _ => ?_
  · rw [hst]
    trivial
  · exact ⟨hf, Decidable.not_not.mp hp, rfl⟩

omit [Sha256] in
/-- FINISH does not panic, and finds all files done unless it is a dry run. -/
theorem Coherent.sound_finish (hs : s.Coherent) :
    Sound (fun _ => s.options.dryRun = false →
      s.pending = none ∧ s.done.length = s.plan.files.length) s.finish := by
  unfold finish
  refine sound_ite (fun _ => sound_check id fun hp => ?_) fun hd => ?_
  · simp only [Bool.or_eq_true, decide_eq_true_eq, not_or, Decidable.not_not, ne_eq,
      Option.not_isSome_iff_eq_none] at hp
    refine sound_ite (fun _ => ?_) fun _ => ?_
    · refine sound_bind hs.sound_ready fun s' h => ?_
      subst h
      exact fair_bind (fair_mark _) fun _ =>
        (fair_finish fun i hi => hs.directory_lt hi).imp fun _ h => h.imp fun _ _ _ => hp
    · exact (fair_checkSource hs.scanned).imp fun _ h => h.imp fun _ _ _ => hp
  · intro h
    exact absurd h (by simpa using hd)

/-- No request of the owner panics, and each does what `Serves` says of it. -/
theorem Coherent.serve_ends (hs : s.Coherent) (request : Message) :
    Sound (fun r => s.Serves request r.1 r.2) (s.serve request) := by
  cases request with
  | begin i =>
    refine sound_bind (hs.sound_begin i.toNat) fun s' h => ?_
    obtain ⟨⟨h1, h2, h3⟩, hp, rfl⟩ := h
    exact .begin h1 h2 h3 hp
  | commit i resource =>
    refine sound_bind (hs.sound_commit i.toNat resource) fun s' h => ?_
    obtain ⟨⟨h1, h2, h3⟩, hp, ⟨f, e, hr, he, ht, hz, hm⟩, rfl⟩ := h
    exact .commit h1 h2 h3 hp hr he ht hz hm
  | get i =>
    refine sound_bind (hs.sound_get i.toNat) fun r h => ?_
    obtain ⟨file, s'⟩ := r
    obtain ⟨⟨h1, h2, h3⟩, hp, rfl⟩ := h
    exact .get h1 h2 h3 hp
  | verified i =>
    refine sound_bind (hs.sound_verified i.toNat) fun s' h => ?_
    obtain ⟨⟨h1, h2, h3⟩, hp, rfl⟩ := h
    exact .verified h1 h2 h3 hp
  | finish => exact sound_bind hs.sound_finish fun _ h => .finish h
  | _ => exact id

end

end Session

/-! ### All requests -/

/-- The invariant of a server. -/
def Server.Coherent (server : Server) : Prop :=
  ∀ s ∈ server.session, s.Coherent ∧ ∃ path, server.root.subtree path = .ok s.root

/-- The session a START makes of the scan of the server. -/
def Session.opened (connection : ConnectionId) (push : Bool) (options : Options) (root : Root)
    (manifest : Manifest) (scan : Scan) (plan : Plan) (now : Instant) : Session :=
  ⟨connection, push, options, root, if push then manifest else scan.manifest,
    if push then scan.manifest else manifest, scan, plan, false, none, none, [], now⟩

/-- What can come of a request that is not refused. -/
inductive Server.Accepts (server : Server) (now : Instant) (connection : ConnectionId)
    (permission : Permission) : Message → ServerReply → Server → Prop
  | start {push : Bool} {options : Options} {path : String} {manifest : Manifest} {root : Root}
      {scan : Scan} {plan : Plan} (allowed : permission ≠ .deny)
      (full : push = true → permission = .full) (idle : server.session = none)
      (under : server.root.subtree path = .ok root) (scanned : scan.Complete options.checksum)
      (planned : RrSync.plan (if push then manifest else scan.manifest)
        (if push then scan.manifest else manifest) options = .ok plan) :
      Accepts server now connection permission (.start push options path manifest)
        (.message (.manifest scan.manifest))
        ⟨server.root, some (.opened connection push options root manifest scan plan now)⟩
  | serve {s : Session} {request : Message} {reply : ServerReply} {session : Option Session}
      (allowed : permission ≠ .deny) (active : server.session = some s)
      (owner : s.connection = connection)
      (dry : s.options.dryRun = true → request = .finish)
      (served : Session.Serves { s with activity := now } request reply session) :
      Accepts server now connection permission request reply { server with session }

/-- The time of the last activity is no part of the invariant. -/
theorem Session.Coherent.touch {s : Session} (hs : s.Coherent) (now : Instant) :
    Session.Coherent { s with activity := now } :=
  ⟨hs.planned, hs.scanned, hs.own, hs.done, hs.pending, hs.received, hs.dry, hs.pull⟩

namespace Server

variable {server : Server} {now : Instant} {connection : ConnectionId} {permission : Permission}

section
variable [Sha256]

/-- START does not panic. -/
theorem start_ends {push : Bool} {options : Options} {path : String} {manifest : Manifest}
    (allowed : permission ≠ .deny) :
    Sound (fun r => server.Accepts now connection permission (.start push options path manifest)
      r.1 r.2) (server.start now connection permission push options path manifest) := by
  refine sound_check id fun hfull => sound_check id fun hbusy =>
    sound_bind (sound_lift (fine_ok fine_subtree)) fun root hroot => ?_
  have hrest : Sound (fun r : ServerReply × Server => server.Accepts now connection permission
      (.start push options path manifest) r.1 r.2) (do
      let scan ← scan root options.checksum
      let plan ← (RrSync.plan (if push then manifest else scan.manifest)
        (if push then scan.manifest else manifest) options : Except Error Plan)
      pure (.message (.manifest scan.manifest),
        ⟨server.root, some (.opened connection push options root manifest scan plan now)⟩)) := by
    refine sound_bind sound_scan fun scan hscan =>
      sound_bind (sound_lift (fine_ok fine_plan)) fun plan hplan => ?_
    exact .start allowed (fun hp => Decidable.not_not.mp fun h => hfull ⟨hp, h⟩)
      (by simpa using hbusy) hroot.1 hscan hplan.1
  refine sound_ite (fun _ => fair_bind fair_exists fun found => ?_) fun _ => hrest
  exact sound_check id fun _ => hrest

/-- A request about the session of its connection: what `handleInner` does but for START. -/
def inSession (server : Server) (now : Instant) (connection : ConnectionId) (request : Message) :
    FsM (ServerReply × Server) :=
  match server.session.filter (·.connection = connection) with
  | none => throw (.protocol "no active session")
  | some s => do
    let s := { s with activity := now }
    if s.options.dryRun ∧ request ≠ .finish then throw (.protocol "mutating command in dry-run")
    let (reply, session) ← s.serve request
    pure (reply, { server with session })

/-- No other request panics. -/
theorem inSession_ends (hs : server.Coherent) (hallowed : permission ≠ .deny) {request : Message} :
    Sound (fun r => server.Accepts now connection permission request r.1 r.2)
      (server.inSession now connection request) := by
  unfold inSession
  split
  · exact id
  · next s h =>
    obtain ⟨hsession, howner⟩ := Option.filter_eq_some_iff.mp h
    refine sound_check id fun hdry => ?_
    refine sound_bind (((hs s hsession).1.touch now).serve_ends request) fun r hr => ?_
    obtain ⟨reply, session⟩ := r
    exact Accepts.serve hallowed hsession (by simpa using howner)
      (fun hd => Decidable.not_not.mp fun h => hdry ⟨hd, h⟩) hr

/-- No request panics, and each that is accepted does what `Accepts` says of it. -/
theorem handleInner_ends (hs : server.Coherent) (now : Instant) (connection : ConnectionId)
    (permission : Permission) (request : Message) :
    Sound (fun r => server.Accepts now connection permission request r.1 r.2)
      (server.handleInner now connection permission request) := by
  refine sound_check id fun hallowed => ?_
  cases request with
  | start push options path manifest => exact start_ends hallowed
  | _ => exact inSession_ends hs hallowed

/-- A call of `handle` is a run of `handleInner`, and a disconnect when it failed. -/
theorem handle_run (now : Instant) (connection : ConnectionId) (permission : Permission)
    (request : Message) (w : Disk) :
    (server.handle now connection permission request).runOk exec w =
      match (server.handleInner now connection permission request).run exec w with
      | (.ok (reply, server'), w') => ((.ok reply, server'), w')
      | (.error e, w') => ((.error e, server.disconnect connection), w') := by
  unfold handle
  rw [Prog.runOk_bind, Prog.runOk_attempt]
  rcases (server.handleInner now connection permission request).run exec w with ⟨_ | ⟨_, _⟩, _⟩ <;>
    rfl

/-- Every call of `handle` is accepted, or fails without a panic and disconnects. -/
theorem handle_cases (hs : server.Coherent) (now : Instant) (connection : ConnectionId)
    (permission : Permission) (request : Message) (w : Disk) :
    let r := (server.handle now connection permission request).runOk exec w
    (∃ reply, r.1.1 = .ok reply ∧
      server.Accepts now connection permission request reply r.1.2) ∨
    ∃ e, r.1.1 = .error e ∧ ¬ e.IsPanic ∧ r.1.2 = server.disconnect connection := by
  intro r
  have h := (handleInner_ends hs now connection permission request).run exec w
  have hr : r = _ := handle_run now connection permission request w
  rcases hrun : (server.handleInner now connection permission request).run exec w with
    ⟨e | ⟨reply, server'⟩, w'⟩ <;> rw [hrun] at h hr <;> rw [hr]
  · exact Or.inr ⟨e, rfl, h, rfl⟩
  · exact Or.inl ⟨reply, rfl, h⟩

end

/-! ### The invariant of a server -/

end Server

namespace Session.Coherent

variable {s : Session} (hs : s.Coherent)
include hs

/-- A file is only kept while the server waits for one. -/
theorem received_none (h : s.pending = none ∨ s.push = false) : s.received = none := by
  cases hr : s.received with
  | none => rfl
  | some f =>
    obtain ⟨hpush, -, i, e, hi, -⟩ := hs.received f hr
    rcases h with h | h
    · rw [h] at hi
      cases hi
    · rw [h] at hpush
      cases hpush

/-- A file is moved from the pending one to the done ones. -/
theorem conclude {i : Nat} (hi : s.pending = some i) (hd : s.options.dryRun = false) :
    Session.Coherent { s with received := none, pending := none, done := s.done.insert i } where
  planned := hs.planned
  scanned := hs.scanned
  own := hs.own
  done := by
    obtain ⟨hf, hn⟩ := hs.pending i hi
    refine ⟨hs.done.1.insert, fun j hj => ?_⟩
    rcases List.mem_insert_iff.mp hj with rfl | hj
    · exact hf
    · exact hs.done.2 j hj
  pending := nofun
  received := nofun
  dry h := absurd h (by rw [hd]; decide)
  pull := hs.pull

/-- A request of the owner keeps the invariant of the session and its root. -/
theorem serves {request : Message} {reply : ServerReply} {session : Option Session}
    (hdry : s.options.dryRun = true → request = .finish)
    (h : s.Serves request reply session) :
    ∀ s' ∈ session, s'.Coherent ∧ s'.root = s.root := by
  -- in a dry run nothing but FINISH is served
  have hd (h : request ≠ .finish) : s.options.dryRun = false :=
    Bool.eq_false_iff.mpr fun hd => h (hdry hd)
  cases h with
  | @begin i push file fresh idle =>
    rintro _ ⟨⟩
    refine ⟨⟨hs.planned, hs.scanned, hs.own, hs.done, ?_, ?_, ?_, ?_⟩, rfl⟩
    · rintro _ ⟨⟩
      exact ⟨file, fresh⟩
    · intro f hf
      rw [hs.received_none (Or.inl idle)] at hf
      cases hf
    · intro h
      rw [hd nofun] at h
      cases h
    · intro h
      rw [push] at h
      cases h
  | commit _ _ _ pending =>
    rintro _ ⟨⟩
    exact ⟨hs.conclude pending (hd nofun), rfl⟩
  | get pull planned fresh idle =>
    rintro _ ⟨⟩
    refine ⟨⟨hs.planned, hs.scanned, hs.own, hs.done, ?_, ?_, ?_, hs.pull⟩, rfl⟩
    · rintro _ ⟨⟩
      exact ⟨planned, fresh⟩
    · intro f hf
      rw [hs.received_none (Or.inr pull)] at hf
      cases hf
    · intro h
      rw [hd nofun] at h
      cases h
  | verified pull _ _ pending =>
    rintro _ ⟨⟩
    have h := hs.conclude pending (hd nofun)
    rw [← hs.received_none (Or.inr pull)] at h
    exact ⟨h, rfl⟩
  | finish => exact fun _ h => absurd h (Option.not_mem_none _)

end Session.Coherent

namespace Server

variable {server server' : Server} {now : Instant} {connection : ConnectionId}
  {permission : Permission}

/-- A request that is accepted keeps the invariant. -/
theorem Coherent.accepts {request : Message} {reply : ServerReply} (hs : server.Coherent)
    (h : server.Accepts now connection permission request reply server') : server'.Coherent := by
  cases h with
  | start _ _ _ under scanned planned =>
    rintro _ ⟨⟩
    refine ⟨⟨planned, scanned, ?_, ?_, nofun, nofun, fun _ => ⟨rfl, rfl, rfl, rfl⟩, fun _ => rfl⟩,
      _, under⟩
    · unfold Session.opened
      split <;> rfl
    · exact ⟨List.nodup_nil, nofun⟩
  | serve _ active _ dry served =>
    intro s' hs'
    obtain ⟨hc, path, hroot⟩ := hs _ active
    obtain ⟨h1, h2⟩ := (hc.touch now).serves dry served s' hs'
    exact ⟨h1, path, hroot.trans (congrArg _ h2.symm)⟩

/-- The session that a lost connection leaves is that of another connection. -/
theorem mem_disconnect {s : Session} (h : s ∈ (server.disconnect connection).session) :
    s ∈ server.session ∧ s.connection ≠ connection := by
  unfold Server.disconnect at h
  split at h
  · cases h
  · next hany =>
    refine ⟨h, fun howner => hany ?_⟩
    rw [Option.mem_def.mp h]
    simpa using howner

/-- A lost connection leaves the export that is served. -/
theorem disconnect_root : (server.disconnect connection).root = server.root := by
  unfold Server.disconnect
  split <;> rfl

/-- The maintenance starts no session. -/
theorem mem_expire {timeout : Nat} {s : Session} (h : s ∈ (server.expire now timeout).2.session) :
    s ∈ server.session := by
  unfold Server.expire at h
  split at h
  · split at h
    · cases h
    · exact h
  · exact h

/-- The maintenance leaves the export that is served. -/
theorem expire_root {timeout : Nat} : (server.expire now timeout).2.root = server.root := by
  unfold Server.expire
  split
  · split <;> rfl
  · rfl

/-- A lost connection keeps the invariant. -/
theorem Coherent.disconnect (hs : server.Coherent) : (server.disconnect connection).Coherent := by
  unfold Server.disconnect
  split
  · exact fun _ h => absurd h (Option.not_mem_none _)
  · exact hs

/-- The time of the last activity is no part of the invariant. -/
theorem Coherent.touch (hs : server.Coherent) : (server.touch connection now).Coherent := by
  intro s h
  obtain ⟨s₀, h₀, rfl⟩ := Option.map_eq_some_iff.mp h
  obtain ⟨hc, hr⟩ := hs s₀ h₀
  split
  · exact ⟨hc.touch now, hr⟩
  · exact ⟨hc, hr⟩

/-- The maintenance keeps the invariant. -/
theorem Coherent.expire {timeout : Nat} (hs : server.Coherent) :
    (server.expire now timeout).2.Coherent := by
  unfold Server.expire
  split
  · split
    · exact fun _ h => absurd h (Option.not_mem_none _)
    · exact hs
  · exact hs

/-- What the check of an incoming file looks up is there. -/
theorem Coherent.acceptsFile (hs : server.Coherent) (connection : ConnectionId) (size : Nat)
    (hasMetadata : Bool) :
    ∃ b, server.acceptsFile connection size hasMetadata = .ok b ∧ (b = true →
      ∃ s i e, server.session = some s ∧ s.connection = connection ∧ s.push = true ∧
        s.options.dryRun = false ∧ hasMetadata = false ∧ s.pending = some i ∧
        s.source.entries[i]? = some e ∧ e.size = size) := by
  unfold Server.acceptsFile
  split
  · exact ⟨false, rfl, nofun⟩
  · next s h =>
    split
    · next hc =>
      split
      -- A file is pending, so its entry exists and its size decides.
      · next i hi =>
        obtain ⟨hcoh, -⟩ := hs s h
        have he := List.getElem?_eq_getElem (hcoh.file_lt (hcoh.pending i hi).1)
        refine ⟨_, by rw [index, he]; rfl, fun hb => ?_⟩
        simp only [Bool.and_eq_true, Bool.not_eq_true', decide_eq_true_eq] at hc
        exact ⟨s, i, _, h, hc.1.1.1, hc.1.1.2, hc.1.2, hc.2, hi, he, by simpa using hb⟩
      · exact ⟨false, rfl, nofun⟩
    · exact ⟨false, rfl, nofun⟩

/-- A file is dropped, or it is the first one for the pending upload. -/
theorem Coherent.receive (hs : server.Coherent) (connection : ConnectionId)
    (file : ReceivedFile) :
    ∃ server', server.receive connection file = .ok server' ∧ server'.Coherent ∧
      (server' = server ∨ ∃ s, server.session = some s ∧ s.connection = connection ∧
        s.received = none ∧ server' = ⟨server.root, some { s with received := some file }⟩) := by
  obtain ⟨b, hb, h⟩ := hs.acceptsFile connection file.size file.hasMetadata
  unfold Server.receive
  rw [hb]
  cases b with
  | false => exact ⟨server, rfl, hs, Or.inl rfl⟩
  | true =>
    obtain ⟨s, i, e, hsession, howner, hpush, hdry, hmeta, hi, he, hsize⟩ := h rfl
    obtain ⟨hc, hr⟩ := hs s hsession
    show ∃ server', Except.ok _ = Except.ok server' ∧ _
    refine ⟨_, rfl, ?_⟩
    rw [hsession, Option.map_some]
    cases hrec : s.received with
    -- A second file is dropped.
    | some f =>
      have h : (⟨server.root, some s⟩ : Server) = server := by rw [← hsession]
      exact ⟨h ▸ hs, Or.inl h⟩
    | none =>
      rw [if_pos (show (none : Option ReceivedFile).isNone = true from rfl)]
      -- The first one is kept.
      refine ⟨?_, Or.inr ⟨s, rfl, howner, hrec, rfl⟩⟩
      rintro _ ⟨⟩
      refine ⟨⟨hc.planned, hc.scanned, hc.own, hc.done, hc.pending, ?_, ?_, hc.pull⟩, hr⟩
      · rintro _ ⟨⟩
        exact ⟨hpush, hmeta, i, e, hi, he, hsize.symm⟩
      · intro h
        rw [hdry] at h
        cases h

end Server

end RrSync

import RrSync.Model.EngineV2
import RrSync.Proofs.Store
import RrSync.Proofs.Engine
import RrSync.Proofs.Marks

/-!
# `RrSync.Proofs.EngineV2`: what one call of the second server can do

The counterpart of `Proofs.Engine`: `Serves` lists what can come of a request of the owner,
`Server.Accepts` what can come of any request, and `handleInner_ends` says that a request ends
in one of these ways or with an error that is no panic.

`Transfer.Coherent` is the invariant of a transfer and `Server.Coherent` that of the server.
-/

set_option autoImplicit false

namespace RrSync

open Lib

/-- A program on the tree ends as it does by itself. -/
theorem sound_onTree {α : Type} {R : α → Prop} {m : FsM α} (hm : Sound R m) :
    Sound R (onTree m) := Prog.ends_atVol hm

/-- A program on the cache ends as it does by itself. -/
theorem sound_onCache {α : Type} {R : α → Prop} {m : FsM α} (hm : Sound R m) :
    Sound R (onCache m) := Prog.ends_atVol hm

namespace V2

/-! ### The requests of the owner -/

/-- An error of the protocol is no panic. -/
theorem invalid_fine {text : String} : ¬ (invalid text).IsPanic := id

/-- A description that is accepted has the size and the hash of the entry. -/
theorem fine_validateDescription {e : Entry} {d : Description} :
    Fine (fun _ => e.size = d.size ∧ ∀ h ∈ e.hash, h = d.hash) (validateDescription e d) := by
  refine fine_ite (fun _ => id) fun h => ?_
  obtain ⟨h1, h2⟩ := not_or.mp h
  refine ⟨Decidable.not_not.mp h1, fun x hx => ?_⟩
  rw [Option.mem_def.mp hx] at h2
  simpa using h2

/-- The same, as a fact about what was accepted. -/
theorem validateDescription_ok {e : Entry} {d : Description} {u : Unit}
    (h : validateDescription e d = .ok u) : e.size = d.size ∧ ∀ h ∈ e.hash, h = d.hash := by
  have hfine := @fine_validateDescription e d
  rwa [h] at hfine

/-- The transfer that is found is the one of this file. -/
theorem fine_transfer {state : Option Transfer} {index : UInt32} :
    Fine (fun t => state = some t ∧ t.index = index.toNat) (transfer state index) := by
  unfold transfer
  split
  · next t h =>
    obtain ⟨h1, h2⟩ := Option.filter_eq_some_iff.mp h
    exact ⟨h1, by simpa using h2⟩
  · exact invalid_fine

/-- What can come of a request of the owner: the reply, and the session and the transfer
after it. -/
inductive Serves [Sha256] (s : Session) (state : Option Transfer) :
    Message → ServerReply → Session → Option Transfer → Prop
  | description {index : UInt32} {d : Description} {e : Entry} {store : Store}
      (push : s.push = true) (file : index.toNat ∈ s.plan.files) (fresh : index.toNat ∉ s.done)
      (idle : state = none) (entry : s.source.entries[index.toNat]? = some e)
      (described : e.size = d.size ∧ ∀ h ∈ e.hash, h = d.hash) :
      Serves s state (.description index d) ok { s with pending := some index.toNat }
        (some (newTransfer index.toNat d (.upload store [])))
  | describe {index chunkSize : UInt32} {d : Description} {e : Entry} {file : Bytes}
      (pull : s.push = false) (planned : index.toNat ∈ s.plan.files)
      (fresh : index.toNat ∉ s.done) (idle : state = none)
      (entry : s.source.entries[index.toNat]? = some e)
      (scanned : Description.scan file chunkSize = .ok d)
      (described : e.size = d.size ∧ ∀ h ∈ e.hash, h = d.hash) :
      Serves s state (.describe index chunkSize) (.message (.description index d))
        { s with pending := some index.toNat }
        (some (newTransfer index.toNat d (.download file [])))
  | hashes {index start : UInt32} {page : List Hash} {t : Transfer} {store : Store}
      {d : Description} {missing : List Nat} (active : state = some t)
      (file : t.index = index.toNat) (upload : t.payload = .upload store [])
      (idle : t.pending = none) (next : t.nextPage = start.toNat)
      (page_ok : t.description.setPage start.toNat page = .ok d)
      (found : missing.Sublist ((List.range page.length).map (start.toNat + ·))) :
      Serves s state (.hashes index start page)
        (.message (.missing index start (.ofNat page.length) (missing.map UInt32.ofNat))) s
        (some { t with description := d, payload := .upload store missing,
                       pageStart := start.toNat, nextPage := t.nextPage + page.length })
  | hashesGet {index start : UInt32} {page : List Hash} {t : Transfer} {file : Bytes}
      {served : List Nat} (active : state = some t) (file_ok : t.index = index.toNat)
      (download : t.payload = .download file served) (idle : t.pending = none)
      (next : t.nextPage = start.toNat) (page_ok : t.description.page start.toNat = .ok page) :
      Serves s state (.hashesGet index start) (.message (.hashes index start page)) s
        (some { t with payload := .download file [], pageStart := start.toNat,
                       nextPage := t.nextPage + page.length })
  | chunkBegin {index chunk : UInt32} {t : Transfer} {store : Store} {missing : List Nat}
      (active : state = some t) (file : t.index = index.toNat)
      (upload : t.payload = .upload store missing) (idle : t.pending = none)
      (asked : chunk.toNat ∈ missing) :
      Serves s state (.chunkBegin index chunk) ok s (some { t with pending := some chunk.toNat })
  | chunkCommit {index chunk : UInt32} {resource : TransferId} {t : Transfer}
      {store store' : Store} {missing : List Nat} {f : ReceivedFile} (active : state = some t)
      (file : t.index = index.toNat) (upload : t.payload = .upload store missing)
      (pending : t.pending = some chunk.toNat) (received : t.received = some f)
      (transferId : f.transferId = resource) (plain : f.hasMetadata = false)
      (size : t.description.length chunk.toNat = .ok f.size) :
      Serves s state (.chunkCommit index chunk resource) ok s
        (some { t with payload := .upload store' (missing.filter (· ≠ chunk.toNat)),
                       pending := none, received := none })
  | chunkGet {index chunk : UInt32} {t : Transfer} {file piece : Bytes} {served : List Nat}
      (active : state = some t) (file_ok : t.index = index.toNat)
      (download : t.payload = .download file served) (idle : t.pending = none)
      (fresh : chunk.toNat ∉ served) (first : t.pageStart ≤ chunk.toNat)
      (last : chunk.toNat < t.nextPage)
      (cut : chunkFile file t.description chunk.toNat = .ok piece) :
      Serves s state (.chunkGet index chunk) (.file (.common .ok) piece) s
        (some { t with pending := some chunk.toNat })
  | chunkVerified {index chunk : UInt32} {t : Transfer} {file : Bytes} {served : List Nat}
      (active : state = some t) (file_ok : t.index = index.toNat)
      (download : t.payload = .download file served) (pending : t.pending = some chunk.toNat) :
      Serves s state (.chunkVerified index chunk) ok s
        (some { t with payload := .download file (served.insert chunk.toNat), pending := none })
  | fileCommit {index : UInt32} {t : Transfer} {store : Store} (active : state = some t)
      (file : t.index = index.toNat) (upload : t.payload = .upload store [])
      (idle : t.pending = none) (complete : t.nextPage = t.description.chunkCount) :
      Serves s state (.fileCommit index) ok
        { s with prepared := true, done := s.done.insert t.index, pending := none } none
  | fileVerified {index : UInt32} {t : Transfer} {file : Bytes} {served : List Nat}
      (active : state = some t) (file_ok : t.index = index.toNat)
      (download : t.payload = .download file served) (idle : t.pending = none)
      (complete : t.nextPage = t.description.chunkCount) :
      Serves s state (.fileVerified index) ok
        { s with done := s.done.insert t.index, pending := none } none

/-- Whether the payload is that of an upload. -/
def Payload.isUpload : Payload → Bool
  | .upload _ _ => true
  | .download _ _ => false

/-- The chunks of the page that are missing, or that have been served. -/
def Payload.marked : Payload → List Nat
  | .upload _ missing => missing
  | .download _ served => served

/-- The invariant of the transfer of a session. -/
structure Transfer.Coherent (s : Session) (t : Transfer) : Prop where
  file : s.pending = some t.index
  real : s.options.dryRun = false
  direction : t.payload.isUpload = s.push
  entry : ∃ e, s.source.entries[t.index]? = some e ∧ e.size = t.description.size ∧
    ∀ h ∈ e.hash, h = t.description.hash
  next : t.nextPage = t.description.chunkCount ∨
    t.nextPage % pageChunks = 0 ∧ t.nextPage ≤ t.description.chunkCount
  start : t.pageStart ≤ t.nextPage
  within : ∀ c ∈ t.payload.marked, t.pageStart ≤ c ∧ c < t.nextPage
  pending : ∀ c ∈ t.pending, t.pageStart ≤ c ∧ c < t.nextPage ∧
    (c ∈ t.payload.marked ↔ t.payload.isUpload = true)
  received : ∀ f ∈ t.received, t.payload.isUpload = true ∧ f.hasMetadata = false ∧
    ∃ c, t.pending = some c ∧ t.description.length c = .ok f.size

/-- An upload is the transfer of a push. -/
theorem Transfer.Coherent.pushes {s : Session} {t : Transfer} (ht : t.Coherent s) {store : Store}
    {missing : List Nat} (h : t.payload = .upload store missing) : s.push = true := by
  rw [← ht.direction, h]
  rfl

/-- A download is the transfer of a pull. -/
theorem Transfer.Coherent.pulls {s : Session} {t : Transfer} (ht : t.Coherent s) {file : Bytes}
    {served : List Nat} (h : t.payload = .download file served) : s.push = false := by
  rw [← ht.direction, h]
  rfl

/-- The pages never go beyond the chunks of the file. -/
theorem Transfer.Coherent.next_le {s : Session} {t : Transfer} (ht : t.Coherent s) :
    t.nextPage ≤ t.description.chunkCount := by
  rcases ht.next with h | h
  · exact h.le
  · exact h.2

/-- `scope` does not panic. -/
theorem fine_scope [Sha256] {peer : Id} {push : Bool} {root path : String} :
    Fine (fun _ => True) (scope peer push root path) :=
  fine_bind fine_validate fun _ _ => fine_check id fun _ => trivial

/-- `Cache::open` does not panic. -/
theorem fair_open [Sha256] {cache : Cache} {peer : Id} {push : Bool} {pre : String} {e : Entry}
    {d : Description} : Fair (Cache.open cache peer push pre e d) := by
  refine fair_bind (sound_lift fine_scope) fun scope => ?_
  split
  · exact Store.fair_openLimited
  · exact Store.fair_openShared

section
variable [Sha256] {s : Session} {state : Option Transfer}

/-- DESCRIPTION does not panic, and does what `Serves` says of it. -/
theorem sound_description (hs : s.Coherent) (cache : Cache) (peer : Id) (path : String)
    (index : UInt32) (d : Description) :
    Sound (fun r => Serves s state (.description index d) r.1 r.2.1 r.2.2)
      (description s state cache peer path index d) := by
  refine sound_bind (sound_lift fine_requireFile) fun _ hf => sound_check invalid_fine fun hp =>
    sound_bind (sound_lift (fine_index (hs.file_lt hf.2.1))) fun e he =>
    sound_bind (sound_lift fine_validateDescription) fun _ hd =>
    fair_bind (sound_onCache fair_open) fun store => ?_
  exact .description hf.1 hf.2.1 hf.2.2 (by simpa using hp) he hd

/-- DESCRIBE does not panic, and does what `Serves` says of it. -/
theorem sound_describe (hs : s.Coherent) (index chunkSize : UInt32) :
    Sound (fun r => Serves s state (.describe index chunkSize) r.1 r.2.1 r.2.2)
      (describe s state index chunkSize) := by
  refine sound_bind (sound_lift fine_requireFile) fun _ hf => sound_check invalid_fine fun hp =>
    sound_bind (sound_lift (fine_index (hs.file_lt hf.2.1))) fun e he =>
    fair_bind (sound_lift (Description.fine_count.imp fun _ _ => trivial)) fun _ => ?_
  obtain ⟨stamp, hst⟩ := hs.stamp hf.1 he
  refine fair_bind (sound_lift (by rw [hst]; trivial)) fun _ =>
    fair_bind (sound_onTree fair_snapshot) fun file =>
    sound_bind (sound_lift Description.fine_scan) fun d hscan =>
    sound_bind (sound_lift fine_validateDescription) fun _ hd => ?_
  exact .describe hf.1 hf.2.1 hf.2.2 (by simpa using hp) he hscan hd

/-- HASHES does not panic, and does what `Serves` says of it. -/
theorem sound_hashes (index start : UInt32) (page : List Hash) :
    Sound (fun r => Serves s state (.hashes index start page) r.1 r.2.1 r.2.2)
      (hashes s state index start page) := by
  refine sound_bind (sound_lift fine_transfer) fun t ht => ?_
  split
  · exact invalid_fine
  · next store missing hp =>
    refine sound_check invalid_fine fun hc =>
      sound_bind (sound_lift Description.fine_setPage) fun d hd =>
      sound_bind (sound_onCache Store.sound_missing) fun missing' hm => ?_
    simp only [ne_eq, Bool.or_eq_true, decide_eq_true_eq, not_or, Decidable.not_not,
      Bool.not_eq_true, Option.isSome_eq_false_iff, Option.isNone_iff_eq_none] at hc
    obtain ⟨⟨hidle, rfl⟩, hnext⟩ := hc
    obtain ⟨-, -, hlen, hd'⟩ := Description.setPage_ok.mp hd
    refine .hashes ht.1 ht.2 hp hidle hnext.symm hd ?_
    rw [hlen]
    rw [← hd'] at hm
    exact hm

/-- HASHES_GET does not panic, and does what `Serves` says of it. -/
theorem fine_hashesGet (index start : UInt32) :
    Fine (fun r => Serves s state (.hashesGet index start) r.1 r.2.1 r.2.2)
      (hashesGet s state index start) := by
  refine fine_bind fine_transfer fun t ht => ?_
  split
  · exact invalid_fine
  · next file served hp =>
    refine fine_check invalid_fine fun hc => fine_bind (fine_ok Description.fine_page) fun page hpage => ?_
    simp only [ne_eq, Bool.or_eq_true, decide_eq_true_eq, not_or, Decidable.not_not,
      Bool.not_eq_true, Option.isSome_eq_false_iff, Option.isNone_iff_eq_none] at hc
    exact .hashesGet ht.1 ht.2 hp hc.1 hc.2.symm hpage.1

/-- CHUNK_BEGIN does not panic, and does what `Serves` says of it. -/
theorem fine_chunkBegin (index chunk : UInt32) :
    Fine (fun r => Serves s state (.chunkBegin index chunk) r.1 r.2.1 r.2.2)
      (chunkBegin s state index chunk) := by
  refine fine_bind fine_transfer fun t ht => ?_
  split
  · exact invalid_fine
  · next store missing hp =>
    refine fine_check invalid_fine fun hc => ?_
    simp only [Bool.or_eq_true, not_or, Bool.not_eq_true, Option.isSome_eq_false_iff,
      Option.isNone_iff_eq_none, Bool.not_eq_false', List.contains_iff_mem] at hc
    exact .chunkBegin ht.1 ht.2 hp hc.1 hc.2

/-- CHUNK_COMMIT does not panic, and does what `Serves` says of it. -/
theorem sound_chunkCommit (index chunk : UInt32) (resource : TransferId) :
    Sound (fun r => Serves s state (.chunkCommit index chunk resource) r.1 r.2.1 r.2.2)
      (chunkCommit s state index chunk resource) := by
  refine sound_bind (sound_lift fine_transfer) fun t ht => ?_
  split
  · exact invalid_fine
  · next store missing hp =>
    refine sound_check invalid_fine fun hpending => ?_
    split
    · exact invalid_fine
    · next f hf =>
      refine sound_check invalid_fine fun hc =>
        sound_bind (sound_lift (fine_ok Description.fine_length)) fun n hn =>
        sound_check invalid_fine fun hsize =>
        fair_bind (sound_onCache Store.fair_receive) fun store' => ?_
      simp only [ne_eq, Bool.or_eq_true, decide_eq_true_eq, not_or, Decidable.not_not,
        Bool.not_eq_true] at hc hpending hsize
      exact .chunkCommit ht.1 ht.2 hp hpending hf hc.1 hc.2 (hsize ▸ hn.1)

/-- CHUNK_GET does not panic, and does what `Serves` says of it. -/
theorem fine_chunkGet (index chunk : UInt32) :
    Fine (fun r => Serves s state (.chunkGet index chunk) r.1 r.2.1 r.2.2)
      (chunkGet s state index chunk) := by
  refine fine_bind fine_transfer fun t ht => ?_
  split
  · exact invalid_fine
  · next file served hp =>
    refine fine_check invalid_fine fun hc =>
      fine_bind Description.fine_chunkFile fun piece hpiece => ?_
    simp only [Bool.or_eq_true, decide_eq_true_eq, not_or, Bool.not_eq_true,
      Option.isSome_eq_false_iff, Option.isNone_iff_eq_none, List.contains_eq_mem, Nat.not_lt,
      Nat.not_le] at hc
    exact .chunkGet ht.1 ht.2 hp hc.1.1.1 hc.1.1.2 hc.1.2 hc.2 hpiece

/-- CHUNK_VERIFIED does not panic, and does what `Serves` says of it. -/
theorem fine_chunkVerified (index chunk : UInt32) :
    Fine (fun r => Serves s state (.chunkVerified index chunk) r.1 r.2.1 r.2.2)
      (chunkVerified s state index chunk) := by
  refine fine_bind fine_transfer fun t ht => ?_
  split
  · exact invalid_fine
  · next file served hp =>
    refine fine_check invalid_fine fun hc => ?_
    exact .chunkVerified ht.1 ht.2 hp (Decidable.not_not.mp hc)

/-- `clear_committed` does not panic, since it discards its errors. -/
theorem fair_clearCommitted {store : Store} : Fair (clearCommitted store) := by
  refine fair_bind (sound_attempt Store.fair_clear |>.imp fun _ h => h.imp fun _ _ => trivial)
    fun r => ?_
  split <;> exact Store.fair_drop

/-- FILE_COMMIT does not panic: the index of the transfer is one of the source. -/
theorem sound_fileCommit (hs : s.Coherent) (hstate : ∀ t ∈ state, t.Coherent s)
    (index : UInt32) : Sound (fun r => Serves s state (.fileCommit index) r.1 r.2.1 r.2.2)
      (fileCommit s state index) := by
  refine sound_bind (sound_lift fine_transfer) fun t ht => ?_
  have hfile := (hs.pending _ (hstate t ht.1).file).1
  split
  · exact invalid_fine
  · next store missing hp =>
    refine sound_bind (sound_lift (R := fun n => n = t.description.chunkCount)
      (by rw [Description.chunks_eq]; rfl)) fun n hn => sound_check invalid_fine fun hc => ?_
    subst hn
    simp only [ne_eq, Bool.or_eq_true, decide_eq_true_eq, not_or, Decidable.not_not,
      Bool.not_eq_true, Option.isSome_eq_false_iff, Option.isNone_iff_eq_none] at hc
    -- All pages were asked for, and no chunk is missing or under way.
    obtain ⟨⟨hidle, rfl⟩, hcomplete⟩ := hc
    -- The file is assembled from the cache and installed on the tree. Only then the cache is
    -- cleared.
    refine fair_bind (sound_onCache Store.fair_assemble) fun file =>
      sound_bind (sound_onTree hs.sound_ready) fun s' hs' => ?_
    subst hs'
    refine sound_bind (sound_lift (fine_index (hs.file_lt hfile))) fun e _ =>
      fair_bind (sound_onTree (fair_bind (Session.fair_mark _) fun _ => fair_install)) fun _ =>
      fair_bind (sound_onCache fair_clearCommitted) fun _ => ?_
    exact .fileCommit ht.1 ht.2 hp hidle hcomplete

/-- FILE_VERIFIED does not panic, for the same reason. -/
theorem sound_fileVerified (hs : s.Coherent) (hstate : ∀ t ∈ state, t.Coherent s)
    (index : UInt32) : Sound (fun r => Serves s state (.fileVerified index) r.1 r.2.1 r.2.2)
      (fileVerified s state index) := by
  refine sound_bind (sound_lift fine_transfer) fun t ht => ?_
  have hfile := (hs.pending _ (hstate t ht.1).file).1
  have hdirection := (hstate t ht.1).direction
  split
  · exact invalid_fine
  · next file served hp =>
    refine sound_bind (sound_lift (R := fun n => n = t.description.chunkCount)
      (by rw [Description.chunks_eq]; rfl)) fun n hn => sound_check invalid_fine fun hc => ?_
    subst hn
    simp only [ne_eq, Bool.or_eq_true, decide_eq_true_eq, not_or, Decidable.not_not,
      Bool.not_eq_true, Option.isSome_eq_false_iff, Option.isNone_iff_eq_none] at hc
    refine sound_bind (sound_lift (fine_index (hs.file_lt hfile))) fun e he => ?_
    -- In a pull every entry of the source has a stamp.
    rw [hp] at hdirection
    obtain ⟨stamp, hst⟩ := hs.stamp hdirection.symm he
    refine fair_bind (sound_lift (by rw [hst]; trivial)) fun _ =>
      fair_bind (sound_onTree fair_ensureUnchanged) fun _ => ?_
    exact .fileVerified ht.1 ht.2 hp hc.1 hc.2

/-- No request of the owner panics, and each does what `Serves` says of it. -/
theorem serve_ends (hs : s.Coherent) (hstate : ∀ t ∈ state, t.Coherent s) (cache : Cache)
    (peer : Id) (path : String) (request : Message) :
    Sound (fun r => Serves s state request r.1 r.2.1 r.2.2)
      (serve s state cache peer path request) := by
  cases request with
  | description index d => exact sound_description hs cache peer path index d
  | describe index chunkSize => exact sound_describe hs index chunkSize
  | hashes index start page => exact sound_hashes index start page
  | hashesGet index start => exact sound_lift (fine_hashesGet index start)
  | chunkBegin index chunk => exact sound_lift (fine_chunkBegin index chunk)
  | chunkCommit index chunk resource => exact sound_chunkCommit index chunk resource
  | chunkGet index chunk => exact sound_lift (fine_chunkGet index chunk)
  | chunkVerified index chunk => exact sound_lift (fine_chunkVerified index chunk)
  | fileCommit index => exact sound_fileCommit hs hstate index
  | fileVerified index => exact sound_fileVerified hs hstate index
  | _ => exact invalid_fine

end

/-! ### All requests -/

/-- The invariant of a server. -/
structure Server.Coherent (server : Server) : Prop where
  base : server.base.Coherent
  idle : server.base.session = none →
    server.transfer = none ∧ server.peer = none ∧ server.path = ""
  session : ∀ s ∈ server.base.session, server.peer.isSome = true ∧ s.received = none ∧
    s.pending = server.transfer.map Transfer.index
  transfer : ∀ t ∈ server.transfer, ∀ s ∈ server.base.session, t.Coherent s

/-- What can come of a request that is not refused. -/
inductive Server.Accepts [Sha256] (server : Server) (now : Instant) (connection : ConnectionId)
    (peer : Id) (permission : Permission) : Message → ServerReply → Server → Prop
  | start {push : Bool} {options : Options} {path : String} {manifest : Manifest}
      {m : RrSync.Message} {base : RrSync.Server}
      (accepted : server.base.Accepts now connection permission
        (.start push options path manifest) (.message m) base) :
      Accepts server now connection peer permission (.common (.start push options path manifest))
        (.message (.common m)) { server with base, peer := some peer, path }
  | finish {s : Session} (allowed : permission ≠ .deny) (active : server.base.session = some s)
      (owner : s.connection = connection) (same : server.peer = some peer)
      (full : s.push = true → permission = .full) (idle : server.transfer = none)
      (complete : s.options.dryRun = false →
        s.pending = none ∧ s.done.length = s.plan.files.length) :
      Accepts server now connection peer permission (.common .finish) ok
        { server with base := { server.base with session := none }, peer := none, path := "" }
  | serve {s s' : Session} {request : Message} {reply : ServerReply} {state : Option Transfer}
      (allowed : permission ≠ .deny) (active : server.base.session = some s)
      (owner : s.connection = connection) (same : server.peer = some peer)
      (full : s.push = true → permission = .full) (real : s.options.dryRun = false)
      (served : Serves { s with activity := now } server.transfer request reply s' state) :
      Accepts server now connection peer permission request reply
        { server with base := { server.base with session := some s' }, transfer := state }

/-- The time of the last activity is no part of a transfer. -/
theorem Transfer.Coherent.touch {s : Session} {t : Transfer} (ht : t.Coherent s) (now : Instant) :
    t.Coherent { s with activity := now } :=
  ⟨ht.file, ht.real, ht.direction, ht.entry, ht.next, ht.start, ht.within, ht.pending, ht.received⟩

namespace Server

section
variable [Sha256] {server : Server} {now : Instant} {connection : ConnectionId} {peer : Id}
  {permission : Permission}

/-- A START is one of the first server. -/
theorem start_ends (hs : server.Coherent) {push : Bool} {options : Options} {path : String}
    {manifest : Manifest} : Sound (fun r => server.Accepts now connection peer permission
      (.common (.start push options path manifest)) r.1 r.2) (do
        let (reply, base) ← onTree (server.base.handleInner now connection permission
          (.start push options path manifest))
        match reply with
        | .message m => pure (.message (.common m), { server with base, peer := some peer, path })
        | .file _ _ => throw (.panic "unreachable")) := by
  refine sound_bind (sound_onTree (RrSync.Server.handleInner_ends hs.base now connection permission
    (.start push options path manifest))) fun r hr => ?_
  obtain ⟨reply, base⟩ := r
  cases reply with
  | message m => exact .start hr
  | file m f =>
    rcases hr with _ | ⟨-, -, -, -, ⟨⟩⟩

/-- A FINISH is one of the first server. -/
theorem finish_ends {s : Session} (hs : server.Coherent) (hactive : server.base.session = some s)
    (howner : s.connection = connection) (hpeer : server.peer = some peer)
    (hallowed : permission ≠ .deny) (hfull : s.push = true → permission = .full) :
    Sound (fun r => server.Accepts now connection peer permission (.common .finish) r.1 r.2) (do
      if server.transfer.isSome then throw (invalid "unfinished file transfer")
      let (_, base) ← onTree (RrSync.Server.handleInner
        { server.base with session := some { s with activity := now } } now connection permission
        .finish)
      pure (ok, { server with base, peer := none, path := "" })) := by
  refine sound_check invalid_fine fun hidle => ?_
  -- The new activity does not matter.
  have hbase : RrSync.Server.Coherent
      { server.base with session := some { s with activity := now } } := by
    rintro _ ⟨⟩
    obtain ⟨hc, hroot⟩ := hs.base s hactive
    exact ⟨hc.touch now, hroot⟩
  refine sound_bind (sound_onTree (RrSync.Server.handleInner_ends hbase now connection permission
    .finish)) fun r hr => ?_
  obtain ⟨reply, base⟩ := r
  cases hr with
  | serve _ active _ _ served =>
    cases active
    cases served with
    | finish complete =>
      exact .finish hallowed hactive howner hpeer hfull (by simpa using hidle) complete

/-- A request about the session of its connection: what `handleInner` does but for START. -/
def inSession (server : Server) (now : Instant) (connection : ConnectionId) (peer : Id)
    (permission : Permission) (request : Message) : VolM (ServerReply × Server) :=
  match server.base.session.filter (·.connection = connection) with
  | none => throw (invalid "no active session")
  | some s => do
    if server.peer ≠ some peer || (s.push && permission ≠ .full) then throw .permissionDenied
    let s := { s with activity := now }
    if s.options.dryRun ∧ request ≠ .common .finish then
      throw (invalid "mutating command in dry-run")
    match request with
    | .common .finish => do
      if server.transfer.isSome then throw (invalid "unfinished file transfer")
      let (_, base) ← onTree (RrSync.Server.handleInner { server.base with session := some s } now
        connection permission .finish)
      pure (ok, { server with base, peer := none, path := "" })
    | request => do
      let (reply, s, transfer) ← serve s server.transfer server.cache peer server.path request
      pure (reply, { server with base := { server.base with session := some s }, transfer })

/-- No request panics, and each that is accepted does what `Accepts` says of it. -/
theorem handleInner_ends (hs : server.Coherent) (now : Instant) (connection : ConnectionId)
    (peer : Id) (permission : Permission) (request : Message) :
    Sound (fun r => server.Accepts now connection peer permission request r.1 r.2)
      (server.handleInner now connection peer permission request) := by
  refine sound_check id fun hallowed => ?_
  -- everything but START needs a session of this connection and this peer
  have hrest (hstart : ∀ push options path manifest,
      request ≠ .common (.start push options path manifest)) :
      Sound (fun r => server.Accepts now connection peer permission request r.1 r.2)
        (server.inSession now connection peer permission request) := by
    unfold inSession
    split
    · exact invalid_fine
    · next s h =>
      obtain ⟨hsession, howner⟩ := Option.filter_eq_some_iff.mp h
      have howner : s.connection = connection := by simpa using howner
      refine sound_check id fun hauth => sound_check invalid_fine fun hdry => ?_
      simp only [ne_eq, Bool.or_eq_true, decide_eq_true_eq, Bool.and_eq_true, not_or,
        Decidable.not_not, not_and] at hauth
      obtain ⟨hpeer, hfull⟩ := hauth
      obtain ⟨hc, -⟩ := hs.base s hsession
      split
      · exact finish_ends hs hsession howner hpeer hallowed hfull
      · next hne =>
        refine sound_bind (serve_ends (hc.touch now)
          (fun t ht => (hs.transfer t ht s hsession).touch now) _ _ _ _) fun r hr => ?_
        refine .serve hallowed hsession howner hpeer hfull (Bool.eq_false_iff.mpr fun hd => ?_) hr
        exact hdry ⟨hd, fun h => hne h⟩
  cases request with
  | common m =>
    cases m with
    | start push options path manifest => exact start_ends hs
    | _ => exact hrest (by intros; exact nofun)
  | _ => exact hrest (by intros; exact nofun)

end

end Server

/-! ### The invariant of a server -/

/-- Where a page ends the next one starts, or the chunks are over. -/
theorem next_of_page {count start n : Nat} (h1 : start < count) (h2 : start % pageChunks = 0)
    (h3 : n = min (count - start) pageChunks) :
    start + n = count ∨ (start + n) % pageChunks = 0 ∧ start + n ≤ count := by
  simp only [pageChunks] at *
  omega

namespace Transfer.Coherent

variable {s : Session} {t : Transfer} (ht : t.Coherent s)
include ht

/-- A chunk is only kept while one is under way to the server. -/
theorem received_none (h : t.pending = none ∨ t.payload.isUpload = false) : t.received = none := by
  cases hr : t.received with
  | none => rfl
  | some f =>
    obtain ⟨hup, -, c, hc, -⟩ := ht.received f hr
    rcases h with h | h
    · rw [h] at hc
      cases hc
    · rw [h] at hup
      cases hup

/-- A page is opened. -/
theorem page (hidle : t.pending = none) {d : Description} {payload : Payload} {n : Nat}
    (hd : d.size = t.description.size ∧ d.chunkSize = t.description.chunkSize ∧
      d.hash = t.description.hash) (hdir : payload.isUpload = t.payload.isUpload)
    (h1 : t.nextPage < t.description.chunkCount) (h2 : t.nextPage % pageChunks = 0)
    (h3 : n = min (t.description.chunkCount - t.nextPage) pageChunks)
    (hm : ∀ c ∈ payload.marked, t.nextPage ≤ c ∧ c < t.nextPage + n) :
    Transfer.Coherent s { t with description := d, payload := payload, pageStart := t.nextPage,
                                 nextPage := t.nextPage + n } where
  file := ht.file
  real := ht.real
  direction := hdir.trans ht.direction
  entry := by
    obtain ⟨e, he, h⟩ := ht.entry
    rw [← hd.1, ← hd.2.2] at h
    exact ⟨e, he, h⟩
  next := by
    have h : d.chunkCount = t.description.chunkCount := by
      unfold Description.chunkCount
      rw [hd.1, hd.2.1]
    show t.nextPage + n = d.chunkCount ∨ _ ∧ t.nextPage + n ≤ d.chunkCount
    rw [h]
    exact next_of_page h1 h2 h3
  start := Nat.le_add_right _ _
  within := hm
  -- There is no chunk under way, so there is none that was received either.
  pending c hc := by
    rw [show t.pending = some c from hc] at hidle
    cases hidle
  received f hf := by
    have h := ht.received_none (.inl hidle)
    rw [show t.received = some f from hf] at h
    cases h

/-- A chunk of the page is asked for. -/
theorem await (hidle : t.pending = none) {c : Nat} (h1 : t.pageStart ≤ c) (h2 : c < t.nextPage)
    (hm : c ∈ t.payload.marked ↔ t.payload.isUpload = true) :
    Transfer.Coherent s { t with pending := some c } where
  file := ht.file
  real := ht.real
  direction := ht.direction
  entry := ht.entry
  next := ht.next
  start := ht.start
  within := ht.within
  pending := by
    rintro _ ⟨⟩
    exact ⟨h1, h2, hm⟩
  received f hf := by
    have h := ht.received_none (.inl hidle)
    rw [show t.received = some f from hf] at h
    cases h

/-- The chunk that was asked for has come, or it has been verified. -/
theorem settle {payload : Payload} (hdir : payload.isUpload = t.payload.isUpload)
    (hm : ∀ c ∈ payload.marked, t.pageStart ≤ c ∧ c < t.nextPage) :
    Transfer.Coherent s { t with payload := payload, pending := none, received := none } where
  file := ht.file
  real := ht.real
  direction := hdir.trans ht.direction
  entry := ht.entry
  next := ht.next
  start := ht.start
  within := hm
  pending := nofun
  received := nofun

end Transfer.Coherent

/-- A session that waits for the file `i`. -/
theorem coherent_await {s : Session} (hs : s.Coherent) (hr : s.received = none)
    (hd : s.options.dryRun = false) {i : Nat} (hi : i ∈ s.plan.files) (hn : i ∉ s.done) :
    Session.Coherent { s with pending := some i } where
  planned := hs.planned
  scanned := hs.scanned
  own := hs.own
  done := hs.done
  pending := by
    rintro _ ⟨⟩
    exact ⟨hi, hn⟩
  received f hf := by
    rw [show s.received = some f from hf] at hr
    cases hr
  dry h := absurd h (by rw [hd]; decide)
  pull := hs.pull

/-- The directories of a push may have been made. -/
theorem coherent_prepared {s : Session} (hs : s.Coherent) (hd : s.options.dryRun = false)
    (hp : s.push = true) : Session.Coherent { s with prepared := true } where
  planned := hs.planned
  scanned := hs.scanned
  own := hs.own
  done := hs.done
  pending := hs.pending
  received := hs.received
  dry h := absurd h (by rw [hd]; decide)
  pull h := absurd h (by rw [hp]; decide)

section
variable [Sha256] {s s' : Session} {state state' : Option Transfer} {request : Message}
  {reply : ServerReply}

/-- What a request of the owner keeps. -/
theorem Serves.coherent (hs : s.Coherent) (hr : s.received = none)
    (hp : s.pending = state.map Transfer.index) (ht : ∀ t ∈ state, t.Coherent s)
    (hd : s.options.dryRun = false) (h : Serves s state request reply s' state') :
    s'.Coherent ∧ s'.received = none ∧ s'.pending = state'.map Transfer.index ∧
      (∀ t ∈ state', t.Coherent s') ∧ s'.root = s.root := by
  -- A transfer that has just begun asks for nothing, so it fits the file that is pending now.
  have hnew {i : Nat} {d : Description} {payload : Payload} {e : Entry}
      (hi : s.source.entries[i]? = some e) (hm : payload.marked = [])
      (he : e.size = d.size ∧ ∀ h ∈ e.hash, h = d.hash) (hp : payload.isUpload = s.push) :
      (newTransfer i d payload).Coherent { s with pending := some i } := by
    refine ⟨rfl, hd, hp, ⟨e, hi, he⟩, .inr ⟨rfl, Nat.zero_le _⟩, le_rfl, fun c hc => ?_, nofun, nofun⟩
    rw [show (newTransfer i d payload).payload = payload from rfl, hm] at hc
    cases hc
  cases h with
  | description push file fresh idle entry described =>
    refine ⟨coherent_await hs hr hd file fresh, hr, rfl, ?_, rfl⟩
    rintro _ ⟨⟩
    exact hnew entry rfl described push.symm
  | describe pull planned fresh idle entry scanned described =>
    refine ⟨coherent_await hs hr hd planned fresh, hr, rfl, ?_, rfl⟩
    rintro _ ⟨⟩
    exact hnew entry rfl described pull.symm
  | @hashes index start page t store d missing active file upload idle next page_ok found =>
    subst active
    refine ⟨hs, hr, hp, ?_, rfl⟩
    rintro _ ⟨⟩
    -- The page that was accepted is the next one, and the chunks asked for are some of its own.
    obtain ⟨h1, h2, h3, rfl⟩ := Description.setPage_ok.mp page_ok
    rw [← next] at h1 h2 h3 found ⊢
    refine (ht t rfl).page idle ⟨rfl, rfl, rfl⟩ (by rw [upload]; rfl) h1 h2 h3 fun c hc => ?_
    obtain ⟨k, hk, rfl⟩ := List.mem_map.mp (found.subset hc)
    exact ⟨Nat.le_add_right _ _, Nat.add_lt_add_left (List.mem_range.mp hk) _⟩
  | @hashesGet index start page t file served active file_ok download idle next page_ok =>
    subst active
    refine ⟨hs, hr, hp, ?_, rfl⟩
    rintro _ ⟨⟩
    obtain ⟨h1, h2, h3⟩ := Description.page_ok page_ok
    rw [← next] at h1 h2 h3 ⊢
    exact (ht t rfl).page idle ⟨rfl, rfl, rfl⟩ (by rw [download]; rfl) h1 h2 h3 nofun
  | @chunkBegin index chunk t store missing active file upload idle asked =>
    subst active
    refine ⟨hs, hr, hp, ?_, rfl⟩
    rintro _ ⟨⟩
    -- A chunk is announced only if it was asked for.
    have hmem : chunk.toNat ∈ t.payload.marked := by rwa [upload]
    obtain ⟨h1, h2⟩ := (ht t rfl).within _ hmem
    exact (ht t rfl).await idle h1 h2 (iff_of_true hmem (by rw [upload]; rfl))
  | @chunkCommit index chunk resource t store store' missing f active file upload =>
    subst active
    refine ⟨hs, hr, hp, ?_, rfl⟩
    rintro _ ⟨⟩
    -- The chunk is stored, and no longer missing.
    refine (ht t rfl).settle (by rw [upload]; rfl) fun c hc => (ht t rfl).within c ?_
    rw [upload]
    exact (List.mem_filter.mp hc).1
  | @chunkGet index chunk t file piece served active file_ok download idle fresh first last =>
    subst active
    refine ⟨hs, hr, hp, ?_, rfl⟩
    rintro _ ⟨⟩
    exact (ht t rfl).await idle first last (iff_of_false (by rwa [download]) (by rw [download]; nofun))
  | @chunkVerified index chunk t file served active file_ok download pending =>
    subst active
    refine ⟨hs, hr, hp, ?_, rfl⟩
    rintro _ ⟨⟩
    -- A pull receives nothing.
    have hnone := (ht t rfl).received_none (.inr (by rw [download]; rfl))
    have hdir : (Payload.download file (served.insert chunk.toNat)).isUpload = t.payload.isUpload := by
      rw [download]
      rfl
    have h := (ht t rfl).settle hdir fun c hc => ?_
    · rw [← hnone] at h
      exact h
    · rcases List.mem_insert_iff.mp hc with rfl | hc
      · obtain ⟨h1, h2, -⟩ := (ht t rfl).pending _ pending
        exact ⟨h1, h2⟩
      · exact (ht t rfl).within c (by rwa [download])
  | @fileCommit index t store active file upload idle complete =>
    subst active
    have hc := ht t rfl
    -- The file is done, and nothing is pending.
    have hpush := hc.pushes upload
    have h := (coherent_prepared hs hd hpush).conclude (i := t.index) hc.file hd
    rw [← hr] at h
    exact ⟨h, hr, rfl, fun t ht => absurd ht (Option.not_mem_none _), rfl⟩
  | @fileVerified index t file served active file_ok download idle complete =>
    subst active
    have h := hs.conclude (i := t.index) (ht t rfl).file hd
    rw [← hr] at h
    exact ⟨h, hr, rfl, fun t ht => absurd ht (Option.not_mem_none _), rfl⟩

end

namespace Server

/-- What `forget` leaves. -/
def forgotten (server : Server) (base : RrSync.Server) : Server :=
  { server with base, peer := none, path := "", transfer := none }

/-- What `disconnect` leaves. -/
def disconnected (server : Server) (connection : ConnectionId) : Server :=
  if server.base.session.any (·.connection = connection) then
    server.forgotten (server.base.disconnect connection)
  else server

/-- A lost connection leaves the export that is served. -/
theorem disconnected_root (server : Server) (connection : ConnectionId) :
    (server.disconnected connection).base.root = server.base.root := by
  unfold disconnected
  split
  · exact RrSync.Server.disconnect_root
  · rfl

/-- The session that a lost connection leaves is that of another connection. -/
theorem mem_disconnected {server : Server} {connection : ConnectionId} {s : Session}
    (h : s ∈ (server.disconnected connection).base.session) :
    s ∈ server.base.session ∧ s.connection ≠ connection := by
  unfold disconnected at h
  split at h
  · exact RrSync.Server.mem_disconnect h
  · next hany =>
    refine ⟨h, fun howner => hany ?_⟩
    rw [Option.mem_def.mp h]
    simpa using howner

/-- A lost connection whose server still has a session changes nothing. -/
theorem disconnected_eq {server : Server} {connection : ConnectionId} {s : Session}
    (h : s ∈ (server.disconnected connection).base.session) :
    server.disconnected connection = server := by
  obtain ⟨hmem, hne⟩ := mem_disconnected h
  unfold disconnected
  rw [if_neg]
  intro hany
  obtain ⟨x, hx, howner⟩ := (Option.any_eq_true _ _).mp hany
  obtain rfl := Option.some.inj (hmem.symm.trans hx)
  exact hne (of_decide_eq_true howner)

section
variable [Sha256] {server server' : Server} {now : Instant} {connection : ConnectionId} {peer : Id}
  {permission : Permission}

/-- What is left of a server whose session is dropped. -/
theorem forget_run (server : Server) (base : RrSync.Server) (w : Disks) :
    ((server.forget base : Prog _ Empty _).runOk execVol w).1 = server.forgotten base := by
  unfold forget
  split
  · rw [Prog.runOk_bind]
    rfl
  · rfl

/-- What is left of a server that loses a connection. -/
theorem disconnect_run (server : Server) (connection : ConnectionId) (w : Disks) :
    ((server.disconnect connection : Prog _ Empty _).runOk execVol w).1
      = server.disconnected connection := by
  unfold disconnect disconnected
  split
  · exact forget_run _ _ _
  · rfl

/-- A call of `handle` is a run of `handleInner`, and a disconnect when it failed. -/
theorem handle_run (now : Instant) (connection : ConnectionId) (peer : Id)
    (permission : Permission) (request : Message) (w : Disks) :
    (server.handle now connection peer permission request).runOk execVol w =
      match (server.handleInner now connection peer permission request).run execVol w with
      | (.ok (reply, server'), w') => ((.ok reply, server'), w')
      | (.error e, w') => ((.error e, server.disconnected connection),
          ((server.disconnect connection : Prog _ Empty _).runOk execVol w').2) := by
  unfold handle
  rw [Prog.runOk_bind, Prog.runOk_attempt]
  rcases (server.handleInner now connection peer permission request).run execVol w with
    ⟨_ | ⟨_, _⟩, _⟩
  · dsimp only
    rw [Prog.runOk_bind, disconnect_run]
    rfl
  · rfl

/-- Every call of `handle` is accepted, or fails without a panic and disconnects. -/
theorem handle_cases (hs : server.Coherent) (now : Instant) (connection : ConnectionId)
    (peer : Id) (permission : Permission) (request : Message) (w : Disks) :
    let r := (server.handle now connection peer permission request).runOk execVol w
    (∃ reply, r.1.1 = .ok reply ∧
      server.Accepts now connection peer permission request reply r.1.2) ∨
    ∃ e, r.1.1 = .error e ∧ ¬ e.IsPanic ∧ r.1.2 = server.disconnected connection := by
  intro r
  have h := (handleInner_ends hs now connection peer permission request).run execVol w
  have hr : r = _ := handle_run now connection peer permission request w
  rcases hrun : (server.handleInner now connection peer permission request).run execVol w with
    ⟨e | ⟨reply, server'⟩, w'⟩ <;> rw [hrun] at h hr <;> rw [hr]
  · exact Or.inr ⟨e, rfl, h, rfl⟩
  · exact Or.inl ⟨reply, rfl, h⟩

/-- A request that is accepted keeps the invariant. -/
theorem Coherent.accepts {request : Message} {reply : ServerReply} (hs : server.Coherent)
    (h : server.Accepts now connection peer permission request reply server') :
    server'.Coherent := by
  cases h with
  | start accepted =>
    have hbase := hs.base.accepts accepted
    -- START finds no session, and so no transfer.
    cases accepted with
    | start _ _ idle =>
      obtain ⟨h1, -, -⟩ := hs.idle idle
      refine ⟨hbase, nofun, ?_, fun t ht => ?_⟩
      · rintro _ ⟨⟩
        exact ⟨rfl, rfl, by rw [h1]; rfl⟩
      · rw [show server.transfer = some t from ht] at h1
        cases h1
    | serve _ _ _ _ served => cases served
  | finish allowed active owner same full idle complete =>
    exact ⟨fun _ h => absurd h (Option.not_mem_none _), fun _ => ⟨idle, rfl, rfl⟩,
      fun _ h => absurd h (Option.not_mem_none _), fun _ _ _ h => absurd h (Option.not_mem_none _)⟩
  | serve allowed active owner same full real served =>
    obtain ⟨hc, path, hroot⟩ := hs.base _ active
    obtain ⟨hpeer, hr, hp⟩ := hs.session _ active
    -- The session has its new activity and serves the request.
    obtain ⟨h1, h2, h3, h4, h5⟩ := served.coherent (hc.touch now) hr hp
      (fun t ht => (hs.transfer t ht _ active).touch now) real
    refine ⟨?_, nofun, ?_, ?_⟩
    · rintro _ ⟨⟩
      exact ⟨h1, path, hroot.trans (congrArg _ h5.symm)⟩
    · rintro _ ⟨⟩
      exact ⟨hpeer, h2, h3⟩
    · rintro t ht _ ⟨⟩
      exact h4 t ht

omit [Sha256] in
/-- Without a session and a transfer there is nothing to keep. -/
theorem coherent_forgotten {base : RrSync.Server} (hb : base.session = none) :
    (server.forgotten base).Coherent := by
  have h {P : Session → Prop} : ∀ s ∈ (server.forgotten base).base.session, P s := by
    show ∀ s ∈ base.session, P s
    rw [hb]
    exact fun _ h => absurd h (Option.not_mem_none _)
  exact ⟨h, fun _ => ⟨rfl, rfl, rfl⟩, h, fun _ h => absurd h (Option.not_mem_none _)⟩

omit [Sha256] in
/-- A lost connection keeps the invariant. -/
theorem Coherent.disconnected (hs : server.Coherent) :
    (server.disconnected connection).Coherent := by
  unfold Server.disconnected
  split
  · next h =>
    refine coherent_forgotten ?_
    rw [RrSync.Server.disconnect, if_pos h]
  · exact hs

omit [Sha256] in
/-- The time of the last activity is no part of the invariant. -/
theorem Coherent.touch (hs : server.Coherent) : (server.touch connection now).Coherent := by
  have h {P : Session → Prop} (hP : ∀ s ∈ server.base.session, P s ∧ P { s with activity := now }) :
      ∀ s ∈ (server.touch connection now).base.session, P s := by
    intro s h
    obtain ⟨s₀, h₀, rfl⟩ := Option.map_eq_some_iff.mp h
    split
    · exact (hP s₀ h₀).2
    · exact (hP s₀ h₀).1
  refine ⟨hs.base.touch, fun hnone => hs.idle (Option.map_eq_none_iff.mp hnone),
    h fun s hm => ⟨hs.session s hm, hs.session s hm⟩, fun t ht => h fun s hm => ?_⟩
  exact ⟨hs.transfer t ht s hm, (hs.transfer t ht s hm).touch now⟩

omit [Sha256] in
/-- What the check of an incoming file looks up is there. -/
theorem acceptsFile_cases (server : Server) (connection : ConnectionId) (size : Nat)
    (hasMetadata : Bool) : ∃ b, server.acceptsFile connection size hasMetadata = .ok b ∧
      (b = true → ∃ s t c, server.base.session = some s ∧ s.connection = connection ∧
        s.push = true ∧ s.options.dryRun = false ∧ hasMetadata = false ∧
        server.transfer = some t ∧ t.received = none ∧ t.pending = some c ∧
        t.description.length c = .ok size) := by
  unfold acceptsFile
  split
  · next hc =>
    simp only [Bool.and_eq_true, Bool.not_eq_true', Option.any_eq_true, decide_eq_true_eq] at hc
    obtain ⟨⟨s, hs, ⟨howner, hpush⟩, hdry⟩, hplain⟩ := hc
    split
    · exact ⟨false, rfl, nofun⟩
    · next t ht =>
      split
      -- A chunk is awaited. Its length decides.
      · next c hr hpending =>
        rw [Description.length_eq]
        split
        · next hlt =>
          refine ⟨_, rfl, fun h => ?_⟩
          refine ⟨s, t, c, hs, howner, hpush, hdry, hplain, ht, hr, hpending, ?_⟩
          have hsize : t.description.pieceLen c = size := by simpa using h
          rw [Description.length_eq, if_pos hlt, hsize]
        · exact ⟨false, rfl, nofun⟩
      · exact ⟨false, rfl, nofun⟩
  · exact ⟨false, rfl, nofun⟩

omit [Sha256] in
/-- A file for the chunk that is waited for is kept. -/
theorem Coherent.stored (hs : server.Coherent) {s : Session} {t : Transfer} {file : ReceivedFile}
    {c : Nat} (hactive : server.base.session = some s) (hpush : s.push = true)
    (ht : server.transfer = some t) (hc : t.pending = some c) (hplain : file.hasMetadata = false)
    (hsize : t.description.length c = .ok file.size) :
    Server.Coherent { server with transfer := some { t with received := some file } } where
  base := hs.base
  idle hnone := by
    rw [show server.base.session = none from hnone] at hactive
    cases hactive
  session s' hs' := by
    obtain ⟨h1, h2, h3⟩ := hs.session s' hs'
    rw [ht] at h3
    exact ⟨h1, h2, h3⟩
  transfer := by
    -- Only the received file is new, and it has the length of the pending chunk.
    rintro _ ⟨⟩ s' hs'
    have htc := hs.transfer t ht s' hs'
    obtain rfl := Option.some.inj (hactive.symm.trans hs')
    refine ⟨htc.file, htc.real, htc.direction, htc.entry, htc.next, htc.start, htc.within,
      htc.pending, ?_⟩
    rintro _ ⟨⟩
    exact ⟨htc.direction.trans hpush, hplain, c, hc, hsize⟩

end

end Server

/-! ### Runs -/

/-- What can come of one call of the adapter: the output, and the server after it. -/
inductive Turn [Sha256] (server : Server) : Input → Output → Server → Prop
  | accepted {now : Instant} {connection : ConnectionId} {peer : Id} {permission : Permission}
      {request : Message} {reply : ServerReply} {server' : Server}
      (accepts : server.Accepts now connection peer permission request reply server') :
      Turn server (.handle now connection peer permission request) (.reply (.ok reply)) server'
  | refused {now : Instant} {connection : ConnectionId} {peer : Id} {permission : Permission}
      {request : Message} {e : Error} (fine : ¬ e.IsPanic) :
      Turn server (.handle now connection peer permission request) (.reply (.error e))
        (server.disconnected connection)
  | ignored {connection : ConnectionId} {file : ReceivedFile} :
      Turn server (.receive connection file) (.received (.ok ())) server
  | stored {s : Session} {t : Transfer} {file : ReceivedFile}
      {c : Nat} (active : server.base.session = some s) (push : s.push = true)
      (real : s.options.dryRun = false) (transfer : server.transfer = some t)
      (first : t.received = none) (pending : t.pending = some c)
      (plain : file.hasMetadata = false) (size : t.description.length c = .ok file.size) :
      Turn server (.receive s.connection file) (.received (.ok ()))
        { server with transfer := some { t with received := some file } }
  | disconnect {connection : ConnectionId} :
      Turn server (.disconnect connection) .none (server.disconnected connection)
  | touch {connection : ConnectionId} {now : Instant} :
      Turn server (.touch connection now) .none (server.touch connection now)
  | expired {s : Session} {now : Instant} {timeout : Nat}
      (active : server.base.session = some s) (late : timeout < now - s.activity) :
      Turn server (.expire now timeout) (.expired (some s.connection))
        (server.forgotten { server.base with session := none })
  | kept {now : Instant} {timeout : Nat} :
      Turn server (.expire now timeout) (.expired none) server

/-- A new server has no session. -/
theorem started_coherent (root : Root) (cache : Cache) : (Server.new root cache).Coherent :=
  ⟨fun _ h => absurd h (Option.not_mem_none _), fun _ => ⟨rfl, rfl, rfl⟩,
    fun _ h => absurd h (Option.not_mem_none _), fun _ h => absurd h (Option.not_mem_none _)⟩

section
variable [Sha256] {st : Server × Disks}

/-- The maintenance drops a session that is too old, or does nothing. -/
theorem expire_turns (server : Server) (w : Disks) (now : Instant) (timeout : Nat) :
    let r := (server.expire now timeout : Prog _ Empty _).runOk execVol w
    Turn server (.expire now timeout) (.expired r.1.1) r.1.2 := by
  dsimp only
  unfold Server.expire RrSync.Server.expire
  cases hsession : server.base.session with
  | none => exact .kept
  | some s =>
    by_cases h : timeout < now - s.activity
    · simp only [if_pos h]
      rw [Prog.runOk_bind, Server.forget_run]
      exact .expired hsession h
    · simp only [if_neg h]
      exact .kept

/-- A file is dropped, or it is the first one for the chunk that is waited for. -/
theorem receive_turns (server : Server) (connection : ConnectionId) (file : ReceivedFile) :
    ∃ server', server.receive connection file = .ok server' ∧
      Turn server (.receive connection file) (.received (.ok ())) server' := by
  obtain ⟨b, hb, h⟩ := server.acceptsFile_cases connection file.size file.hasMetadata
  unfold Server.receive
  rw [hb]
  cases b with
  | false => exact ⟨server, rfl, .ignored⟩
  | true =>
    obtain ⟨s, t, c, hsession, rfl, hpush, hdry, hplain, ht, hr, hc, hlen⟩ := h rfl
    refine ⟨{ server with transfer := some { t with received := some file } }, ?_, ?_⟩
    · rw [ht]
      rfl
    · exact .stored hsession hpush hdry ht hr hc hplain hlen

/-- A file that arrives changes the server only. -/
theorem step_receive {connection : ConnectionId} {file : ReceivedFile} :
    step st (.receive connection file) = match st.1.receive connection file with
      | .ok server => (.received (.ok ()), server, st.2)
      | .error e => (.received (.error e), st) := rfl

/-- Every step is a turn. -/
theorem step_turns (hs : st.1.Coherent) (i : Input) :
    Turn st.1 i (step st i).1 (step st i).2.1 := by
  cases i with
  | handle now connection peer permission request =>
    show Turn st.1 _ (.reply _) _
    -- A request is accepted, or it is refused and its session ends.
    rcases Server.handle_cases hs now connection peer permission request st.2 with
      ⟨reply, hr, h⟩ | ⟨e, hr, hfine, h⟩
    · rw [hr]
      exact .accepted h
    · rw [hr, show (step st (.handle now connection peer permission request)).2.1 = _ from h]
      exact .refused hfine
  | receive connection file =>
    obtain ⟨server', h, hturn⟩ := receive_turns st.1 connection file
    rw [step_receive, h]
    exact hturn
  | disconnect connection =>
    show Turn st.1 _ .none (Prog.runOk execVol (st.1.disconnect connection) st.2).1
    rw [Server.disconnect_run]
    exact .disconnect
  | touch connection now => exact .touch
  | expire now timeout => exact expire_turns st.1 st.2 now timeout

/-- A turn keeps the invariant. -/
theorem Turn.coherent {server server' : Server} {i : Input} {o : Output}
    (hs : server.Coherent) (h : Turn server i o server') : server'.Coherent := by
  cases h with
  | accepted accepts => exact hs.accepts accepts
  | refused => exact hs.disconnected
  | ignored => exact hs
  | stored active push real transfer first pending plain size =>
    exact hs.stored active push transfer pending plain size
  | disconnect => exact hs.disconnected
  | touch => exact hs.touch
  | expired => exact Server.coherent_forgotten rfl
  | kept => exact hs

/-- A step keeps the invariant. -/
theorem step_coherent (hs : st.1.Coherent) (i : Input) : (step st i).2.1.Coherent :=
  (step_turns hs i).coherent hs

/-- Every state of a run satisfies the invariant. -/
theorem events_coherent {root : Root} {cache : Cache} {w : Disks} {is : List Input}
    {e : Event (Server × Disks) Input Output}
    (he : e ∈ events step (.new root cache, w) is) :
    e.pre.1.Coherent ∧ e.post.1.Coherent ∧ e = event step e.pre e.input :=
  events_invariant (fun st : Server × Disks => st.1.Coherent) (started_coherent root cache)
    (fun _ i hs => step_coherent hs i) he

end

end V2

end RrSync

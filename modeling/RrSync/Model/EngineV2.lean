import RrSync.Model.Engine
import RrSync.Model.ProtocolV2

/-!
# `RrSync.Model.EngineV2`: the server of `engine/v2.rs`

The state machine of the second protocol, over the session of the first. It works on two
volumes: the tree of the export and the directory of the chunk cache.

As for the first server, what a failed request has done to the state is not modelled: the
connection is dropped, and with it the transfer of its session. Dropping an upload writes to
the cache, so `disconnect` and `expire` are programs.
-/

set_option autoImplicit false

namespace RrSync

open Lib

/-- The two volumes of a process: the synchronized tree, and the host directory of the cache. -/
inductive Volume where
  | tree | cache
  deriving DecidableEq

/-- Programs on the two volumes. -/
abbrev VolM := Prog (FsSig.vol Volume) Error

/-- A program on the synchronized tree. -/
def onTree {α : Type} (m : FsM α) : VolM α := m.atVol .tree

/-- A program on the cache. -/
def onCache {α : Type} (m : FsM α) : VolM α := m.atVol .cache

/-- The disks of a process. -/
abbrev Disks := Volume → Disk

/-- What the system calls do on either volume. -/
def execVol : Prog.Handler (FsSig.vol Volume) Disks := Prog.Handler.vol exec

/-- The adapter supplies a private directory outside synced trees and a stable canonical root
identifier. The directory is the root of the cache volume. -/
structure Cache where
  rootId : String
  limits : Option Limits

/-- `Result::ok`. -/
def resultOk {α : Type} : Except Error α → Except Error (Option α)
  | .ok a => pure (some a)
  | .error (.panic site) => throw (.panic site)
  | .error _ => pure none

namespace V2

/-- `ServerReply` of the second engine. -/
inductive ServerReply where
  | message (message : Message)
  | file (message : Message) (file : Bytes)
  deriving DecidableEq

/-- `Payload`: what the server keeps for the file that is being transferred. -/
inductive Payload where
  /-- `missing` is a `BTreeSet`: the chunks of the page that have not been received. -/
  | upload (store : Store) (missing : List Nat)
  /-- `served` is a `BTreeSet`: the chunks of the page that have been sent and verified. -/
  | download (file : Bytes) (served : List Nat)

/-- `Transfer`: the file that is being transferred, the chunk that is under way, and how many chunks
the pages so far have covered. -/
structure Transfer where
  index : Nat
  description : Description
  payload : Payload
  pending : Option Nat
  received : Option ReceivedFile
  nextPage : Nat
  pageStart : Nat

/-- `Server` of the second engine: the first one, its cache, and the peer and path of the
session. -/
structure Server where
  base : RrSync.Server
  cache : Cache
  peer : Option Id
  path : String
  transfer : Option Transfer

/-- `invalid`: an error of the protocol. -/
def invalid (text : String) : Error := .protocol text

/-- The answer OK. -/
def ok : ServerReply := .message (.common .ok)

/-- `validate_description`: the description has the size and the hash of the entry. -/
def validateDescription (entry : Entry) (d : Description) : Except Error Unit :=
  if entry.size ≠ d.size ∨ entry.hash.any (· ≠ d.hash) then throw (.hashMismatch entry.path)
  else pure ()

/-- `transfer`: the file with this index must be the one that is being transferred. -/
def transfer (state : Option Transfer) (index : UInt32) : Except Error Transfer :=
  match state.filter (·.index = index.toNat) with
  | some t => pure t
  | none => throw (invalid "unexpected file index")

/-- A transfer that has just begun: no page was exchanged. -/
def newTransfer (index : Nat) (d : Description) (payload : Payload) : Transfer :=
  ⟨index, d, payload, none, none, 0, 0⟩

section
variable [Sha256]

/-- `Cache::open`. -/
def Cache.open (cache : Cache) (peer : Id) (push : Bool) (pre : String) (entry : Entry)
    (d : Description) : FsM Store := do
  let path := if pre = "" then entry.path else pre ++ "/" ++ entry.path
  let scope ← (scope peer push cache.rootId path : Except Error Hash)
  match cache.limits with
  | some limits => Store.openLimited Root.opened scope d limits
  | none => Store.openShared Root.opened scope d

/-- `Drop for Transfer`: the store of an upload is dropped. -/
def Transfer.drop {ε : Type} (t : Transfer) : Prog (FsSig.vol Volume) ε Unit :=
  match t.payload with
  | .upload store _ => (store.drop : Prog FsSig ε Unit).atVol .cache
  | .download _ _ => pure ()

/-! ### The requests of the owner of a session

Each takes the session and its transfer, and returns what they are afterwards. -/

section
variable (s : Session) (state : Option Transfer)

/-- DESCRIPTION: the client describes a planned file, and its cache directory is opened. -/
def description (cache : Cache) (peer : Id) (path : String) (index : UInt32) (d : Description) :
    VolM (ServerReply × Session × Option Transfer) := do
  let i := index.toNat
  let _ ← (requireFile s i true : Except Error Unit)
  if state.isSome then throw (invalid "file already pending")
  let entry ← (RrSync.index s.source.entries i "source.entries" : Except Error Entry)
  let _ ← (validateDescription entry d : Except Error Unit)
  let store ← onCache (Cache.open cache peer true path entry d)
  pure (ok, { s with pending := some i }, some (newTransfer i d (.upload store [])))

/-- DESCRIBE: the server scans the file it will send. What it has read must be what was listed. -/
def describe (index chunkSize : UInt32) : VolM (ServerReply × Session × Option Transfer) := do
  let i := index.toNat
  let _ ← (requireFile s i false : Except Error Unit)
  if state.isSome then throw (invalid "file already pending")
  let e ← (RrSync.index s.source.entries i "source.entries" : Except Error Entry)
  let _ ← (Description.count e.size chunkSize : Except Error Nat)
  let stamp ← (s.scan.stamp e.path : Except Error Stamp)
  let file ← onTree (snapshot s.root e.path stamp)
  let d ← (Description.scan file chunkSize : Except Error Description)
  let _ ← (validateDescription e d : Except Error Unit)
  pure (.message (.description index d), { s with pending := some i },
    some (newTransfer i d (.download file [])))

/-- HASHES: one page of the hash table arrives, and the chunks that the cache lacks are asked
for. -/
def hashes (index start : UInt32) (hashes : List Hash) :
    VolM (ServerReply × Session × Option Transfer) := do
  let t ← (transfer state index : Except Error Transfer)
  match t.payload with
  | .download _ _ => throw (invalid "not an upload")
  | .upload store missing => do
    -- the pages come in order, and each is completed before the next one
    if t.pending.isSome || missing ≠ [] || start.toNat ≠ t.nextPage then
      throw (invalid "unexpected hash page")
    let d ← (t.description.setPage start.toNat hashes : Except Error Description)
    let missing ← onCache (store.missing d start.toNat)
    pure (.message (.missing index start (.ofNat hashes.length) (missing.map UInt32.ofNat)), s,
      some { t with description := d, payload := .upload store missing, pageStart := start.toNat,
                    nextPage := t.nextPage + hashes.length })

omit [Sha256] in
/-- HASHES_GET: the client asks for the next page. -/
def hashesGet (index start : UInt32) : Except Error (ServerReply × Session × Option Transfer) := do
  let t ← transfer state index
  match t.payload with
  | .upload _ _ => throw (invalid "not a download")
  | .download file _ => do
    if t.pending.isSome || start.toNat ≠ t.nextPage then
      throw (invalid "unexpected hash page request")
    let hashes ← t.description.page start.toNat
    pure (.message (.hashes index start hashes), s,
      some { t with payload := .download file [], pageStart := start.toNat,
                    nextPage := t.nextPage + hashes.length })

omit [Sha256] in
/-- CHUNK_BEGIN: the client announces a chunk that was asked for. -/
def chunkBegin (index chunk : UInt32) : Except Error (ServerReply × Session × Option Transfer) := do
  let t ← transfer state index
  match t.payload with
  | .download _ _ => throw (invalid "not an upload")
  | .upload _ missing => do
    if t.pending.isSome || !missing.contains chunk.toNat then throw (invalid "chunk not pending")
    pure (ok, s, some { t with pending := some chunk.toNat })

/-- CHUNK_COMMIT: what has arrived must be the chunk, and goes to the cache. -/
def chunkCommit (index chunk : UInt32) (resource : TransferId) :
    VolM (ServerReply × Session × Option Transfer) := do
  let t ← (transfer state index : Except Error Transfer)
  match t.payload with
  | .download _ _ => throw (invalid "not an upload")
  | .upload store missing => do
    if t.pending ≠ some chunk.toNat then throw (invalid "unexpected chunk commit")
    match t.received with
    | none => throw (invalid "chunk Resource not received")
    | some received => do
      if received.transferId ≠ resource || received.hasMetadata then
        throw (invalid "unexpected chunk Resource")
      let length ← (t.description.length chunk.toNat : Except Error Nat)
      if received.size ≠ length then throw (invalid "unexpected chunk Resource")
      let store ← onCache (store.receive t.description chunk.toNat received.file)
      pure (ok, s, some { t with payload := .upload store (missing.filter (· ≠ chunk.toNat)),
                                 pending := none, received := none })

omit [Sha256] in
/-- CHUNK_GET: the client asks for a chunk of the current page. -/
def chunkGet (index chunk : UInt32) : Except Error (ServerReply × Session × Option Transfer) := do
  let t ← transfer state index
  match t.payload with
  | .upload _ _ => throw (invalid "not a download")
  | .download file served => do
    if t.pending.isSome || served.contains chunk.toNat || chunk.toNat < t.pageStart ||
        t.nextPage ≤ chunk.toNat then
      throw (invalid "chunk already requested")
    let piece ← chunkFile file t.description chunk.toNat
    pure (.file (.common .ok) piece, s, some { t with pending := some chunk.toNat })

omit [Sha256] in
/-- CHUNK_VERIFIED: the client has the chunk. -/
def chunkVerified (index chunk : UInt32) :
    Except Error (ServerReply × Session × Option Transfer) := do
  let t ← transfer state index
  match t.payload with
  | .upload _ _ => throw (invalid "not a download")
  | .download file served => do
    if t.pending ≠ some chunk.toNat then throw (invalid "unexpected chunk verification")
    pure (ok, s, some { t with payload := .download file (served.insert chunk.toNat),
                               pending := none })

/-- `clear_committed`, and the end of the store: an error of `clear` is logged. -/
def clearCommitted (store : Store) : FsM Unit := do
  match ← (store.clear : FsM Store).attempt with
  | .ok store => store.drop
  | .error _ => store.drop

/-- FILE_COMMIT: the file is put together from the cache and installed. The entry gets the hash that
was described, so that `install` verifies the whole content. -/
def fileCommit (index : UInt32) : VolM (ServerReply × Session × Option Transfer) := do
  let t ← (transfer state index : Except Error Transfer)
  match t.payload with
  | .download _ _ => throw (invalid "not an upload")
  | .upload store missing => do
    if t.pending.isSome || missing ≠ [] || t.nextPage ≠ (← t.description.chunks) then
      throw (invalid "unfinished chunks")
    let file ← onCache (store.assemble t.description)
    let s ← onTree s.ready
    let entry ← (RrSync.index s.source.entries t.index "source.entries" : Except Error Entry)
    let entry := { entry with hash := some t.description.hash }
    onTree do
      mark (.install t.index file)
      install s.root entry s.destination s.plan file
    onCache (clearCommitted store)
    pure (ok, { s with done := s.done.insert t.index, pending := none }, none)

omit [Sha256] in
/-- FILE_VERIFIED: the client has the file, which must not have changed meanwhile. -/
def fileVerified (index : UInt32) : VolM (ServerReply × Session × Option Transfer) := do
  let t ← (transfer state index : Except Error Transfer)
  match t.payload with
  | .upload _ _ => throw (invalid "unexpected file verification")
  | .download _ _ => do
    if t.pending.isSome || t.nextPage ≠ (← t.description.chunks) then
      throw (invalid "unexpected file verification")
    let e ← (RrSync.index s.source.entries t.index "source.entries" : Except Error Entry)
    let stamp ← (s.scan.stamp e.path : Except Error Stamp)
    onTree (ensureUnchanged s.root e.path stamp)
    pure (ok, { s with done := s.done.insert t.index, pending := none }, none)

/-- The `match` of `handle_inner`, but for FINISH. -/
def serve (cache : Cache) (peer : Id) (path : String) (request : Message) :
    VolM (ServerReply × Session × Option Transfer) :=
  match request with
  | .description index d => description s state cache peer path index d
  | .describe index chunkSize => describe s state index chunkSize
  | .hashes index start page => hashes s state index start page
  | .hashesGet index start => liftM (hashesGet s state index start)
  | .chunkBegin index chunk => liftM (chunkBegin s state index chunk)
  | .chunkCommit index chunk resource => chunkCommit s state index chunk resource
  | .chunkGet index chunk => liftM (chunkGet s state index chunk)
  | .chunkVerified index chunk => liftM (chunkVerified s state index chunk)
  | .fileCommit index => fileCommit s state index
  | .fileVerified index => fileVerified s state index
  | _ => throw (invalid "unexpected v2 request")

end

/-! ### The server -/

namespace Server

variable (server : Server)

omit [Sha256] in
/-- `Server::new`. -/
def new (root : Root) (cache : Cache) : Server := ⟨⟨root, none⟩, cache, none, "", none⟩

omit [Sha256] in
/-- `Server::active`. -/
def active : Bool := server.base.session.isSome

/-- Forget the transfer, the peer and the path of a session that is over. -/
def forget {ε : Type} (base : RrSync.Server) : Prog (FsSig.vol Volume) ε Server := do
  match server.transfer with
  | some t => t.drop
  | none => pure ()
  pure { server with base, peer := none, path := "", transfer := none }

/-- `Server::disconnect`: the transfer of the session is dropped with it. -/
def disconnect {ε : Type} (connection : ConnectionId) : Prog (FsSig.vol Volume) ε Server :=
  if server.base.session.any (·.connection = connection) then
    server.forget (server.base.disconnect connection)
  else pure server

omit [Sha256] in
/-- `Server::touch`. -/
def touch (connection : ConnectionId) (now : Instant) : Server :=
  { server with base := server.base.touch connection now }

/-- `Server::expire`. -/
def expire {ε : Type} (now : Instant) (timeout : Nat) :
    Prog (FsSig.vol Volume) ε (Option ConnectionId × Server) :=
  match server.base.expire now timeout with
  | (some connection, base) => do
    let server ← server.forget base
    pure (some connection, server)
  | (none, base) => pure (none, { server with base })

omit [Sha256] in
/-- The conditions are checked from left to right. -/
def acceptsFile (connection : ConnectionId) (size : Nat) (hasMetadata : Bool) :
    Except Error Bool :=
  if server.base.session.any (fun s => s.connection = connection && s.push && !s.options.dryRun)
      && !hasMetadata then
    match server.transfer with
    | none => pure false
    | some t =>
      match t.received, t.pending with
      | none, some i => do
        let length ← resultOk (t.description.length i)
        pure (length = some size : Bool)
      | _, _ => pure false
  else pure false

omit [Sha256] in
/-- `Server::receive`: a file is kept when the transfer waits for a chunk. -/
def receive (connection : ConnectionId) (file : ReceivedFile) : Except Error Server := do
  if ← server.acceptsFile connection file.size file.hasMetadata then
    match server.transfer with
    | some t => pure { server with transfer := some { t with received := some file } }
    | none => throw (.panic "transfer.unwrap")
  else pure server

/-- `handle_inner`. START is handled by the first engine; everything else comes from the connection
and the peer that own the session. -/
def handleInner (now : Instant) (connection : ConnectionId) (peer : Id) (permission : Permission)
    (request : Message) : VolM (ServerReply × Server) := do
  if permission = .deny then throw .permissionDenied
  match request with
  | .common (.start push options path manifest) => do
    let (reply, base) ← onTree (server.base.handleInner now connection permission
      (.start push options path manifest))
    match reply with
    | .message m => pure (.message (.common m), { server with base, peer := some peer, path })
    | .file _ _ => throw (.panic "unreachable")
  | request =>
    match server.base.session.filter (·.connection = connection) with
    | none => throw (invalid "no active session")
    | some s => do
      if server.peer ≠ some peer || (s.push && permission ≠ .full) then throw .permissionDenied
      let s := { s with activity := now }
      if s.options.dryRun ∧ request ≠ .common .finish then
        throw (invalid "mutating command in dry-run")
      match request with
      | .common .finish => do
        if server.transfer.isSome then throw (invalid "unfinished file transfer")
        let (_, base) ← onTree (RrSync.Server.handleInner { server.base with session := some s } now
          connection permission .finish)
        pure (ok, { server with base, peer := none, path := "" })
      | request => do
        let (reply, s, transfer) ← serve s server.transfer server.cache peer server.path request
        pure (reply, { server with base := { server.base with session := some s }, transfer })

/-- Identity and permission come from the authenticated adapter, not wire fields. -/
def handle (now : Instant) (connection : ConnectionId) (peer : Id) (permission : Permission)
    (request : Message) : Prog (FsSig.vol Volume) Empty (Except Error ServerReply × Server) := do
  match ← (server.handleInner now connection peer permission request).attempt with
  | .ok (reply, server) => pure (.ok reply, server)
  | .error e => do
    let server ← server.disconnect connection
    pure (.error e, server)

end Server

/-! ### Runs of the server -/

/-- The calls of the adapter. -/
inductive Input where
  | handle (now : Instant) (connection : ConnectionId) (peer : Id) (permission : Permission)
      (request : Message)
  | receive (connection : ConnectionId) (file : ReceivedFile)
  | disconnect (connection : ConnectionId)
  | touch (connection : ConnectionId) (now : Instant)
  | expire (now : Instant) (timeout : Nat)
  deriving DecidableEq

/-- What a step of the server returns. -/
inductive Output where
  | reply (reply : Except Error ServerReply)
  | received (result : Except Error Unit)
  | expired (connection : Option ConnectionId)
  | none
  deriving DecidableEq

/-- One call of the adapter, on a server and the disks of the export and the cache. -/
def step (st : Server × Disks) : Input → Output × (Server × Disks)
  | .handle now connection peer permission request =>
    let r := (st.1.handle now connection peer permission request).runOk execVol st.2
    (.reply r.1.1, r.1.2, r.2)
  | .receive connection file =>
    match st.1.receive connection file with
    | .ok server => (.received (.ok ()), server, st.2)
    | .error e => (.received (.error e), st)
  | .disconnect connection =>
    let r := (st.1.disconnect connection : Prog _ Empty _).runOk execVol st.2
    (.none, r.1, r.2)
  | .touch connection now => (.none, st.1.touch connection now, st.2)
  | .expire now timeout =>
    let r := (st.1.expire now timeout : Prog _ Empty _).runOk execVol st.2
    (.expired r.1.1, r.1.2, r.2)

end

end V2

end RrSync

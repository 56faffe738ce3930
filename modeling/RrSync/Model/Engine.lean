import RrSync.Model.Protocol

/-!
# `RrSync.Model.Engine`: the server of `engine.rs`

The state machine of the first protocol. `handle` is a program on the disk of the export;
`step` runs one call of the adapter on the server and the disk.

An error of a request disconnects its connection, which drops the session if the connection
owns it. Only the owner's requests change the session, so what a failed request has done to
it is not modelled. `mark` records in the journal of the disk where a step of the
synchronization starts.
-/

set_option autoImplicit false

namespace RrSync

open Lib

/-- `config::Permission`. -/
inductive Permission where
  | deny | read | full
  deriving DecidableEq, Repr

/-- `ConnectionId`. -/
abbrev ConnectionId := Id

/-- An `Instant`: the moments of a clock, in its smallest unit. -/
abbrev Instant := Nat

/-- `ReceivedFile`. -/
structure ReceivedFile where
  transferId : TransferId
  file : Bytes
  size : Nat
  hasMetadata : Bool
  deriving DecidableEq

/-- `ServerReply`. -/
inductive ServerReply where
  | message (message : Message)
  /-- Deliver the control response before beginning the file transfer. -/
  | file (message : Message) (file : Bytes)
  deriving DecidableEq

/-- `Session`: the state of a session between two requests. `source` is the manifest of the side
that sends and `destination` that of the side that receives; `scan` is what the server saw at
START. -/
structure Session where
  connection : ConnectionId
  push : Bool
  options : Options
  root : Root
  source : Manifest
  destination : Manifest
  scan : Scan
  plan : Plan
  prepared : Bool
  pending : Option Nat
  received : Option ReceivedFile
  /-- A `BTreeSet`: a list without duplicates. -/
  done : List Nat
  activity : Instant
  deriving DecidableEq

/-- `Server`: the export, and the session while there is one. -/
structure Server where
  root : Root
  session : Option Session
  deriving DecidableEq

/-- `require_file`: the file is planned, still to be done, and sent in the right direction. -/
def requireFile (s : Session) (index : Nat) (push : Bool) : Except Error Unit :=
  if s.push ≠ push || !s.plan.files.contains index || s.done.contains index then
    throw (.protocol "file not in pending plan")
  else pure ()

/-- `check_source`: nothing that was listed has changed since the scan. -/
def checkSource (root : Root) (scan : Scan) : FsM Unit := do
  match scan.stamps.lookup "" with
  | some stamp => ensureUnchanged root "" stamp
  | none => pure ()
  scan.manifest.entries.forM fun e => do
    if e.kind ≠ .guarded then
      let stamp ← (scan.stamp e.path : Except Error Stamp)
      ensureUnchanged root e.path stamp

/-- Record that a step of the synchronization starts. -/
def mark (m : Mark) : FsM Unit := do
  let _ ← sys (.mark m)
  pure ()

namespace Server

variable (server : Server)

/-- `Server::active`. -/
def active : Bool := server.session.isSome

/-- `Server::disconnect`: a session ends with its own connection only. -/
def disconnect (connection : ConnectionId) : Server :=
  if server.session.any (·.connection = connection) then { server with session := none }
  else server

/-- `Server::touch`. -/
def touch (connection : ConnectionId) (now : Instant) : Server :=
  { server with session := server.session.map fun s =>
      if s.connection = connection then { s with activity := now } else s }

/-- `Server::expire`. -/
def expire (now : Instant) (timeout : Nat) : Option ConnectionId × Server :=
  match server.session with
  | some s => if timeout < now - s.activity then (some s.connection, { server with session := none })
    else (none, server)
  | none => (none, server)

/-- The condition is checked from left to right: an entry is looked up last. -/
def acceptsFile (connection : ConnectionId) (size : Nat) (hasMetadata : Bool) :
    Except Error Bool :=
  match server.session with
  | none => pure false
  | some s =>
    if s.connection = connection && s.push && !s.options.dryRun && !hasMetadata then
      match s.pending with
      | some i => do
        let e ← index s.source.entries i "source.entries"
        pure (e.size = size : Bool)
      | none => pure false
    else pure false

/-- `Server::receive`: a file is kept when the session waits for it. -/
def receive (connection : ConnectionId) (file : ReceivedFile) : Except Error Server := do
  if ← server.acceptsFile connection file.size file.hasMetadata then
    pure { server with session := server.session.map fun s =>
      if s.received.isNone then { s with received := some file } else s }
  else pure server

end Server

section
variable [Sha256]

namespace Session

variable (s : Session)

omit [Sha256] in
/-- Run `sync::prepare` unless it has run in this session. -/
def ready : FsM Session := do
  if s.prepared then pure s
  else do
    mark .prepare
    prepare s.root s.source s.plan
    pure { s with prepared := true }

omit [Sha256] in
/-- BEGIN: the server waits for a file. The directories of the plan are made on the first one. -/
def begin (i : Nat) : FsM Session := do
  let _ ← (requireFile s i true : Except Error Unit)
  if s.pending.isSome then throw (.protocol "file already pending")
  let s ← s.ready
  pure { s with pending := some i }

/-- COMMIT: what has arrived must be what the manifest lists, and is installed. -/
def commit (i : Nat) (resource : TransferId) : FsM Session := do
  let _ ← (requireFile s i true : Except Error Unit)
  if s.pending ≠ some i then throw (.protocol "unexpected file commit")
  match s.received with
  | none => throw (.protocol "file Resource not received")
  | some file => do
    let entry ← (index s.source.entries i "source.entries" : Except Error Entry)
    -- the length of what was received is compared here; the hash is compared while it is staged
    if file.transferId ≠ resource || file.size ≠ entry.size || file.hasMetadata then
      throw (.protocol "unexpected Resource metadata/hash/size")
    mark (.install i file.file)
    install s.root entry s.destination s.plan file.file
    pure { s with received := none, pending := none, done := s.done.insert i }

omit [Sha256] in
/-- GET: the content of a listed file, unless it has changed since the scan. -/
def get (i : Nat) : FsM (Bytes × Session) := do
  let _ ← (requireFile s i false : Except Error Unit)
  if s.pending.isSome then throw (.protocol "file already pending")
  let e ← (index s.source.entries i "source.entries" : Except Error Entry)
  let stamp ← (s.scan.stamp e.path : Except Error Stamp)
  let file ← snapshot s.root e.path stamp
  pure (file, { s with pending := some i })

omit [Sha256] in
/-- VERIFIED: the client has the file, which must not have changed meanwhile. -/
def verified (i : Nat) : FsM Session := do
  let _ ← (requireFile s i false : Except Error Unit)
  if s.pending ≠ some i then throw (.protocol "unexpected verification")
  let e ← (index s.source.entries i "source.entries" : Except Error Entry)
  let stamp ← (s.scan.stamp e.path : Except Error Stamp)
  ensureUnchanged s.root e.path stamp
  pure { s with pending := none, done := s.done.insert i }

omit [Sha256] in
/-- FINISH: every planned file was transferred. A dry run checks nothing. -/
def finish : FsM Unit := do
  if !s.options.dryRun then do
    if s.pending.isSome || s.done.length ≠ s.plan.files.length then
      throw (.protocol "unfinished file transfers")
    if s.push then do
      let s ← s.ready
      mark .finish
      RrSync.finish s.root s.source s.plan
    else checkSource s.root s.scan
  else pure ()

/-- The `match` of `handle_inner` on the request of the owner of the session. -/
def serve (request : Message) : FsM (ServerReply × Option Session) :=
  match request with
  | .begin i => do
    let s ← s.begin i.toNat
    pure (.message .ok, some s)
  | .commit i resource => do
    let s ← s.commit i.toNat resource
    pure (.message .ok, some s)
  | .get i => do
    let (file, s) ← s.get i.toNat
    pure (.file .ok file, some s)
  | .verified i => do
    let s ← s.verified i.toNat
    pure (.message .ok, some s)
  -- the session ends with FINISH
  | .finish => do
    s.finish
    pure (.message .ok, none)
  | _ => throw (.protocol "unexpected request")

end Session

namespace Server

variable (server : Server)

/-- The START branch of `handle_inner`. -/
def start (now : Instant) (connection : ConnectionId) (permission : Permission) (push : Bool)
    (options : Options) (path : String) (manifest : Manifest) : FsM (ServerReply × Server) := do
  if push ∧ permission ≠ .full then throw .permissionDenied
  if server.session.isSome then throw .busy
  let root ← (server.root.subtree path : Except Error Root)
  if !push then do
    if !(← root.exists? "") then throw (.io .noent "source directory does not exist")
  let scan ← scan root options.checksum
  let remote := scan.manifest
  let source := if push then manifest else remote
  let destination := if push then remote else manifest
  let plan ← (plan source destination options : Except Error Plan)
  let session : Session :=
    ⟨connection, push, options, root, source, destination, scan, plan, false, none, none, [], now⟩
  pure (.message (.manifest remote), { server with session := some session })

/-- `handle_inner`. START may come from anyone while there is no session; everything else comes from
the connection that owns it. -/
def handleInner (now : Instant) (connection : ConnectionId) (permission : Permission)
    (request : Message) : FsM (ServerReply × Server) := do
  if permission = .deny then throw .permissionDenied
  match request with
  | .start push options path manifest =>
    server.start now connection permission push options path manifest
  | request =>
    match server.session.filter (·.connection = connection) with
    | none => throw (.protocol "no active session")
    | some s => do
      let s := { s with activity := now }
      if s.options.dryRun ∧ request ≠ .finish then throw (.protocol "mutating command in dry-run")
      let (reply, session) ← s.serve request
      pure (reply, { server with session })

/-- An error aborts only this connection. -/
def handle (now : Instant) (connection : ConnectionId) (permission : Permission)
    (request : Message) : Prog FsSig Empty (Except Error ServerReply × Server) := do
  match ← (server.handleInner now connection permission request).attempt with
  | .ok (reply, server) => pure (.ok reply, server)
  | .error e => pure (.error e, server.disconnect connection)

end Server

/-! ### Runs of the server -/

/-- The calls of the adapter. -/
inductive Input where
  | handle (now : Instant) (connection : ConnectionId) (permission : Permission)
      (request : Message)
  | receive (connection : ConnectionId) (file : ReceivedFile)
  | disconnect (connection : ConnectionId)
  | touch (connection : ConnectionId) (now : Instant)
  | expire (now : Instant) (timeout : Nat)
  deriving DecidableEq

/-- What a step of the server returns. -/
inductive Output where
  | reply (reply : Except Error ServerReply)
  | received (result : Except Error Unit)
  | expired (connection : Option ConnectionId)
  | none
  deriving DecidableEq

/-- One call of the adapter, on a server and the disk of its export. -/
def step (st : Server × Disk) : Input → Output × (Server × Disk)
  | .handle now connection permission request =>
    let r := (st.1.handle now connection permission request).runOk exec st.2
    (.reply r.1.1, r.1.2, r.2)
  | .receive connection file =>
    match st.1.receive connection file with
    | .ok server => (.received (.ok ()), server, st.2)
    | .error e => (.received (.error e), st)
  | .disconnect connection => (.none, st.1.disconnect connection, st.2)
  | .touch connection now => (.none, st.1.touch connection now, st.2)
  | .expire now timeout =>
    let r := st.1.expire now timeout
    (.expired r.1, r.2, st.2)

end

end RrSync

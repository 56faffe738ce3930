import RrSync.Model.Client
import RrSync.Model.EngineV2

/-!
# `RrSync.Model.ClientV2`: the client of `engine/v2.rs`

`synchronize` of the second protocol, over the disks of the client and a transport. A store
that has been opened is dropped when a later step fails, so each step after that is guarded
by `dropping`.
-/

set_option autoImplicit false

namespace RrSync.V2

open Lib

/-- Programs on the two volumes of the client and the transport. -/
abbrev ClientM := Prog ((FsSig.vol Volume).sum LinkSig) Error

/-- A program on the disks of the client. -/
def onDisks {α : Type} (m : VolM α) : ClientM α := m.left

/-- `Resume`. -/
structure Resume where
  cache : Cache
  /-- Authenticated remote identity (never a connection ID). -/
  peer : Id
  chunkSize : UInt32

/-- `(0..chunks).step_by(PAGE_CHUNKS)`. -/
def pageStarts (chunks : Nat) : List Nat :=
  (List.range (divCeil chunks pageChunks)).map (· * pageChunks)

namespace Client

section
variable [Sha256]

/-- `request`: a message is sent, and an ERROR that comes back is an error here. -/
def request (message : Message) : ClientM Message := do
  let bytes ← (message.encode : Except Error Bytes)
  let response ← linkRequest bytes
  let message ← (Message.decode response : Except Error Message)
  match message with
  | .common (.error code text) => throw (.remote code text)
  | message => pure message

/-- `ok`: the answer must be OK. -/
def ok (message : Message) : ClientM Unit := do
  if (← request message) ≠ .common .ok then throw (invalid "expected v2 OK")

/-! ### Push -/

section
variable (file : Bytes) (d : Description) (index : UInt32)

/-- The body of the loop over the missing chunks of a page. -/
def pushChunk (chunk : UInt32) : ClientM Unit := do
  let part ← (chunkFile file d chunk.toNat : Except Error Bytes)
  ok (.chunkBegin index chunk)
  let size ← (d.length chunk.toNat : Except Error Nat)
  let resource ← sendFile part size
  ok (.chunkCommit index chunk resource)

/-- The body of the loop over the pages. -/
def pushPage (start : Nat) : ClientM Unit := do
  let hashes ← (d.page start : Except Error (List Hash))
  match ← request (.hashes index (.ofNat start) hashes) with
  | .missing actual actualStart actualCount chunks => do
    if actual ≠ index || actualStart ≠ .ofNat start || actualCount.toNat ≠ hashes.length then
      throw (invalid "unexpected missing page")
    let _ ← (validateMissing chunks actualStart hashes.length : Except Error Unit)
    let _ ← (checkedSub hashes.length chunks.length "count - chunks.len()" : Except Error Nat)
    chunks.forM (pushChunk file d index)
  | _ => throw (invalid "expected missing page")

end

/-- The body of the loop over the files of the plan, in a push. -/
def pushFile (root : Root) (scan : Scan) (chunkSize : UInt32) (source : Manifest) (i : Nat) :
    ClientM Unit := do
  let index := UInt32.ofNat i
  let e ← (RrSync.index source.entries i "source.entries" : Except Error Entry)
  let stamp ← (scan.stamp e.path : Except Error Stamp)
  let file ← onDisks (onTree (snapshot root e.path stamp))
  let d ← (Description.scan file chunkSize : Except Error Description)
  let _ ← (validateDescription e d : Except Error Unit)
  ok (.description index d)
  let chunks ← (d.chunks : Except Error Nat)
  (pageStarts chunks).forM (pushPage file d index)
  onDisks (onTree (ensureUnchanged root e.path stamp))
  ok (.fileCommit index)

/-! ### Pull -/

/-- Drop the store when a step fails. -/
def dropping {α : Type} (store : Store) (m : ClientM α) : ClientM α :=
  m.onError (onDisks (onCache store.drop))

section
variable (index : UInt32)

/-- The body of the loop over the missing chunks of a page. -/
def pullChunk (d : Description) (store : Store) (chunk : Nat) : ClientM Store := do
  let store ← dropping store do
    ok (.chunkGet index (.ofNat chunk))
    let size ← (d.length chunk : Except Error Nat)
    let received ← receiveFile size
    if received.hasMetadata || received.size ≠ size then
      throw (invalid "unexpected chunk Resource")
    onDisks (onCache (store.receive d chunk received.file))
  dropping store (ok (.chunkVerified index (.ofNat chunk)))
  pure store

/-- The body of the loop over the pages. The hashes go into the table of the description. -/
def pullPage (state : Description × Store) (start : Nat) : ClientM (Description × Store) := do
  let (d, missing) ← dropping state.2 do
    match ← request (.hashesGet index (.ofNat start)) with
    | .hashes actual actualStart hashes => do
      if actual ≠ index || actualStart.toNat ≠ start then
        throw (invalid "unexpected hash page")
      let d ← (state.1.setPage start hashes : Except Error Description)
      let missing ← onDisks (onCache (state.2.missing d start))
      let _ ← (checkedSub hashes.length missing.length "hashes.len() - missing.len()" :
        Except Error Nat)
      pure (d, missing)
    | _ => throw (invalid "expected hash page")
  let store ← missing.foldlM (pullChunk index d) state.2
  pure (d, store)

end

/-- The body of the loop over the files of the plan, in a pull. -/
def pullFile (root : Root) (resume : Resume) (path : String) (source destination : Manifest)
    (plan : Plan) (i : Nat) : ClientM Unit := do
  let index := UInt32.ofNat i
  let e ← (RrSync.index source.entries i "source.entries" : Except Error Entry)
  match ← request (.describe index resume.chunkSize) with
  | .description actual d => do
    if actual ≠ index || d.chunkSize ≠ resume.chunkSize then
      throw (invalid "unexpected description")
    let _ ← (validateDescription e d : Except Error Unit)
    -- the chunks that the cache has already are not asked for again
    let store ← onDisks (onCache (Cache.open resume.cache resume.peer false path e d))
    let chunks ← dropping store (d.chunks : Except Error Nat)
    let (d, store) ← (pageStarts chunks).foldlM (pullPage index) (d, store)
    dropping store do
      let file ← onDisks (onCache (store.assemble d))
      ok (.fileVerified index)
      -- the hash of the description makes `install` verify the whole content
      let entry := { e with hash := some d.hash }
      onDisks (onTree (install root entry destination plan file))
    onDisks (onCache (clearCommitted store))
  | _ => throw (invalid "expected description")

/-! ### The session -/

section
variable (root : Root) (scan : Scan) (job : SyncRequest) (resume : Resume)

/-- What a push does when the server has sent its manifest. -/
def push (remote : Manifest) : ClientM Unit := do
  let plan ← (plan scan.manifest remote job.options : Except Error Plan)
  if job.options.dryRun then ok (.common .finish)
  else do
    plan.files.forM (pushFile root scan resume.chunkSize scan.manifest)
    onDisks (onTree (checkSource root scan))
    ok (.common .finish)

/-- What a pull does when the server has sent its manifest. -/
def pull (remote : Manifest) : ClientM Unit := do
  let plan ← (plan remote scan.manifest job.options : Except Error Plan)
  if job.options.dryRun then ok (.common .finish)
  else do
    onDisks (onTree (prepare root remote plan))
    plan.files.forM (pullFile root resume job.path remote scan.manifest plan)
    ok (.common .finish)
    onDisks (onTree (finish root remote plan))

/-- `synchronize_inner`. -/
def synchronizeInner : ClientM Unit := do
  let _ ← (Description.count 0 resume.chunkSize : Except Error Nat)
  match ← request (.common (.start job.push job.options job.path scan.manifest)) with
  | .common (.manifest remote) =>
    if job.push then push root scan job resume remote else pull root scan job resume remote
  | _ => throw (invalid "expected manifest")

/-- `synchronize`: whatever happens, the transport is closed. -/
def synchronize : ClientM Unit := do
  let result ← (synchronizeInner root scan job resume).attempt
  closeLink
  result

end

end

end Client

end RrSync.V2

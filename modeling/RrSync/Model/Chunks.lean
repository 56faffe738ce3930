import RrSync.Model.Protocol

/-!
# `RrSync.Model.Chunks`: `chunks.rs`

Descriptions of files by chunks, and the persistent store of verified chunks.

The fields of a `Description` of the source are private and its geometry is checked where one
is built, so the geometry is a field here. Clones of a description share one hash table, a
file. The model has one copy of the table, in the description, and an operation of a `Store`
takes the description as an argument; the store of the source holds a clone of it.

Arithmetic of the source that could leave the range of its type is checked here; it is an
`Error.panic` then.
-/

set_option autoImplicit false

namespace RrSync

open Lib

/-- `MIN_CHUNK_SIZE`. -/
def minChunkSize : Nat := 4096

/-- `MAX_CHUNK_SIZE`. -/
def maxChunkSize : Nat := 16 * 1024 * 1024

/-- `PAGE_CHUNKS`: the hashes of one page of the hash table. -/
def pageChunks : Nat := 128

/-- `SHARD_CHUNKS`: the chunks of one directory of the cache. -/
def shardChunks : Nat := 256

/-- Subtraction of unsigned integers. -/
def checkedSub (a b : Nat) (site : String) : Except Error Nat :=
  if a < b then throw (.panic site) else pure (a - b)

/-- A result of type `u64`. -/
def checked64 (n : Nat) (site : String) : Except Error Nat :=
  if 2 ^ 64 ≤ n then throw (.panic site) else pure n

/-! ### Descriptions -/

/-- What `Description::count` checks. -/
def Geometry (size : Nat) (chunkSize : UInt32) : Prop :=
  minChunkSize ≤ chunkSize.toNat ∧ chunkSize.toNat ≤ maxChunkSize ∧ size ≤ maxFile

instance (size : Nat) (chunkSize : UInt32) : Decidable (Geometry size chunkSize) :=
  inferInstanceAs (Decidable (_ ∧ _))

/-- `Description`. The geometry is what its constructors have checked, so `chunks` never panics on
one. -/
structure Description where
  size : Nat
  chunkSize : UInt32
  hash : Hash
  /-- The hash table: the file behind `hashes`, in records of 32 bytes. -/
  hashes : List Hash
  geometry : Geometry size chunkSize
  deriving DecidableEq

/-- `size.div_ceil(chunk_size)`. -/
def divCeil (size chunk : Nat) : Nat := (size + chunk - 1) / chunk

/-- The hash of 32 zero bytes: what a hole of the table reads as. -/
def zeroHash : Hash := Vector.replicate 32 0

/-- `write_all_at` of one record of the hash table. -/
def writeAt (table : List Hash) (i : Nat) (h : Hash) : List Hash :=
  if i < table.length then table.set i h
  else table ++ List.replicate (i - table.length) zeroHash ++ [h]

/-- The pieces of a file of the size `n`, at most `k` of them. -/
def pieces (n : Nat) : Nat → Bytes → List Bytes
  | 0, _ => []
  | k + 1, data => if data = [] then [] else data.take n :: pieces n k (data.drop n)

namespace Description

/-- `Description::count`: how many chunks a file of this size has. -/
def count (size : Nat) (chunkSize : UInt32) : Except Error Nat := do
  if ¬ (minChunkSize ≤ chunkSize.toNat ∧ chunkSize.toNat ≤ maxChunkSize) then
    throw (.protocol "chunk size outside safety bounds")
  let count := divCeil size chunkSize.toNat
  if maxFile < size ∨ 2 ^ 32 ≤ count then throw (.protocol "chunk count limit exceeded")
  pure count

variable (d : Description)

/-- `chunks`: the `unwrap` is of `count` of the geometry of the description. -/
def chunks : Except Error Nat :=
  match count d.size d.chunkSize with
  | .ok n => pure n
  | .error _ => throw (.panic "Description::chunks")

/-- `Description::length`: every chunk has the chunk size, but for the last one. -/
def length (index : Nat) : Except Error Nat := do
  if (← d.chunks) ≤ index then throw (.protocol "chunk index out of range")
  let offset ← checked64 (index * d.chunkSize.toNat) "index * chunk_size"
  let rest ← checkedSub d.size offset "size - index * chunk_size"
  pure (min rest d.chunkSize.toNat)

/-- `Description::page_len`: how many hashes the page has that starts here. -/
def pageLen (start : Nat) : Except Error Nat := do
  let chunks ← d.chunks
  if chunks ≤ start ∨ start % pageChunks ≠ 0 then throw (.protocol "invalid hash page offset")
  let rest ← checkedSub chunks start "chunks - start"
  pure (min rest pageChunks)

/-- The description with the hashes at `start` in its table. -/
def setPage (start : Nat) (hashes : List Hash) : Except Error Description := do
  if hashes.length ≠ (← d.pageLen start) then throw (.protocol "invalid hash page length")
  pure { d with
    hashes := hashes.zipIdx.foldl (fun table h => writeAt table (start + h.2) h.1) d.hashes }

/-- `Description::chunk_hash`. A record that was never written is the end of the table. -/
def chunkHash (index : Nat) : Except Error Hash := do
  let _ ← d.length index
  match d.hashes[index]? with
  | some h => pure h
  | none => throw Errno.unexpectedEof.toError

/-- `Description::page`. -/
def page (start : Nat) : Except Error (List Hash) := do
  let n ← d.pageLen start
  (List.range n).mapM fun i => d.chunkHash (start + i)

section
variable [Sha256]

/-- Build a description whose geometry `count` has checked. -/
def header (size : Nat) (chunkSize : UInt32) (hash : Hash) : Except Error Description := do
  let _ ← count size chunkSize
  if size = 0 ∧ hash ≠ digest [] then throw (.hashMismatch "empty chunk description")
  if h : Geometry size chunkSize then pure ⟨size, chunkSize, hash, [], h⟩
  else throw (.panic "count has checked the geometry")

/-- Describe a file. Its stamp is the same before and after, because nothing else runs in
between. -/
def scan (file : Bytes) (chunkSize : UInt32) : Except Error Description := do
  let n ← count file.length chunkSize
  if h : Geometry file.length chunkSize then
    pure ⟨file.length, chunkSize, digest file, (pieces chunkSize.toNat n file).map digest, h⟩
  else throw (.panic "count has checked the geometry")

/-- The lower-case hexadecimal digit of a number below sixteen. -/
def hexDigit (n : Nat) : Char := if n < 10 then Char.ofNat (48 + n) else Char.ofNat (87 + n)

/-- `hex::encode`. -/
def hex (b : Bytes) : String :=
  String.ofList (b.flatMap fun x => [hexDigit (x.toNat / 16), hexDigit (x.toNat % 16)])

/-- The name of the transfer directory. -/
def key (scope : Hash) : String :=
  hex (digest ("rrsync-local-chunks-paged".utf8 ++ [0] ++ scope.toList ++ toBytes 8 d.size
    ++ toBytes 4 d.chunkSize.toNat ++ d.hash.toList)).toList

end

end Description

/-- `chunks::scope`. -/
def scope [Sha256] (peer : Id) (push : Bool) (root path : String) : Except Error Hash := do
  validate path
  if root.utf8 = [] ∨ maxPath < root.utf8.length ∨ 0 ∈ root.utf8 then throw (.invalidPath root)
  let field (s : String) : Bytes := toBytes 4 s.utf8.length ++ s.utf8
  pure (digest ("rrsync-local-scope-v1".utf8 ++ [0] ++ peer.toList ++ [if push then 1 else 0]
    ++ field root ++ field path))

/-- `chunk_file`: one chunk of a snapshot. -/
def chunkFile (source : Bytes) (d : Description) (chunk : Nat) : Except Error Bytes := do
  let size ← d.length chunk
  let offset ← checked64 (chunk * d.chunkSize.toNat) "chunk * chunk_size"
  let file := (source.drop offset).take size
  if file.length ≠ size then throw (.protocol "short chunk snapshot")
  pure file

/-! ### The store -/

/-- `Limits`. -/
structure Limits where
  maxBytes : Nat
  maxTransfers : Nat
  /-- Expire other inactive transfers before quota checks; zero disables eviction. -/
  retentionSeconds : Nat

/-- `Store`: the directory of one transfer. The lock it holds is part of the disk. -/
structure Store where
  root : Root
  lastActivity : Nat

/-- `now()`. -/
def now : FsM Nat := do
  match ← sys .seconds with
  | some seconds => pure seconds
  | none => throw (.config "system clock is before Unix epoch")

/-- `{:08x}` of a number below 2^32. -/
def hex8 (n : Nat) : String := Description.hex (toBytes 4 n)

/-- The value of a digit that `is_ascii_hexdigit` accepts. -/
def hexValue? (x : UInt8) : Option Nat :=
  if 48 ≤ x ∧ x ≤ 57 then some (x.toNat - 48)
  else if 97 ≤ x ∧ x ≤ 102 then some (x.toNat - 87)
  else if 65 ≤ x ∧ x ≤ 70 then some (x.toNat - 55)
  else none

/-- `u8::is_ascii_hexdigit`, in either case. -/
def isHexDigit (x : UInt8) : Bool := (hexValue? x).isSome

/-- `from_str_radix(_, 16).unwrap()`. -/
def fromHex (b : Bytes) : Except Error Nat :=
  match b.mapM hexValue? with
  | some digits => pure (digits.foldl (fun n x => n * 16 + x) 0)
  | none => throw (.panic "from_str_radix")

/-- The name of a transfer directory. -/
def keyName (name : String) : Bool := name.utf8.length = 64 && name.utf8.all isHexDigit

/-- `shard_name`. -/
def shardName (name : String) : Bool := name.utf8.length = 8 && name.utf8.all isHexDigit

/-- `chunk_name`. -/
def chunkName (name : String) : Bool :=
  ".chunk".utf8.isSuffixOf name.utf8 && name.utf8.length = 14 && (name.utf8.take 8).all isHexDigit

/-- The name of a file that was staged and never renamed. -/
def staging (name : String) : Bool := ".rrsync-".utf8.isPrefixOf name.utf8

/-- One file of a shard of `payload_bytes`. -/
def shardBytes (shard bytes : Nat) (child : String × Metadata) : Except Error Nat := do
  let valid ← if chunkName child.1 then do
      let index ← fromHex (child.1.utf8.take 8)
      pure (index / shardChunks = shard : Bool)
    else pure false
  if !child.2.isFile || !(valid || staging child.1) then
    throw (.config "unexpected object in chunk shard")
  if 2 ^ 64 ≤ bytes + child.2.len then throw (.config "cache size overflow")
  pure (bytes + child.2.len)

/-- One object of a transfer directory of `payload_bytes`. -/
def payloadEntry (root : Root) (bytes : Nat) (child : String × Metadata) : FsM Nat := do
  if child.2.isFile && (child.1 = "lock" || child.1 = "activity") then return bytes
  if child.2.isFile && staging child.1 then return bytes + child.2.len
  if !child.2.isDir || !shardName child.1 then
    throw (.config "unexpected object in chunk cache")
  let shard ← (fromHex child.1.utf8 : Except Error Nat)
  (← root.children child.1).foldlM (fun bytes child => liftM (shardBytes shard bytes child)) bytes

/-- `payload_bytes`: what a transfer directory holds, in bytes. Anything that is not its own is an
error. The sum is a natural number. -/
def payloadBytes (root : Root) : FsM Nat := do
  (← root.children "").foldlM (payloadEntry root) 0

/-- Remove a shard, and collect the names of files next to the shards. -/
def removeEntry (root : Root) (names : List String) (child : String × Metadata) :
    FsM (List String) := do
  if child.1 = "lock" || child.1 = "activity" then return names
  if child.2.isDir then do
    let children ← root.children child.1
    root.removeFiles child.1 (children.map Prod.fst)
    root.remove child.1 true
    pure names
  else pure (names ++ [child.1])

/-- `remove_payload`: everything but the lock and the record goes away, one shard after the other. -/
def removePayload (root : Root) : FsM Unit := do
  let names ← (← root.children "").foldlM (removeEntry root) []
  if names ≠ [] then root.removeFiles "" names

/-- `read_activity`: a record of another form counts as none. -/
def readActivity (root : Root) : FsM (Option Nat) := do
  match ← (root.openFile "activity").attempt with
  | .error (.io .noent _) => pure none
  | .error e => throw e
  | .ok (m, record) =>
    if m.len ≠ 16 then return none
    if record.take 8 ≠ "RRSYNC01".utf8 then return none
    pure (some (ofBytes (record.drop 8)))

section
variable [Sha256]

/-- The record of an activity: a magic word and the time. -/
def activityRecord (seconds : Nat) : Bytes := "RRSYNC01".utf8 ++ toBytes 8 seconds

/-- `write_activity`: the record is replaced in one step. -/
def writeActivity (root : Root) (seconds : Nat) : FsM Unit := do
  let record := activityRecord seconds
  let staged ← root.stageContent "activity" [record] 16 (digest record)
  staged.scope staged.commit

/-- One turn of the loop of `expire`. -/
def expireEntry (parent : Root) (current : String) (retention now : Nat)
    (child : String × Metadata) : FsM Unit := do
  if child.1 = "cache.lock" || child.1 = current then return ()
  if !keyName child.1 || !child.2.isDir then throw (.config "unexpected object in chunk cache")
  let root ← parent.subtree child.1
  root.lockState "lock" false
  let _ ← payloadBytes root
  match ← readActivity root with
  | none => writeActivity root now
  | some last =>
    if now < last || now - last < retention then return ()
    removePayload root
    -- Remove the activity record last so interrupted cleanup can be resumed.
    root.remove "activity" false
    root.remove "lock" false
    parent.remove child.1 true

/-- `expire`: every transfer of the cache directory but the current one. -/
def expire (parent : Root) (current : String) (retention now : Nat) : FsM Unit := do
  (← parent.children "").forM (expireEntry parent current retention now)

namespace Store

/-- `touch`, through `refresh_activity`. -/
def touch (store : Store) : FsM Store := do
  let seconds ← now
  if store.lastActivity ≠ seconds then do
    writeActivity store.root seconds
    pure { store with lastActivity := seconds }
  else pure store

/-- `Drop for Store`. Errors are logged. -/
def drop {ε : Type} (store : Store) : Prog FsSig ε Unit := do
  let _ ← store.touch.attempt
  pure ()

/-- `Store::open_locked`: the lock is taken before the record is written. -/
def openLocked (parent : Root) (scope : Hash) (d : Description) : FsM Store := do
  let key := d.key scope
  parent.mkdir key
  let root ← parent.subtree key
  root.lockState "lock" false
  let activity ← now
  writeActivity root activity
  pure ⟨root, activity⟩

/-- `Store::open` on the opened cache directory. -/
def openShared (parent : Root) (scope : Hash) (d : Description) : FsM Store := do
  parent.lockState "cache.lock" true
  openLocked parent scope d

omit [Sha256] in
/-- `Store::name`: the chunk lies in the directory of its shard. -/
def name (d : Description) (index : Nat) : Except Error String := do
  let _ ← d.length index
  pure (hex8 (index / shardChunks) ++ "/" ++ hex8 index ++ ".chunk")

omit [Sha256] in
/-- One object of the cache directory in the loop of `open_limited`: the number of
transfers, whether the own one is there, and the bytes. -/
def usageEntry (parent : Root) (key : String) (usage : Nat × Bool × Nat)
    (child : String × Metadata) : FsM (Nat × Bool × Nat) := do
  if child.1 = "cache.lock" then return usage
  if !keyName child.1 || !child.2.isDir then throw (.config "unexpected object in chunk cache")
  let root ← parent.subtree child.1
  let bytes ← payloadBytes root
  if 2 ^ 64 ≤ usage.2.2 + bytes then throw (.config "cache size overflow")
  pure (usage.1 + 1, usage.2.1 || child.1 = key, usage.2.2 + bytes)

omit [Sha256] in
/-- The bytes to reserve for a chunk: none when a file of its size is there. -/
def neededFor (store : Store) (d : Description) (needed index : Nat) : FsM Nat := do
  let name ← (name d index : Except Error String)
  let length ← (d.length index : Except Error Nat)
  let absent ← if !(← store.root.exists? name) then pure true
    else do pure ((← store.root.metadata name).len ≠ length : Bool)
  pure (if absent then needed + length else needed)

/-- The first part of `open_limited`, up to the first quota checks. -/
def admission (parent : Root) (key : String) (limits : Limits) : FsM Nat := do
  parent.lockState "cache.lock" false
  if 0 < limits.retentionSeconds then do
    let seconds ← now
    expire parent key limits.retentionSeconds seconds
  let usage ← (← parent.children "").foldlM (usageEntry parent key) (0, false, 0)
  if limits.maxTransfers < usage.1 + (if usage.2.1 then 0 else 1) || limits.maxBytes < usage.2.2 then
    throw (.config "chunk cache quota exceeded; clean stale state while all users are stopped")
  pure usage.2.2

/-- Reserve space for all missing chunks while exclusively owning this cache. -/
def openLimited (parent : Root) (scope : Hash) (d : Description) (limits : Limits) :
    FsM Store := do
  let bytes ← admission parent (d.key scope) limits
  let store ← openLocked parent scope d
  -- From here on the store is dropped when the function fails.
  (do
    let needed ← (List.range (← d.chunks)).foldlM (neededFor store d) 0
    if limits.maxBytes - bytes < needed then throw (.config "chunk cache byte quota exceeded")
    : FsM Unit).onError store.drop
  pure store

variable (store : Store) (d : Description)

/-- Wrong size/hash is treated as missing. Unsafe paths and I/O errors fail closed. -/
def verified (index : Nat) : FsM (Option Bytes) := do
  let name ← (name d index : Except Error String)
  match ← (store.root.openFile name).attempt with
  | .error (.io .noent _) => pure none
  | .error e => throw e
  | .ok (m, file) =>
    if m.len ≠ (← d.length index) then return none
    if digest file ≠ (← d.chunkHash index) then return none
    pure (some file)

/-- `Store::missing`: the chunks of a page that are not there as they should be. -/
def missing (start : Nat) : FsM (List Nat) := do
  if (← d.chunks) = 0 ∧ start = 0 then return []
  let count ← (d.pageLen start : Except Error Nat)
  (List.range count).foldlM (fun missing i => do
    match ← store.verified d (start + i) with
    | none => pure (missing ++ [start + i])
    | some _ => pure missing) []

/-- Publish only after exact length/hash verification and fsync; duplicates are safe. -/
def receive (index : Nat) (reader : Bytes) : FsM Store := do
  let name ← (name d index : Except Error String)
  store.root.mkdir (hex8 (index / shardChunks))
  let length ← (d.length index : Except Error Nat)
  let hash ← (d.chunkHash index : Except Error Hash)
  let staged ← store.root.stageContent name (reads reader) length hash
  staged.scope staged.commit
  store.touch

/-- `receive` with a reader that may fail. -/
def receiveFrom (index : Nat) (reader : Reading) : FsM Store := do
  let name ← (name d index : Except Error String)
  store.root.mkdir (hex8 (index / shardChunks))
  let length ← (d.length index : Except Error Nat)
  let hash ← (d.chunkHash index : Except Error Hash)
  let staged ← store.root.stageFrom name reader length (some hash) none
  staged.scope staged.commit
  store.touch

/-- A reader that does not fail and returns the file in pieces is `receive`. -/
theorem receiveFrom_reads (index : Nat) (file : Bytes) :
    store.receiveFrom d index ⟨reads file, none⟩ = store.receive d index file := rfl

/-- Assemble to an anonymous file, verifying chunks and the full digest again. -/
def assemble : FsM Bytes := do
  let result ← (List.range (← d.chunks)).foldlM (fun result index => do
    match ← store.verified d index with
    | some file => pure (result ++ file)
    | none => throw (.hashMismatch ("missing or damaged chunk " ++ toString index))) []
  if digest result ≠ d.hash then throw (.hashMismatch "assembled file")
  pure result

/-- `Store::clear`. -/
def clear : FsM Store := do
  let _ ← payloadBytes store.root -- Validate all paths before removal.
  removePayload store.root
  store.touch

end Store

end

end RrSync

import RrSync.Model.Chunks

/-!
# `RrSync.Model.ProtocolV2`: `protocol/v2.rs`

The messages of the second protocol and their codec. START, MANIFEST, FINISH, OK and ERROR
are messages of the first protocol under another version byte.
-/

set_option autoImplicit false

namespace RrSync.V2

open Lib

/-- `protocol::v2::Message`: the messages of the first protocol, and those about chunks. -/
inductive Message where
  | common (message : RrSync.Message)
  | describe (index chunkSize : UInt32)
  | description (index : UInt32) (description : Description)
  | hashesGet (index start : UInt32)
  | hashes (index start : UInt32) (hashes : List Hash)
  | missing (index start count : UInt32) (chunks : List UInt32)
  | chunkBegin (index chunk : UInt32)
  | chunkCommit (index chunk : UInt32) (resource : TransferId)
  | chunkGet (index chunk : UInt32)
  | chunkVerified (index chunk : UInt32)
  | fileCommit (index : UInt32)
  | fileVerified (index : UInt32)
  deriving DecidableEq

/-- `VERSION`. -/
def version : UInt8 := 2

/-- `file_index`: the index could be one of a manifest. -/
def fileIndex (index : UInt32) : Except Error Unit :=
  if maxEntries ≤ index.toNat then throw (.protocol "file index outside manifest bound")
  else pure ()

/-- `start.checked_add(count)` fails where the sum is no `u32`. -/
def pageRange (start : UInt32) (count : Nat) : Except Error Unit :=
  if start.toNat % pageChunks ≠ 0 ∨ count = 0 ∨ pageChunks < count ∨ 2 ^ 32 ≤ start.toNat + count then
    throw (.protocol "invalid page range")
  else pure ()

/-- `common_tag`: the tags of the first protocol that the second one shares. -/
def commonTag (tag : UInt8) : Bool := tag = 1 || tag = 2 || tag = 7 || tag = 8 || tag = 9

/-- The loop of `validate_missing`. -/
def missingFrom (start : UInt32) (count : Nat) : Option UInt32 → List UInt32 → Except Error Unit
  | _, [] => pure ()
  | previous, chunk :: chunks => do
    let outside ← if chunk < start then pure true else do
      let offset ← checkedSub chunk.toNat start.toNat "chunk - start"
      pure (count ≤ offset : Bool)
    if outside || previous.any fun p => chunk ≤ p then
      throw (.protocol "missing chunks must be strictly increasing and in range")
    missingFrom start count (some chunk) chunks

/-- Check a MISSING reply against its agreed description, before sending data. -/
def validateMissing (chunks : List UInt32) (start : UInt32) (count : Nat) : Except Error Unit := do
  pageRange start count
  if count < chunks.length then throw (.protocol "missing chunk count outside bound")
  missingFrom start count none chunks

/-! ### Writing -/

open RrSync.Writer

/-- Put the version byte in the place of the one of the first protocol. `bytes[1]` is the
tag. -/
def retag (bytes : Bytes) : Except Error Bytes := do
  let tag ← index bytes 1 "bytes[1]"
  if !commonTag tag then throw (.protocol "legacy whole-file command in v2")
  pure (bytes.set 0 version)

namespace Message

/-- The fields of the messages of the second protocol, with the checks of the encoder. -/
def write : Message → Except Error Bytes
  -- `encode` does not come here with a common message
  | .common _ => throw (.panic "unreachable")
  | .describe index chunkSize => do
    fileIndex index
    let _ ← Description.count 0 chunkSize
    pure (u8 version ++ u8 10 ++ u32 index ++ u32 chunkSize)
  | .description index d => do
    fileIndex index
    if maxFile < d.size then throw (.protocol "file exceeds manifest limit")
    pure (u8 version ++ u8 11 ++ u32 index ++ u64 d.size ++ u32 d.chunkSize ++ d.hash.toList)
  | .hashesGet index start => do
    fileIndex index
    pageRange start 1
    pure (u8 version ++ u8 19 ++ u32 index ++ u32 start)
  | .hashes index start hs => do
    fileIndex index
    pageRange start hs.length
    pure (u8 version ++ u8 20 ++ u32 index ++ u32 start ++ u32 (UInt32.ofNat hs.length)
      ++ hs.flatMap Vector.toList)
  | .missing index start count chunks => do
    fileIndex index
    validateMissing chunks start count.toNat
    pure (u8 version ++ u8 12 ++ u32 index ++ u32 start ++ u32 count
      ++ u32 (UInt32.ofNat chunks.length) ++ chunks.flatMap u32)
  | .chunkBegin index chunk => do
    fileIndex index
    pure (u8 version ++ u8 13 ++ u32 index ++ u32 chunk)
  | .chunkCommit index chunk resource => do
    fileIndex index
    pure (u8 version ++ u8 14 ++ u32 index ++ u32 chunk ++ resource.toList)
  | .chunkGet index chunk => do
    fileIndex index
    pure (u8 version ++ u8 15 ++ u32 index ++ u32 chunk)
  | .chunkVerified index chunk => do
    fileIndex index
    pure (u8 version ++ u8 16 ++ u32 index ++ u32 chunk)
  | .fileCommit index => do
    fileIndex index
    pure (u8 version ++ u8 17 ++ u32 index)
  | .fileVerified index => do
    fileIndex index
    pure (u8 version ++ u8 18 ++ u32 index)

/-- `Message::encode`. A common message is encoded by the first protocol and gets the version of the
second. -/
def encode (m : Message) : Except Error Bytes :=
  match m with
  | .common message => do
    let bytes ← message.encode
    retag bytes
  | m => do
    let w ← m.write
    if maxControl < w.length then throw (.protocol "control message limit")
    pure w

end Message

/-! ### Reading -/

namespace Reader

open RrSync.Reader

/-- `count` words of four bytes, of the `raw` bytes taken at once. -/
def words : Nat → Bytes → List UInt32
  | 0, _ => []
  | n + 1, raw => UInt32.ofNat (ofBytes (raw.take 4)) :: words n (raw.drop 4)

/-- `take(n * k)`, cut into arrays of the length `k`. -/
def arrays (k : Nat) : Nat → RrSync.Reader (List (Vector UInt8 k))
  | 0 => pure []
  | n + 1 => do
    let a ← array k
    let as ← arrays k n
    pure (a :: as)

section
variable [Sha256]

/-- The body of a message after its tag and its file index. -/
def body (tag : UInt8) (index : UInt32) : RrSync.Reader Message :=
  if tag = 10 then do
    let chunkSize ← u32
    let _ ← (Description.count 0 chunkSize : Except Error Nat)
    pure (.describe index chunkSize)
  else if tag = 11 then do
    let size ← u64
    if maxFile < size.toNat then throw (.protocol "file exceeds manifest limit")
    let chunkSize ← u32
    let _ ← (Description.count size.toNat chunkSize : Except Error Nat)
    let hash ← array 32
    let d ← (Description.header size.toNat chunkSize hash : Except Error Description)
    pure (.description index d)
  else if tag = 12 then do
    let start ← u32
    let pageCount ← u32
    pageRange start pageCount.toNat
    let count ← u32
    if pageCount < count then throw (.protocol "missing page count")
    let raw ← take (count.toNat * 4)
    let chunks := words count.toNat raw
    validateMissing chunks start pageCount.toNat
    pure (.missing index start pageCount chunks)
  else if tag = 19 then do
    let start ← u32
    pageRange start 1
    pure (.hashesGet index start)
  else if tag = 20 then do
    let start ← u32
    let count ← u32
    pageRange start count.toNat
    let hashes ← arrays 32 count.toNat
    pure (.hashes index start hashes)
  -- the four messages about one chunk share their head
  else if 13 ≤ tag ∧ tag ≤ 16 then do
    let chunk ← u32
    if tag = 13 then pure (.chunkBegin index chunk)
    else if tag = 14 then do
      let resource ← array 32
      pure (.chunkCommit index chunk resource)
    else if tag = 15 then pure (.chunkGet index chunk)
    else pure (.chunkVerified index chunk)
  else if tag = 17 then pure (.fileCommit index)
  else if tag = 18 then pure (.fileVerified index)
  else throw (.panic "unreachable")

/-- A message of the second protocol after its version and its tag. -/
def message (tag : UInt8) : RrSync.Reader Message := do
  if ¬ (10 ≤ tag ∧ tag ≤ 20) then throw (.protocol "unknown v2 message tag")
  let index ← u32
  fileIndex index
  body tag index

end

end Reader

/-- `Message::decode`. -/
def Message.decode [Sha256] (bytes : Bytes) : Except Error Message := do
  if maxControl < bytes.length then throw (.protocol "control message limit")
  let (v, r) ← RrSync.Reader.u8 bytes
  if v ≠ version then throw (.protocol "version mismatch")
  let (tag, r) ← RrSync.Reader.u8 r
  if commonTag tag then do
    -- Share v1's bounded manifest/flags/string validation, not its version.
    let message ← RrSync.Message.decode (bytes.set 0 RrSync.version)
    pure (.common message)
  else do
    let (m, rest) ← Reader.message tag r
    if rest ≠ [] then throw (.protocol "trailing bytes")
    pure m

end RrSync.V2

import RrSync.Model.Sync

/-!
# `RrSync.Model.Protocol`: `protocol.rs`

The messages of the first protocol and their codec. A `Writer` of the source is the list of
the bytes written so far, and a `Reader` is a program that takes bytes from the front of a
list. Both codecs share the functions for strings and manifests.
-/

set_option autoImplicit false

namespace RrSync

open Lib

/-- Opaque receipt for a completed file transfer, not a content hash. -/
abbrev TransferId := Vector UInt8 32

/-- `protocol::Message`. -/
inductive Message where
  | start (push : Bool) (options : Options) (path : String) (manifest : Manifest)
  | manifest (manifest : Manifest)
  | begin (index : UInt32)
  | commit (index : UInt32) (resource : TransferId)
  | get (index : UInt32)
  | verified (index : UInt32)
  | finish
  | ok
  | error (code : UInt8) (text : String)
  deriving DecidableEq

/-- `VERSION`. -/
def version : UInt8 := 1

/-- `MAX_CONTROL`. -/
def maxControl : Nat := 8 * 1024 * 1024

/-- The code of an error on the wire. A panic has no message; its code is not used. -/
def Error.code : Error → UInt8
  | .permissionDenied => 1
  | .invalidPath _ => 2
  | .changed _ => 3
  | .hashMismatch _ => 4
  | .protocol _ => 5
  | .io _ _ => 6
  | .transport _ | .connection _ => 7
  | .config _ => 8
  | .busy => 9
  | .remote code _ => code
  | .panic _ => 0

/-- `Message::error`. -/
def Message.ofError (e : Error) : Message :=
  .error e.code (String.ofList (e.display.toList.take 240))

/-! ### Writing -/

/-- The last `k` bytes of a number, most significant first. -/
def toBytes : Nat → Nat → Bytes
  | 0, _ => []
  | k + 1, n => toBytes k (n / 256) ++ [UInt8.ofNat (n % 256)]

namespace Writer

/-- `Writer::u8`. -/
def u8 (v : UInt8) : Bytes := [v]

/-- `Writer::u16`, big-endian as all numbers of the protocol. -/
def u16 (v : Nat) : Bytes := toBytes 2 v

/-- `Writer::u32`. -/
def u32 (v : UInt32) : Bytes := toBytes 4 v.toNat

/-- `Writer::u64`. -/
def u64 (v : Nat) : Bytes := toBytes 8 v

/-- `Writer::string`: the length, then the bytes. -/
def string (s : String) : Except Error Bytes :=
  if maxPath < s.utf8.length then throw (.protocol "string limit")
  else pure (u16 s.utf8.length ++ s.utf8)

/-- The byte of a `Kind`. -/
def kind : Kind → UInt8
  | .file => 0
  | .directory => 1
  | .guarded => 2

/-- `Writer::bool`. -/
def bool (b : Bool) : UInt8 := if b then 1 else 0

/-- An optional hash: whether there is one, then its bytes. -/
def hash : Option Hash → Bytes
  | none => u8 (bool false)
  | some h => u8 (bool true) ++ h.toList

/-- One turn of the loop of `manifest`, on the bytes written so far. -/
def entry (w : Bytes) (e : Entry) : Except Error Bytes := do
  let path ← string e.path
  let w := w ++ path ++ u8 (kind e.kind) ++ u64 e.size ++ u64 e.mtime.toUInt64.toNat ++ u32 e.ns
    ++ hash e.hash
  if maxControl < w.length then throw (.protocol "manifest byte limit")
  pure w

/-- `Writer::manifest`: only valid manifests are written. -/
def manifest (w : Bytes) (m : Manifest) : Except Error Bytes := do
  m.validate false
  m.entries.foldlM entry (w ++ u32 (UInt32.ofNat m.entries.length))

/-- `Writer::flags`. -/
def flags (o : Options) : UInt8 := bool o.delete ||| bool o.checksum <<< 1 ||| bool o.dryRun <<< 2

end Writer

open Writer in
/-- What `encode` writes before its last check. -/
def Message.write : Message → Except Error Bytes
  | .start push options path m => do
    let path ← string path
    Writer.manifest (u8 version ++ u8 1 ++ u8 (bool push) ++ u8 (flags options) ++ path) m
  | .manifest m => Writer.manifest (u8 version ++ u8 2) m
  | .begin i => pure (u8 version ++ u8 3 ++ u32 i)
  | .commit index resource => pure (u8 version ++ u8 4 ++ u32 index ++ resource.toList)
  | .get i => pure (u8 version ++ u8 5 ++ u32 i)
  | .verified i => pure (u8 version ++ u8 6 ++ u32 i)
  | .finish => pure (u8 version ++ u8 7)
  | .ok => pure (u8 version ++ u8 8)
  | .error code text => do
    let text ← string text
    pure (u8 version ++ u8 9 ++ u8 code ++ text)

/-- `Message::encode`. The limit is checked after everything is written. -/
def Message.encode (m : Message) : Except Error Bytes := do
  let w ← m.write
  if maxControl < w.length then throw (.protocol "control message limit")
  pure w

/-! ### Reading -/

/-- A program that reads bytes. -/
abbrev Reader (α : Type) := StateT Bytes (Except Error) α

/-- The number with the bytes `b`, most significant first. -/
def ofBytes (b : Bytes) : Nat := b.foldl (fun n x => n * 256 + x.toNat) 0

namespace Reader

/-- `Reader::take`: the next bytes, when there are so many. -/
def take (n : Nat) : Reader Bytes := fun r =>
  if r.length < n then throw (.protocol "truncated message") else pure (r.take n, r.drop n)

/-- `take(k)` into an array. -/
def array (k : Nat) : Reader (Vector UInt8 k) := fun r =>
  if h : r.length < k then throw (.protocol "truncated message")
  else pure (⟨(r.take k).toArray, by simp; omega⟩, r.drop k)

/-- `Reader::u8`. -/
def u8 : Reader UInt8 := do
  let b ← array 1
  pure b[0]

/-- `Reader::bool`: 0 and 1 are the only booleans. -/
def boolean : Reader Bool := do
  let b ← u8
  if b = 0 then pure false
  else if b = 1 then pure true
  else throw (.protocol "invalid boolean")

/-- `Reader::u32`. -/
def u32 : Reader UInt32 := do
  let b ← take 4
  pure (UInt32.ofNat (ofBytes b))

/-- `Reader::u64`. -/
def u64 : Reader UInt64 := do
  let b ← take 8
  pure (UInt64.ofNat (ofBytes b))

/-- `Reader::string`. The limit is checked before the bytes are read. -/
def string : Reader String := do
  let n ← take 2
  if maxPath < ofBytes n then throw (.protocol "string limit")
  let b ← take (ofBytes n)
  match ofUtf8? b with
  | some s => pure s
  | none => throw (.protocol "invalid UTF-8")

/-- The `Kind` of a byte. -/
def kind : Reader Kind := do
  let b ← u8
  if b = 0 then pure .file
  else if b = 1 then pure .directory
  else if b = 2 then pure .guarded
  else throw (.protocol "unknown entry type")

/-- An optional hash. -/
def hash : Reader (Option Hash) := do
  if ← boolean then do
    let h ← array 32
    pure (some h)
  else pure none

/-- `Reader::entry`. -/
def entry : Reader Entry := do
  let path ← string
  let kind ← kind
  let size ← u64
  let mtime ← u64
  let ns ← u32
  let hash ← hash
  pure ⟨path, kind, size.toNat, mtime.toInt64, ns, hash⟩

/-- The entries of a manifest, one after the other. -/
def entries : Nat → Reader (List Entry)
  | 0 => pure []
  | n + 1 => do
    let e ← entry
    let es ← entries n
    pure (e :: es)

/-- `Reader::manifest`: the number of entries is bounded before they are read, and what was read
must be valid. -/
def manifest : Reader Manifest := do
  let n ← u32
  if maxEntries < n.toNat then throw (.protocol "manifest entry limit")
  let es ← entries n.toNat
  let m : Manifest := ⟨es⟩
  let _ ← (m.validate false : Except Error Unit)
  pure m

/-- The flags of START: unknown ones are refused. -/
def options : Reader Options := do
  let flags ← u8
  if flags &&& ~~~7 ≠ 0 then throw (.protocol "unknown flags")
  pure ⟨flags &&& 1 ≠ 0, flags &&& 2 ≠ 0, flags &&& 4 ≠ 0⟩

/-- The body of a message after its version and its tag. -/
def body (tag : UInt8) : Reader Message :=
  if tag = 1 then do
    let push ← boolean
    let options ← options
    let path ← string
    let m ← manifest
    pure (.start push options path m)
  else if tag = 2 then do
    let m ← manifest
    pure (.manifest m)
  else if tag = 3 then do
    let i ← u32
    pure (.begin i)
  else if tag = 4 then do
    let index ← u32
    let resource ← array 32
    pure (.commit index resource)
  else if tag = 5 then do
    let i ← u32
    pure (.get i)
  else if tag = 6 then do
    let i ← u32
    pure (.verified i)
  else if tag = 7 then pure .finish
  else if tag = 8 then pure .ok
  else if tag = 9 then do
    let code ← u8
    let text ← string
    if 1024 < text.utf8.length then throw (.protocol "error text limit")
    pure (.error code text)
  else throw (.protocol "unknown message tag")

/-- A message with its version and its tag. -/
def message : Reader Message := do
  let v ← u8
  if v ≠ version then throw (.protocol "version mismatch")
  let tag ← u8
  body tag

end Reader

/-- `Message::decode`: one message and nothing after it. -/
def Message.decode (bytes : Bytes) : Except Error Message := do
  if maxControl < bytes.length then throw (.protocol "control message limit")
  let (m, rest) ← Reader.message bytes
  if rest ≠ [] then throw (.protocol "trailing bytes")
  pure m

example : (Message.begin 259).encode.bind Message.decode = .ok (.begin 259) := by decide +kernel

end RrSync

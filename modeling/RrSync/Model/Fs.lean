import Mathlib.Data.List.Sort
import RrSync.Lib.Except
import RrSync.Model.Disk

/-!
# `RrSync.Model.Fs`: `fs.rs`

Path validation and the operations of `fs::Root`. A program of type `FsM` runs on the disk
below the descriptor of a `Root`, so a `Root` of the model is only its prefix.

A `File` of the source is the list of its bytes, read in blocks of 64 KiB. The names that
the kernel resolves are joined paths; a directory that the source holds open is named by its
path.
-/

set_option autoImplicit false

namespace RrSync

open Lib

/-- A program over the file system, with the error type of the crate. -/
abbrev FsM (α : Type) := Prog FsSig Error α

/-- Issue a system call. -/
def sys (c : FsCall) : FsM c.Reply := @Prog.perform FsSig Error c

/-- The `?` operator on the result of a system call. -/
def ok {α : Type} : Except Errno α → FsM α
  | .ok a => pure a
  | .error e => throw e.toError

/-- `MAX_PATH`. -/
def maxPath : Nat := 4096

/-- `sync::MAX_ENTRIES`. -/
def maxEntries : Nat := 16384

/-- A component of a path that `validate` refuses. -/
def badComponent (c : Path) : Bool :=
  c.isEmpty || c = ".".utf8 || c = "..".utf8 || 255 < c.length

/-- `validate`: the path is not empty, has at most `MAX_PATH` bytes and 128 components, no zero
byte, and no component that is empty, `.` or `..`. -/
def validate (path : String) : Except Error Unit :=
  let p := path.utf8
  if p.isEmpty || maxPath < p.length || p.contains 0 || 128 < (p.splitOn slash).length
      || (p.splitOn slash).any badComponent then
    throw (.invalidPath path)
  else pure ()

/-- A valid path is made of names of directory entries. -/
theorem cleanPath_of_validate {path : String} {u : Unit} (h : validate path = .ok u) :
    CleanPath path.utf8 := by
  simp only [validate, ite_throw_eq_ok, Bool.or_eq_true, not_or, Bool.not_eq_true,
    List.any_eq_false] at h
  obtain ⟨⟨⟨⟨-, hnul⟩, -⟩, hbad⟩, -⟩ := h
  intro c hc
  obtain ⟨hslash, hsub⟩ := SepPath.mem_splitOn hc
  have h1 := hbad c hc
  simp only [badComponent, Bool.or_eq_false_iff, decide_eq_false_iff_not, List.isEmpty_eq_false_iff]
    at h1
  refine ⟨h1.1.1.1, hslash, fun h0 => ?_, h1.1.1.2, h1.1.2⟩
  simp [hsub 0 h0] at hnul

/-- An open directory, and the path below it that all names are relative to. -/
structure Root where
  /-- `prefix` of the source. -/
  base : String
  clean : base = "" ∨ CleanPath base.utf8
  deriving DecidableEq

namespace Root

/-- What `Root::open` returns. -/
def opened : Root := ⟨"", Or.inl rfl⟩

variable (root : Root)

/-- The name handed to the kernel for `path`. -/
def joined (path : String) : String :=
  if root.base = "" then path else if path = "" then root.base else root.base ++ "/" ++ path

/-- `Root::full`. The empty path is the root itself and is not validated. -/
def full (path : String) : Except Error String := do
  if path ≠ "" then validate path
  if maxPath < (root.joined path).utf8.length then throw (.invalidPath (root.joined path))
  pure (root.joined path)

/-- The path below the descriptor that `path` stands for. -/
def pathOf (path : String) : Path := join root.base.utf8 path.utf8

/-- The bytes of a joined path are the join of the bytes. -/
theorem utf8_joined (path : String) : (root.joined path).utf8 = root.pathOf path := by
  unfold joined pathOf join SepPath.join
  simp only [String.utf8_eq_nil]
  split
  · rfl
  · split
    · rfl
    · rw [String.utf8_append, String.utf8_append, List.append_assoc]
      rfl

/-- `full` accepts a path that is empty or valid and that is not too long once it is joined. -/
theorem full_ok {path s : String} : root.full path = .ok s ↔
    (path ≠ "" → validate path = .ok ()) ∧ (root.pathOf path).length ≤ maxPath ∧
      root.joined path = s := by
  by_cases hp : path = ""
  · simp only [full, ne_eq, hp, not_true_eq_false, if_false, ite_throw_bind_eq_ok, pure_eq_ok,
      utf8_joined, not_lt, false_imp_iff, true_and]
  · simp only [full, ne_eq, hp, not_false_eq_true, if_true, bind_eq_ok, ite_throw_bind_eq_ok,
      pure_eq_ok, utf8_joined, not_lt, exists_and_right, true_imp_iff]
    exact and_congr ⟨fun ⟨_, h⟩ => h, fun h => ⟨(), h⟩⟩ Iff.rfl

/-- Below a root, an empty or clean path has an empty or clean path. -/
theorem pathOf_clean {path : String} (h : path = "" ∨ CleanPath path.utf8) :
    root.pathOf path = [] ∨ CleanPath (root.pathOf path) :=
  SepPath.Clean.join (root.clean.imp String.utf8_eq_nil.mpr id) (h.imp String.utf8_eq_nil.mpr id)

/-- What `full` returns is empty or clean, so that it names a place of a tree. -/
theorem full_clean {path s : String} (h : root.full path = .ok s) :
    s = "" ∨ CleanPath s.utf8 := by
  obtain ⟨hpath, -, rfl⟩ := root.full_ok.mp h
  rw [← String.utf8_eq_nil, utf8_joined]
  exact root.pathOf_clean (or_iff_not_imp_left.mpr fun hp => cleanPath_of_validate (hpath hp))

/-- `Root::subtree`: a root for the joined path. -/
def subtree (relative : String) : Except Error Root := do
  if relative ≠ "" then validate relative
  match h : root.full relative with
  | .ok s => pure ⟨s, root.full_clean h⟩
  | .error e => throw e

/-- A subtree has the base that `full` returns, and `subtree` fails as `full` does. -/
theorem base_subtree (relative : String) :
    (root.subtree relative).map base = root.full relative := by
  have hrest : ((match h : root.full relative with
      | .ok s => pure ⟨s, root.full_clean h⟩
      | .error e => throw e) : Except Error Root).map base = root.full relative := by
    split
    · next s hs => exact hs.symm
    · next e he => exact he.symm
  unfold subtree
  -- `subtree` validates a second time what `full` validates, with the same error
  by_cases hr : relative = ""
  · rw [if_neg (not_not.mpr hr)]
    exact hrest
  · rw [if_pos hr]
    cases hv : validate relative with
    | ok u => exact hrest
    | error e =>
      have hfull : root.full relative = .error e := by
        unfold full
        rw [if_pos hr, hv]
        rfl
      exact hfull.symm

/-- `open_file`: only a regular file is opened, and read at once. -/
def openFile (path : String) : FsM (Metadata × Bytes) := do
  let full ← root.full path
  let f ← ok (← sys (.openFile full.utf8))
  if ¬ f.1.isFile then throw (.invalidPath path)
  pure f

/-- `lock_state` and `lock_state_shared`. Trees of the model have no hard links, so only
the type of the lock file is checked. -/
def lockState (path : String) (shared : Bool) : FsM Unit := do
  let full ← root.full path
  let m ← ok (← sys (.openLock full.utf8))
  if ¬ m.isFile then throw (.invalidPath "invalid resume lock")
  ok (← sys (.flock full.utf8 shared))

/-- `Root::metadata`, which follows no symbolic link. -/
def metadata (path : String) : FsM Metadata := do
  let full ← root.full path
  ok (← sys (.stat full.utf8))

/-- `Root::exists`: only ENOENT means that there is nothing. -/
def exists? (path : String) : FsM Bool := do
  match ← (root.metadata path).attempt with
  | .ok _ => pure true
  | .error (.io .noent _) => pure false
  | .error e => throw e

/-- The loop of `children`: names must be UTF-8, and their number is bounded. -/
def collect : List ({n : Path // NameOk n} × Metadata) → List (String × Metadata) →
    Except Error (List (String × Metadata))
  | [], out => pure out
  | (name, m) :: rest, out => match ofUtf8? name.1 with
    | none => throw (.invalidPath "non-UTF-8 filename cannot be represented in protocol v1")
    | some name =>
      if maxEntries < (out ++ [(name, m)]).length then
        throw (.protocol "directory entry limit exceeded")
      else collect rest (out ++ [(name, m)])

/-- `Root::children`: the entries of a directory in the order of their bytes. -/
def children (path : String) : FsM (List (String × Metadata)) := do
  let full ← root.full path
  let entries ← ok (← sys (.readDir full.utf8))
  let out ← collect entries []
  pure (out.insertionSort fun a b => a.1.utf8 ≤ b.1.utf8)

/-- The loop of `mkdir`: each name is created under the ones before it, if need be. -/
def mkdirFrom : Path → List Path → FsM Unit
  | _, [] => pure ()
  | parent, name :: names => do
    ok (← sys (.openDir parent))
    match ← sys (.mkdir parent name) with
    | .ok () => ok (← sys (.sync parent))
    | .error .exist => pure ()
    | .error e => throw e.toError
    ok (← sys (.openDir (join parent name)))
    mkdirFrom (join parent name) names

/-- `Root::mkdir`: every component is made unless it exists, and must then be a directory. -/
def mkdir (path : String) : FsM Unit := do
  let full ← root.full path
  mkdirFrom [] ((full.utf8.splitOn slash).filter fun c => c ≠ [])

/-- The opened parent directory of a path, and the name in it. -/
def parent (path : String) : FsM (Path × Path) := do
  validate path
  let full ← root.full path
  ok (← sys (.openDir (dirName full.utf8)))
  pure (dirName full.utf8, baseName full.utf8)

/-- `unlinkat`, with the flag `REMOVEDIR` for a directory. -/
def unlinkat (dir name : Path) (directory : Bool) : FsM Unit :=
  if directory then do ok (← sys (.rmdir dir name)) else do ok (← sys (.unlink dir name))

/-- `Root::remove`: one object goes away and its directory is synced. -/
def remove (path : String) (directory : Bool) : FsM Unit := do
  let (dir, name) ← root.parent path
  unlinkat dir name directory
  ok (← sys (.sync dir))

/-- `unlink_batch`: the sync is not skipped after a failed unlink. -/
def unlinkBatch (dir : Path) (names : List String) : FsM Unit := do
  let removed ← (names.forM fun name => do ok (← sys (.unlink dir name.utf8))).attempt
  let synced ← (do ok (← sys (.sync dir)) : FsM Unit).attempt
  match removed with
  | .ok _ => liftM synced
  | .error e => throw e

/-- `Root::remove_files`: all names are checked before the first of them is removed. -/
def removeFiles (path : String) (names : List String) : FsM Unit := do
  names.forM fun name => do
    validate name
    if slash ∈ name.utf8 then throw (.invalidPath name)
  let full ← root.full path
  ok (← sys (.openDir full.utf8))
  unlinkBatch full.utf8 names

/-- The time of the free function `set_mtime`. -/
def timeOf (sec : Int64) (ns : UInt32) : Except Error Time :=
  if h : ns < 1000000000 then pure ⟨sec, ns, h⟩ else throw (.protocol "invalid nanoseconds")

/-- `Root::set_mtime`. The nanoseconds are checked after the object is opened. -/
def setMtime (path : String) (sec : Int64) (ns : UInt32) : FsM Unit := do
  let full ← root.full path
  let _ ← ok (← sys (.openFile full.utf8))
  let time ← timeOf sec ns
  ok (← sys (.utimens full.utf8 time))

end Root

/-! ### Staging -/

/-- The size of the buffer files are read with. -/
def blockSize : Nat := 65536

/-- At most `k` blocks of a file. -/
def cutBlocks : Nat → Bytes → List Bytes
  | 0, _ => []
  | k + 1, data => if data = [] then [] else
      data.take blockSize :: cutBlocks k (data.drop blockSize)

/-- The blocks that reading a file returns, up to the empty one at its end. -/
def reads (data : Bytes) : List Bytes := cutBlocks data.length data

/-- A staged file knows where it will be installed. -/
structure Staged where
  dir : Path
  name : Path

/-- `Drop for Staged`. -/
def Staged.drop (staged : Staged) : FsM Unit := do
  let _ ← sys (.dropTemp staged.dir)
  pure ()

/-- Run `m` with a staged file, which is dropped at the end of the scope. -/
def Staged.scope {α : Type} (staged : Staged) (m : FsM α) : FsM α := m.ensuring staged.drop

/-- `Staged::commit`: the rename makes the content visible, the sync makes it last. -/
def Staged.commit (staged : Staged) : FsM Unit := do
  ok (← sys (.rename staged.dir staged.name))
  ok (← sys (.sync staged.dir))

/-- The loop of `stage_inner`. `seen` is what has been read and written. -/
def stageLoop (path : String) (size : Nat) : Bytes → List Bytes → FsM Bytes
  | seen, [] => pure seen
  | seen, block :: rest => do
    if size < (seen ++ block).length then throw (.changed path)
    ok (← sys (.write block))
    stageLoop path size (seen ++ block) rest

/-- Set the time of the staged file, when one is wanted. -/
def stampTemp : Option (Int64 × UInt32) → FsM Unit
  | none => pure ()
  | some (sec, ns) => do
    let time ← Root.timeOf sec ns
    ok (← sys (.setTempTime time))

section
variable [Sha256]

/-- The part of `stage_inner` during which the staged file exists. -/
def fillTemp (path : String) (reader : List Bytes) (size : Nat) (hash : Option Hash)
    (mtime : Option (Int64 × UInt32)) : FsM Unit := do
  let seen ← stageLoop path size [] reader
  if seen.length ≠ size then throw (.changed path)
  if hash.any (· ≠ digest seen) then throw (.hashMismatch path)
  stampTemp mtime
  ok (← sys .syncTemp)

/-- `stage_inner`: a temporary file in the directory of the path is filled, and dropped when that
fails. -/
def Root.stageInner (root : Root) (path : String) (reader : List Bytes) (size : Nat)
    (hash : Option Hash) (mtime : Option (Int64 × UInt32)) : FsM Staged := do
  let (dir, name) ← root.parent path
  ok (← sys (.createTemp dir))
  let staged : Staged := ⟨dir, name⟩
  (fillTemp path reader size hash mtime).onError staged.drop
  pure staged

/-- `Root::stage`, with the size, the hash and the time of the entry. -/
def Root.stage (root : Root) (path : String) (reader : List Bytes) (size : Nat)
    (hash : Option Hash) (sec : Int64) (ns : UInt32) : FsM Staged :=
  root.stageInner path reader size hash (some (sec, ns))

/-- Stage verified payloads without requiring filesystem timestamp semantics. -/
def Root.stageContent (root : Root) (path : String) (reader : List Bytes) (size : Nat)
    (hash : Hash) : FsM Staged :=
  root.stageInner path reader size (some hash) none

/-- A reader whose reads may fail: the blocks that they return, and the error of the read
after the blocks, if that is not the end. -/
structure Reading where
  blocks : List Bytes
  failure : Option Errno

/-- `fillTemp` with a reader that may fail. -/
def fillTempFrom (path : String) (reader : Reading) (size : Nat) (hash : Option Hash)
    (mtime : Option (Int64 × UInt32)) : FsM Unit := do
  let seen ← stageLoop path size [] reader.blocks
  match reader.failure with
  | some e => throw e.toError
  | none =>
    if seen.length ≠ size then throw (.changed path)
    if hash.any (· ≠ digest seen) then throw (.hashMismatch path)
    stampTemp mtime
    ok (← sys .syncTemp)

/-- `stage_inner` with a reader that may fail. -/
def Root.stageFrom (root : Root) (path : String) (reader : Reading) (size : Nat)
    (hash : Option Hash) (mtime : Option (Int64 × UInt32)) : FsM Staged := do
  let (dir, name) ← root.parent path
  ok (← sys (.createTemp dir))
  let staged : Staged := ⟨dir, name⟩
  (fillTempFrom path reader size hash mtime).onError staged.drop
  pure staged

/-- A reader that does not fail. -/
theorem Root.stageFrom_none (root : Root) (path : String) (blocks : List Bytes) (size : Nat)
    (hash : Option Hash) (mtime : Option (Int64 × UInt32)) :
    root.stageFrom path ⟨blocks, none⟩ size hash mtime
      = root.stageInner path blocks size hash mtime := rfl

end

/-- `fs::snapshot`. The stamp of the open source file is the same before and after the
copy, because nothing else runs in between. -/
def snapshot (root : Root) (path : String) (expected : Stamp) : FsM Bytes := do
  let (m, data) ← root.openFile path
  if Stamp.of m ≠ expected then throw (.changed path)
  let tmp := data.take (expected.size + 1)
  if tmp.length ≠ expected.size then throw (.changed path)
  if Stamp.of (← root.metadata path) ≠ expected then throw (.changed path)
  pure tmp

end RrSync

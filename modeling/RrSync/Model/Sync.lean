import RrSync.Model.Fs

/-!
# `RrSync.Model.Sync`: `sync.rs`

Manifests and their validation, the scan of a directory, the planner, and the three parts of
a run: `prepare`, `install` and `finish`.

The maps of the source are association lists: a lookup finds what the map would hold. An
index or a key that the source takes with `[..]` is an `Error.panic` when it is missing.
-/

set_option autoImplicit false

namespace RrSync

open Lib

/-- `MAX_FILE`. -/
def maxFile : Nat := 134217727

/-- `Kind`. -/
inductive Kind where
  | file
  | directory
  /-- `Kind::Protected`. -/
  | guarded
  deriving DecidableEq, Repr

/-- `Entry`, one line of a manifest. -/
structure Entry where
  path : String
  kind : Kind
  size : Nat
  mtime : Int64
  ns : UInt32
  hash : Option Hash
  deriving DecidableEq

/-- `Manifest`. -/
structure Manifest where
  entries : List Entry
  deriving DecidableEq

/-- `Scan`: a manifest with the stamps of what was seen. -/
structure Scan where
  manifest : Manifest
  stamps : List (String × Stamp)
  deriving DecidableEq

/-- `scan.stamps[path]`. -/
def Scan.stamp (scan : Scan) (path : String) : Except Error Stamp :=
  match scan.stamps.lookup path with
  | some stamp => .ok stamp
  | none => .error (.panic "stamps")

/-- A component reserved for staged files. -/
def reserved (c : Path) : Bool := ".rrsync-".utf8.isPrefixOf c

namespace Manifest

/-- One turn of the loop of `validate`. `seen` has the last path first. -/
def validateEntry (checksum : Bool) (seen : List (Path × Kind)) (e : Entry) :
    Except Error Unit := do
  validate e.path
  let p := e.path.utf8
  if (p.splitOn slash).any reserved && e.kind ≠ .guarded then throw (.invalidPath e.path)
  if e.kind ≠ .file && (e.size ≠ 0 || e.hash.isSome) then
    throw (.protocol "invalid non-file metadata")
  if 1000000000 ≤ e.ns
      || e.kind = .file && (maxFile < e.size || checksum && e.hash.isNone) then
    throw (.protocol ("invalid metadata or file too large: " ++ e.path))
  if seen.head?.any fun previous => p ≤ previous.1 then
    throw (.protocol "manifest paths must be sorted and unique")
  if slash ∈ p ∧ seen.lookup (dirName p) ≠ some .directory then
    throw (.protocol "missing or invalid parent directory")

/-- The loop of `Manifest::validate`, with what it has seen so far. -/
def validateFrom (checksum : Bool) : List (Path × Kind) → List Entry → Except Error Unit
  | _, [] => pure ()
  | seen, e :: es => do
    validateEntry checksum seen e
    validateFrom checksum ((e.path.utf8, e.kind) :: seen) es

/-- `Manifest::validate`: the number of the entries, then each of them. -/
def validate (m : Manifest) (checksum : Bool) : Except Error Unit := do
  if maxEntries < m.entries.length then throw (.protocol "manifest entry limit")
  validateFrom checksum [] m.entries

/-- The entry of a path, as the maps `sm` and `dm` of the planner have it. -/
def get? (m : Manifest) (path : String) : Option Entry := m.entries.find? (·.path = path)

end Manifest

/-! ### Scanning -/

/-- What a directory entry is listed as: reserved names and special objects are guarded. -/
def kindOf (child : String) (m : Metadata) : Kind :=
  if reserved (baseName child.utf8) then .guarded
  else if m.isFile then .file
  else if m.isDir then .directory
  else .guarded

section
variable [Sha256]

/-- The path of a child, relative to the root of the scan. -/
def childPath (path name : String) : String := if path = "" then name else path ++ "/" ++ name

/-- The hash of a file that was found, when one is asked for. -/
def hashFound (root : Root) (child : String) (m : Metadata) (wanted : Bool) :
    FsM (Option Hash) :=
  if wanted then do
    let f ← root.openFile child
    if Stamp.of f.1 ≠ Stamp.of m then throw (.changed child)
    pure (some (digest f.2))
  else pure none

/-- The body of the loop of `walk`. `descend` walks a directory that was found. -/
def visit (root : Root) (path : String) (checksum : Bool)
    (descend : String → Scan → FsM Scan) (result : Scan) (child : String × Metadata) :
    FsM Scan := do
  let m := child.2
  let child := childPath path child.1
  validate child
  let kind := kindOf child m
  let hash ← hashFound root child m (kind = .file && checksum)
  let entry : Entry :=
    ⟨child, kind, if kind = .file then m.len else 0, m.mtime.sec, m.mtime.ns, hash⟩
  let result : Scan :=
    ⟨⟨result.manifest.entries ++ [entry]⟩, (child, Stamp.of m) :: result.stamps⟩
  if maxEntries < result.manifest.entries.length then throw (.protocol "manifest entry limit")
  if kind = .directory then descend child result else pure result

/-- `walk`. The first argument bounds the depth of the recursion; it is not reached, because
a path of more than 128 components is refused before. -/
def walk (root : Root) (checksum : Bool) : Nat → String → Scan → FsM Scan
  | 0, _, _ => throw (.protocol "directory nesting exceeds 128")
  | k + 1, path, result => do
    if 128 < (path.utf8.splitOn slash).length then
      throw (.protocol "directory nesting exceeds 128")
    let before := Stamp.of (← root.metadata path)
    let children ← root.children path
    let result ← children.foldlM (visit root path checksum (walk root checksum k)) result
    if Stamp.of (← root.metadata path) ≠ before then throw (.changed path)
    pure result

/-- `scan`. The fuel is more than the depth that `validate` accepts. -/
def scan (root : Root) (checksum : Bool) : FsM Scan := do
  let result : Scan := ⟨⟨[]⟩, []⟩
  if ¬ (← root.exists? "") then return result
  let result ← walk root checksum 130 "" result
  let stamp := Stamp.of (← root.metadata "")
  let result : Scan :=
    ⟨⟨result.manifest.entries.insertionSort fun a b => a.path.utf8 ≤ b.path.utf8⟩,
      ("", stamp) :: result.stamps⟩
  result.manifest.validate checksum
  pure result

end

/-! ### Planning -/

/-- `Options`. -/
structure Options where
  delete : Bool
  checksum : Bool
  dryRun : Bool
  deriving DecidableEq, Repr

/-- `Action`. -/
inductive Action where
  | skip | mkdir | create | update | delete
  deriving DecidableEq, Repr

/-- `Operation`, one line of the printed plan. -/
structure Operation where
  action : Action
  path : String
  deriving DecidableEq, Repr

/-- `Plan`: the operations are printed, the rest is carried out. -/
structure Plan where
  operations : List Operation
  files : List Nat
  directories : List Nat
  removals : List Entry
  conflicts : List (String × List Entry)
  deriving DecidableEq

/-- `plan.conflicts.get(path)`. -/
def Plan.conflict? (p : Plan) (path : String) : Option (List Entry) := p.conflicts.lookup path

/-- `below` on strings. -/
def below (path ancestor : String) : Bool := Below path.utf8 ancestor.utf8

/-- The paths of the protected entries of both manifests. -/
def guardedPaths (source destination : Manifest) : List String :=
  ((source.entries ++ destination.entries).filter fun e => e.kind = .guarded).map Entry.path

/-- The destination file has the content and the time of the source file already, as far as
the manifests tell. -/
def sameFile (options : Options) (e x : Entry) : Bool :=
  x.kind = .file && x.size = e.size && x.mtime = e.mtime && x.ns = e.ns
    && (!options.checksum || x.hash = e.hash)

/-- The treatment of a type conflict between the entry `e` and the old entry of its path. -/
def planConflict (destination : Manifest) (options : Options) (guarded : List String) (p : Plan)
    (e old : Entry) : Except Error Plan := do
  if old.kind = e.kind then return p
  if ¬ options.delete then
    throw (.protocol ("type conflict at " ++ e.path ++ "; requires --delete"))
  if guarded.any fun s => below s e.path then
    throw (.protocol ("type conflict contains protected object: " ++ e.path))
  let conflicts := destination.entries.filter fun x => below x.path e.path
  pure { p with conflicts := p.conflicts ++ [(e.path, conflicts.reverse)] }

/-- The body of the first loop of `plan`. -/
def planEntry (destination : Manifest) (options : Options) (guarded : List String) (p : Plan)
    (e : Entry) (index : Nat) : Except Error Plan := do
  -- an entry at or below a guarded one is left alone
  if guarded.any fun s => below e.path s then
    return { p with operations := p.operations ++ [⟨.skip, e.path⟩] }
  -- what is in its place decides whether there is a type conflict
  let old := destination.get? e.path
  let p ← match old with
    | some old => planConflict destination options guarded p e old
    | none => pure p
  match e.kind with
  | .directory =>
    let action := if old.any fun x => x.kind = .directory then .skip else .mkdir
    pure { p with directories := p.directories ++ [index]
                  operations := p.operations ++ [⟨action, e.path⟩] }
  | .file =>
    if old.any (sameFile options e) then
      pure { p with operations := p.operations ++ [⟨.skip, e.path⟩] }
    else
      let action := if old.isSome then .update else .create
      pure { p with files := p.files ++ [index]
                    operations := p.operations ++ [⟨action, e.path⟩] }
  | .guarded => pure { p with operations := p.operations ++ [⟨.skip, e.path⟩] }

/-- The condition under which the second loop of `plan` keeps an entry. -/
def keeps (source : Manifest) (guarded : List String) (p : Plan) (e : Entry) : Bool :=
  (source.get? e.path).isSome
    || guarded.any (fun s => below e.path s || below s e.path)
    || p.conflicts.any fun s => below e.path s.1

/-- `plan`: both manifests are checked, then the source decides what is made and the destination
what is removed. -/
def plan (source destination : Manifest) (options : Options) : Except Error Plan := do
  source.validate options.checksum
  destination.validate options.checksum
  let guarded := guardedPaths source destination
  let p ← source.entries.zipIdx.foldlM
    (fun p e => planEntry destination options guarded p e.1 e.2) ⟨[], [], [], [], []⟩
  if options.delete then
    let removals := destination.entries.reverse.filter fun e => ¬ keeps source guarded p e
    pure { p with removals := removals
                  operations := p.operations ++ removals.map fun e => ⟨.delete, e.path⟩ }
  else pure p

/-! ### Runs -/

/-- `ensure_unchanged`. -/
def ensureUnchanged (root : Root) (path : String) (stamp : Stamp) : FsM Unit := do
  if Stamp.of (← root.metadata path) ≠ stamp then throw (.changed path)

/-- The condition `valid` of `check_entry`. -/
def Entry.accepts (entry : Entry) (m : Metadata) : Bool :=
  match entry.kind with
  | .file => m.isFile && m.len = entry.size && m.mtime.sec = entry.mtime && m.mtime.ns = entry.ns
  | .directory => m.isDir
  | .guarded => false

/-- `check_entry`: what is there must still be what was scanned. -/
def checkEntry (root : Root) (entry : Entry) : FsM Unit := do
  let m ← root.metadata entry.path
  if !entry.accepts m then throw (.changed entry.path)

/-- Remove the old objects of a type conflict. -/
def clearConflict (root : Root) (plan : Plan) (path : String) : FsM Unit :=
  match plan.conflict? path with
  | some entries => entries.forM fun old => do
      checkEntry root old
      root.remove old.path (old.kind = .directory)
  | none => pure ()

/-- `prepare`: directories are made in the order of the source, each after the conflict in its place
is cleared. -/
def prepare (root : Root) (source : Manifest) (plan : Plan) : FsM Unit := do
  root.mkdir ""
  plan.directories.forM fun i => do
    let e ← index source.entries i "source.entries"
    clearConflict root plan e.path
    root.mkdir e.path

/-- `install`: the content is staged and verified first; then the old object is checked and a
conflict in its place cleared; the rename comes last. -/
def install [Sha256] (root : Root) (source : Entry) (destination : Manifest) (plan : Plan)
    (file : Bytes) : FsM Unit := do
  let staged ← root.stage source.path (reads file) source.size source.hash source.mtime source.ns
  staged.scope do
    match destination.get? source.path with
    | some old => checkEntry root old
    | none => if ← root.exists? source.path then throw (.changed source.path)
    clearConflict root plan source.path
    staged.commit

/-- `install` with a reader that may fail. -/
def installFrom [Sha256] (root : Root) (source : Entry) (destination : Manifest) (plan : Plan)
    (reader : Reading) : FsM Unit := do
  let staged ← root.stageFrom source.path reader source.size source.hash
    (some (source.mtime, source.ns))
  staged.scope do
    match destination.get? source.path with
    | some old => checkEntry root old
    | none => if ← root.exists? source.path then throw (.changed source.path)
    clearConflict root plan source.path
    staged.commit

/-- A reader that does not fail. -/
theorem installFrom_reads [Sha256] (root : Root) (source : Entry) (destination : Manifest)
    (plan : Plan) (file : Bytes) : installFrom root source destination plan ⟨reads file, none⟩
      = install root source destination plan file := rfl

/-- `finish`: all removals are checked, then done, and the times of the directories are set from the
deepest up. -/
def finish (root : Root) (source : Manifest) (plan : Plan) : FsM Unit := do
  -- Preflight all removals before the first unlink. Never follow symlinks.
  plan.removals.forM fun old => checkEntry root old
  plan.removals.forM fun old => root.remove old.path (old.kind = .directory)
  plan.directories.reverse.forM fun i => do
    let e ← index source.entries i "source.entries"
    root.setMtime e.path e.mtime e.ns

end RrSync

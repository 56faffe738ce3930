import Mathlib.Data.List.AList
import RrSync.Lib.Prog
import RrSync.Model.Basic

/-!
# `RrSync.Model.Disk`: the file system below the program

A `Tree` holds the objects under one open directory, by path. Its fields say what every
file system guarantees: the root and the parent of every object are directories, and every
path is made of names. A `Disk` is a tree with the one staged temporary file that can be
alive, a tick that counts the calls that may change something, and an environment that
decides which of these calls fail and what times they write.

`FsCall` lists the system calls the program makes and `exec` says what each of them does.
The staged temporary is kept apart from the tree: it has a fresh random name, no call but
its own refers to it, and it disappears when it is dropped.
-/

set_option autoImplicit false

namespace RrSync

open Lib

/-! ### Objects -/

/-- A file time. The kernel keeps the nanoseconds below one second. -/
structure Time where
  sec : Int64
  ns : UInt32
  valid : ns < 1000000000
  deriving DecidableEq

/-- The epoch is a time. -/
theorem Time.zero_valid : (0 : UInt32) < 1000000000 := by decide

/-- What is at a path. -/
inductive Body where
  | file (data : Bytes)
  | directory
  | symlink
  | special
  deriving DecidableEq

/-- An object of the tree. `tag` stands for the parts of a stamp that the program only
compares: device, inode and change time. -/
structure Node where
  body : Body
  mtime : Time
  tag : Nat
  deriving DecidableEq

/-- What `Metadata::file_type` tells. -/
inductive FileType where
  | file | directory | symlink | special
  deriving DecidableEq

/-- The type of an object. -/
def Body.type : Body → FileType
  | .file _ => .file
  | .directory => .directory
  | .symlink => .symlink
  | .special => .special

/-- `Metadata::len`. Only a regular file has a length that the program looks at. -/
def Body.len : Body → Nat
  | .file data => data.length
  | _ => 0

/-- What can be read from an object. -/
def Body.data : Body → Bytes
  | .file data => data
  | _ => []

/-- `std::fs::Metadata`, as far as the program reads it. -/
structure Metadata where
  type : FileType
  len : Nat
  mtime : Time
  tag : Nat
  deriving DecidableEq

/-- `Metadata::is_file`. -/
def Metadata.isFile (m : Metadata) : Bool := m.type = .file

/-- `Metadata::is_dir`. -/
def Metadata.isDir (m : Metadata) : Bool := m.type = .directory

/-- The metadata of an object. -/
def Node.metadata (n : Node) : Metadata := ⟨n.body.type, n.body.len, n.mtime, n.tag⟩

/-- `fs::Stamp`. -/
structure Stamp where
  size : Nat
  mtime : Time
  tag : Nat
  deriving DecidableEq

/-- `Stamp::of`. -/
def Stamp.of (m : Metadata) : Stamp := ⟨m.len, m.mtime, m.tag⟩

/-! ### Trees -/

/-- The objects under an open directory. -/
structure Tree where
  nodes : AList fun _ : Path => Node
  root : ∃ n, nodes.lookup [] = some n ∧ n.body = .directory
  parent : ∀ p n, p ≠ [] → nodes.lookup p = some n →
    ∃ d, nodes.lookup (dirName p) = some d ∧ d.body = .directory
  clean : ∀ p n, p ≠ [] → nodes.lookup p = some n → CleanPath p

namespace Tree

variable (t : Tree)

/-- The object at a path. -/
def get (p : Path) : Option Node := t.nodes.lookup p

/-- There is a directory at the path. -/
def IsDir (p : Path) : Prop := ∃ n, t.get p = some n ∧ n.body = .directory

/-- Nothing lies in the directory `p`. -/
def Leaf (p : Path) : Prop := ∀ q ∈ t.nodes.keys, q ≠ [] → dirName q ≠ p

instance (p : Path) : Decidable (t.IsDir p) :=
  decidable_of_iff ((t.get p).map Node.body = some .directory) (by
    simp [IsDir, Option.map_eq_some_iff])

instance (p : Path) : Decidable (t.Leaf p) := inferInstanceAs (Decidable (∀ _ ∈ _, _))

/-- The object `n` may be put at `p`. -/
def Fits (p : Path) (n : Node) : Prop :=
  CleanPath p ∧ t.IsDir (dirName p) ∧ (n.body = .directory ∨ t.Leaf p)

instance (p : Path) (n : Node) : Decidable (t.Fits p n) :=
  inferInstanceAs (Decidable ((∀ c ∈ _, NameOk c) ∧ _))

variable {t}

/-- The paths of a tree are those with an object. -/
theorem mem_keys {p : Path} : p ∈ t.nodes.keys ↔ ∃ n, t.get p = some n := by
  rw [← AList.mem_keys, ← AList.lookup_isSome, Option.isSome_iff_exists]
  rfl

/-- The root of a tree is a directory. -/
theorem isDir_root : t.IsDir [] := t.root

/-- The parent of an object is a directory. -/
theorem isDir_dirName {p : Path} {n : Node} (hp : p ≠ []) (h : t.get p = some n) :
    t.IsDir (dirName p) := t.parent p n hp h

/-- Only the root and clean paths have objects. -/
theorem cleanPath {p : Path} {n : Node} (hp : p ≠ []) (h : t.get p = some n) : CleanPath p :=
  t.clean p n hp h

/-- Nothing lies directly below a leaf. -/
theorem leaf_iff {p : Path} :
    t.Leaf p ↔ ∀ q n, q ≠ [] → t.get q = some n → dirName q ≠ p := by
  constructor
  · intro h q n hq hn
    exact h q (mem_keys.mpr ⟨n, hn⟩) hq
  · intro h q hq hne
    obtain ⟨n, hn⟩ := mem_keys.mp hq
    exact h q n hne hn

/-- Only a directory has something in it. -/
theorem leaf_of_not_isDir {p : Path} (h : ¬ t.IsDir p) : t.Leaf p := by
  rw [leaf_iff]
  rintro q n hq hn rfl
  exact h (isDir_dirName hq hn)

/-! ### Changes of a tree -/

/-- The tree with the object `n` at `p`. -/
def put (t : Tree) (p : Path) (n : Node) (h : t.Fits p n) : Tree where
  nodes := t.nodes.insert p n
  root := by
    obtain ⟨hp, -, -⟩ := h
    rw [AList.lookup_insert_ne (Ne.symm hp.ne_nil)]
    exact t.root
  parent := by
    intro q m hq hm
    obtain ⟨hp, hd, hk⟩ := h
    -- the parent of every object is a directory: that of the new one by `Fits`
    have hdir : t.IsDir (dirName q) := by
      by_cases hqp : q = p
      · exact hqp ▸ hd
      · rw [AList.lookup_insert_ne hqp] at hm
        exact isDir_dirName hq hm
    by_cases hdp : dirName q = p
    · refine ⟨n, by rw [hdp, AList.lookup_insert], ?_⟩
      rcases hk with hk | hk
      · exact hk
      · -- A leaf has no child `q`, unless `q` is the new object, which is not its own parent.
        by_cases hqp : q = p
        · exact absurd (hdp.trans hqp.symm) (SepPath.dirName_ne hq)
        · rw [AList.lookup_insert_ne hqp] at hm
          exact absurd hdp (leaf_iff.mp hk q m hq hm)
    · obtain ⟨d, hd, hb⟩ := hdir
      exact ⟨d, by rw [AList.lookup_insert_ne hdp]; exact hd, hb⟩
  clean := by
    intro q m hq hm
    by_cases hqp : q = p
    · exact hqp ▸ h.1
    · rw [AList.lookup_insert_ne hqp] at hm
      exact t.clean q m hq hm

/-- After a change, the new object is at its path and nothing else is different. -/
theorem get_put (t : Tree) {p : Path} {n : Node} (h : t.Fits p n) (q : Path) :
    (t.put p n h).get q = if q = p then some n else t.get q := by
  by_cases hq : q = p
  · subst hq
    rw [if_pos rfl]
    exact AList.lookup_insert _
  · rw [if_neg hq]
    exact AList.lookup_insert_ne hq

/-- The tree without the object at `p`. -/
def remove (t : Tree) (p : Path) (h : p ≠ [] ∧ t.Leaf p) : Tree where
  nodes := t.nodes.erase p
  root := by
    rw [AList.lookup_erase_ne (Ne.symm h.1)]
    exact t.root
  -- nothing that stays loses its parent, since only a leaf is removed
  parent := by
    intro q m hq hm
    have hqp : q ≠ p := by
      rintro rfl
      rw [AList.lookup_erase] at hm
      exact absurd hm (by simp)
    rw [AList.lookup_erase_ne hqp] at hm
    rw [AList.lookup_erase_ne (leaf_iff.mp h.2 q m hq hm)]
    exact t.parent q m hq hm
  clean := by
    intro q m hq hm
    have hqp : q ≠ p := by
      rintro rfl
      rw [AList.lookup_erase] at hm
      exact absurd hm (by simp)
    rw [AList.lookup_erase_ne hqp] at hm
    exact t.clean q m hq hm

/-- After a removal nothing is at the path and nothing else is different. -/
theorem get_remove (t : Tree) {p : Path} (h : p ≠ [] ∧ t.Leaf p) (q : Path) :
    (t.remove p h).get q = if q = p then none else t.get q := by
  by_cases hq : q = p
  · subst hq
    rw [if_pos rfl]
    exact AList.lookup_erase _ _
  · rw [if_neg hq]
    exact AList.lookup_erase_ne hq

/-- Write the time of the object at `p`, if there is one. -/
def stamp (t : Tree) (p : Path) (time : Time) (tag : Nat) : Tree :=
  match h : t.nodes.lookup p with
  | none => t
  | some n =>
    -- only the times differ: the same paths have the same bodies, before and after
    have key : ∀ q m, (t.nodes.insert p ⟨n.body, time, tag⟩).lookup q = some m →
        ∃ m', t.nodes.lookup q = some m' ∧ m'.body = m.body := by
      intro q m hm
      by_cases hq : q = p
      · subst hq
        rw [AList.lookup_insert] at hm
        exact ⟨n, h, by rw [← Option.some.inj hm]⟩
      · rw [AList.lookup_insert_ne hq] at hm
        exact ⟨m, hm, rfl⟩
    have back : ∀ q m, t.nodes.lookup q = some m →
        ∃ m', (t.nodes.insert p ⟨n.body, time, tag⟩).lookup q = some m' ∧ m'.body = m.body := by
      intro q m hm
      by_cases hq : q = p
      · subst hq
        exact ⟨_, AList.lookup_insert _, by rw [h] at hm; rw [← Option.some.inj hm]⟩
      · exact ⟨m, by rw [AList.lookup_insert_ne hq]; exact hm, rfl⟩
    { nodes := t.nodes.insert p ⟨n.body, time, tag⟩
      root := by
        obtain ⟨r, hr, hb⟩ := t.root
        obtain ⟨m, hm, hmb⟩ := back [] r hr
        exact ⟨m, hm, hmb.trans hb⟩
      parent := by
        intro q m hq hm
        obtain ⟨m', hm', -⟩ := key q m hm
        obtain ⟨d, hd, hb⟩ := t.parent q m' hq hm'
        obtain ⟨d', hd', hb'⟩ := back _ d hd
        exact ⟨d', hd', hb'.trans hb⟩
      clean := by
        intro q m hq hm
        obtain ⟨m', hm', -⟩ := key q m hm
        exact t.clean q m' hq hm' }

/-- After a change of times the object has the same body and nothing else is different. -/
theorem get_stamp (t : Tree) (p : Path) (time : Time) (tag : Nat) (q : Path) :
    (t.stamp p time tag).get q
      = if q = p then (t.get p).map fun n => ⟨n.body, time, tag⟩ else t.get q := by
  unfold stamp
  -- Without an object there is nothing to stamp.
  split
  · next h =>
    by_cases hq : q = p
    · subst hq
      rw [if_pos rfl]
      show t.nodes.lookup q = Option.map _ (t.nodes.lookup q)
      rw [h]
      rfl
    · rw [if_neg hq]
  · next n h =>
    by_cases hq : q = p
    · subst hq
      rw [if_pos rfl]
      show AList.lookup q (AList.insert q _ _) = Option.map _ (t.nodes.lookup q)
      rw [AList.lookup_insert, h]
      rfl
    · rw [if_neg hq]
      exact AList.lookup_insert_ne hq

/-- A change of times makes and removes no directory. -/
theorem isDir_stamp {p q : Path} {time : Time} {tag : Nat} :
    (t.stamp p time tag).IsDir q ↔ t.IsDir q := by
  unfold IsDir
  rw [get_stamp]
  by_cases hq : q = p
  · subst hq
    cases h : t.get q <;> simp
  · rw [if_neg hq]

/-! ### Looking up paths -/

/-- The error of a path that does not exist: it is decided by the nearest ancestor that
does. The bound `k` is on the number of ancestors. -/
def missing (t : Tree) : Nat → Path → Errno
  | 0, _ => .noent
  | k + 1, p => match t.get (dirName p) with
    | none => t.missing k (dirName p)
    | some n => match n.body with
      | .directory => .noent
      | .symlink => .symlinkLoop
      | _ => .notDir

/-- The object at a path, or the error of opening it. -/
def find (t : Tree) (p : Path) : Except Errno Node :=
  match t.get p with
  | some n => .ok n
  | none => .error (t.missing p.length p)

/-- Open a directory without following symbolic links. A symbolic link at the end of the path
is no directory; one on the way is a loop, which `find` says. -/
def openDir (t : Tree) (p : Path) : Except Errno Unit := do
  let n ← t.find p
  if n.body = .directory then pure () else throw .notDir

/-- The names in a directory, in the order of the file system, and what they name. -/
def entries (t : Tree) (d : Path) : List ({n : Path // NameOk n} × Metadata) :=
  t.nodes.keys.filterMap fun p =>
    if hp : p ≠ [] ∧ dirName p = d then
      match h : t.nodes.lookup p with
      | some n => some (⟨baseName p, (t.clean p n hp.1 h).baseName⟩, n.metadata)
      | none => none
    else none

/-- The entry of `entries` for the path `q`. -/
def entry (t : Tree) (d q : Path) : Option ({n : Path // NameOk n} × Metadata) :=
  if hp : q ≠ [] ∧ dirName q = d then
    match h : t.nodes.lookup q with
    | some n => some (⟨baseName q, (t.clean q n hp.1 h).baseName⟩, n.metadata)
    | none => none
  else none

/-- The entries of a directory, as the objects that have it as parent. -/
theorem entries_eq {d : Path} : t.entries d = t.nodes.keys.filterMap (t.entry d) := rfl

/-- A path is found exactly when something is there. -/
theorem find_ok {p : Path} {n : Node} : t.find p = .ok n ↔ t.get p = some n := by
  unfold find
  cases t.get p <;> simp

/-- A path opens as a directory exactly when it is one. -/
theorem openDir_ok {p : Path} {u : Unit} : t.openDir p = .ok u ↔ t.IsDir p := by
  unfold openDir IsDir
  cases h : t.get p with
  | none => simp [find, h, bind, Except.bind]
  | some n =>
    rw [find_ok.mpr h]
    by_cases hb : n.body = .directory <;>
      simp [bind, Except.bind, pure, Except.pure, throw, throwThe, MonadExceptOf.throw, hb]

/-- Under a directory, what does not exist is reported as not found. -/
theorem find_noent {p : Path} (hp : p ≠ []) (hd : t.IsDir (dirName p)) (h : t.get p = none) :
    t.find p = .error .noent := by
  obtain ⟨d, hd, hb⟩ := hd
  obtain ⟨k, hk⟩ : ∃ k, p.length = k + 1 :=
    Nat.exists_eq_succ_of_ne_zero (by simpa using hp)
  unfold find
  simp only [h, hk, missing, hd, hb]

end Tree

/-! ### Disks -/

/-- What the program does not control: the calls that fail, the times that changes write,
the clock in seconds. All are indexed by the tick. -/
structure Env where
  fault : Nat → Bool
  clock : Nat → Time
  seconds : Nat → Option Nat

/-- The staged temporary file in the directory `dir`. -/
structure Temp where
  dir : Path
  data : Bytes
  mtime : Time

/-- The places where the server runs a step of the synchronization. -/
inductive Mark where
  | prepare
  | install (index : Nat) (file : Bytes)
  | finish
  deriving DecidableEq

/-- A disk: the tree, the one temporary file that may be staged, the number of calls that may have
changed something, what the environment does at each of them, and the marks the program has left.
The journal is not part of the program; it only lets a statement name the moment of a call. -/
structure Disk where
  tree : Tree
  temp : Option Temp
  tick : Nat
  env : Env
  journal : List Mark

/-- The system calls of the program. A directory `d` has been opened before a call names
something in it. `mark` is no system call: it records in the journal that a step of the
synchronization starts. -/
inductive FsCall where
  | stat (p : Path)
  | openDir (p : Path)
  | openFile (p : Path)
  | readDir (p : Path)
  | mkdir (d n : Path)
  | unlink (d n : Path)
  | rmdir (d n : Path)
  | sync (d : Path)
  | createTemp (d : Path)
  | write (data : Bytes)
  | setTempTime (time : Time)
  | syncTemp
  | rename (d n : Path)
  | dropTemp (d : Path)
  | utimens (p : Path) (time : Time)
  | openLock (p : Path)
  | flock (p : Path) (shared : Bool)
  | seconds
  | mark (m : Mark)

/-- What each call returns. -/
def FsCall.Reply : FsCall → Type
  | .stat _ => Except Errno Metadata
  | .openFile _ => Except Errno (Metadata × Bytes)
  | .readDir _ => Except Errno (List ({n : Path // NameOk n} × Metadata))
  | .openLock _ => Except Errno Metadata
  | .seconds => Option Nat
  | .mark _ => Unit
  | _ => Except Errno Unit

/-- The calls of the program and their replies. -/
abbrev FsSig : Sig := ⟨FsCall, FsCall.Reply⟩

namespace Disk

/-- The time a change writes now. -/
def now (w : Disk) : Time := w.env.clock w.tick

/-- A call that may change something: it fails without an effect when the environment says
so, and else does `f`. -/
def attempt {α : Type} (w : Disk) (f : Disk → Except Errno (α × Disk)) : Except Errno α × Disk :=
  let w' := { w with tick := w.tick + 1 }
  if w.env.fault w.tick then (.error .io, w') else
    match f w' with
    | .ok (a, w'') => (.ok a, w'')
    | .error e => (.error e, w')

/-- The change of the directory `d` by a change of its entries. -/
def touchDir (w : Disk) (t : Tree) (d : Path) : Disk :=
  { w with tree := t.stamp d w.now w.tick }

/-- `mkdirat`: the directory must have room for the name. -/
def mkdir (d n : Path) (w : Disk) : Except Errno (Unit × Disk) := do
  w.tree.openDir d
  let node : Node := ⟨.directory, w.now, w.tick⟩
  if (w.tree.get (join d n)).isSome then throw .exist
  if h : w.tree.Fits (join d n) node then
    pure ((), w.touchDir (w.tree.put (join d n) node h) d)
  else throw .inval

/-- `unlinkat` without `REMOVEDIR`: anything but a directory goes away. -/
def unlink (d n : Path) (w : Disk) : Except Errno (Unit × Disk) := do
  w.tree.openDir d
  let node ← w.tree.find (join d n)
  if node.body = .directory then throw .isDir
  if h : join d n ≠ [] ∧ w.tree.Leaf (join d n) then
    pure ((), w.touchDir (w.tree.remove (join d n) h) d)
  else throw .inval

/-- `unlinkat` with `REMOVEDIR`: a directory goes away when it is empty. A staged file in it counts,
although it is not part of the tree. -/
def rmdir (d n : Path) (w : Disk) : Except Errno (Unit × Disk) := do
  w.tree.openDir d
  let node ← w.tree.find (join d n)
  if node.body ≠ .directory then throw .notDir
  if (w.temp.map Temp.dir) = some (join d n) then throw .notEmpty
  if h : join d n ≠ [] ∧ w.tree.Leaf (join d n) then
    pure ((), w.touchDir (w.tree.remove (join d n) h) d)
  else throw .notEmpty

/-- `tempfile_in`: an empty file under a name that nothing else uses. -/
def createTemp (d : Path) (w : Disk) : Except Errno (Unit × Disk) := do
  w.tree.openDir d
  pure ((), { w.touchDir w.tree d with temp := some ⟨d, [], w.now⟩ })

/-- `write_all` to the staged file. -/
def write (data : Bytes) (w : Disk) : Except Errno (Unit × Disk) :=
  match w.temp with
  | none => throw .io
  | some temp => pure ((), { w with temp := some { temp with data := temp.data ++ data,
                                                             mtime := w.now } })

/-- `futimens` on the staged file. The time is stored exactly. -/
def setTempTime (time : Time) (w : Disk) : Except Errno (Unit × Disk) :=
  match w.temp with
  | none => throw .io
  | some temp => pure ((), { w with temp := some { temp with mtime := time } })

/-- Rename the staged temporary of `d` to the name `n`. A file that is there is replaced. -/
def rename (d n : Path) (w : Disk) : Except Errno (Unit × Disk) :=
  match w.temp with
  | none => throw .noent
  | some temp => do
    w.tree.openDir d
    if temp.dir ≠ d then throw .noent
    if w.tree.IsDir (join d n) then throw .isDir
    let node : Node := ⟨.file temp.data, temp.mtime, w.tick⟩
    if h : w.tree.Fits (join d n) node then
      pure ((), { w.touchDir (w.tree.put (join d n) node h) d with temp := none })
    else throw .inval

/-- `utimensat` on an opened object. -/
def utimens (p : Path) (time : Time) (w : Disk) : Except Errno (Unit × Disk) := do
  let node ← w.tree.find p
  if node.body = .symlink then throw .symlinkLoop
  pure ((), { w with tree := w.tree.stamp p time w.tick })

/-- Open a lock file for reading and writing, and create it empty when there is none. A
directory cannot be opened for writing. -/
def openLock (p : Path) (w : Disk) : Except Errno (Metadata × Disk) :=
  match w.tree.get p with
  | some node =>
    if node.body = .symlink then throw .symlinkLoop
    else if node.body = .directory then throw .isDir
    else pure (node.metadata, w)
  | none =>
    let node : Node := ⟨.file [], w.now, w.tick⟩
    if h : w.tree.Fits p node then
      pure (node.metadata, w.touchDir (w.tree.put p node h) (dirName p))
    else throw (w.tree.missing p.length p)

/-- The staged temporary goes away. This never fails. -/
def dropTemp (d : Path) (w : Disk) : Disk :=
  match w.temp with
  | none => w
  | some _ => { w.touchDir w.tree d with temp := none, tick := w.tick + 1 }

end Disk

/-- A tree of one root has nothing else. -/
theorem Tree.lookup_singleton {p : Path} {n : Node} (hp : p ≠ []) :
    AList.lookup p (AList.singleton [] n : AList fun _ : Path => Node) = none := by
  show List.dlookup p [(⟨[], n⟩ : Sigma fun _ : Path => Node)] = none
  rw [List.dlookup_cons_ne _ _ hp, List.dlookup_nil]

/-- The tree of an empty directory. -/
def Tree.empty (time : Time) : Tree where
  nodes := AList.singleton [] ⟨.directory, time, 0⟩
  root := ⟨_, rfl, rfl⟩
  parent := by
    intro p n hp h
    rw [Tree.lookup_singleton hp] at h
    cases h
  clean := by
    intro p n hp h
    rw [Tree.lookup_singleton hp] at h
    cases h

/-- An empty tree has nothing but its root. -/
theorem Tree.get_empty {time : Time} {p : Path} (hp : p ≠ []) :
    (Tree.empty time).get p = none := Tree.lookup_singleton hp

/-- An empty directory on which no call fails. -/
def Disk.empty : Disk where
  tree := .empty ⟨0, 0, Time.zero_valid⟩
  temp := none
  tick := 0
  env := ⟨fun _ => false, fun _ => ⟨0, 0, Time.zero_valid⟩, fun _ => some 0⟩
  journal := []

/-- What the system calls do. -/
def exec : Prog.Handler FsSig Disk
  | .stat p, w => ((w.tree.find p).map Node.metadata, w)
  | .openDir p, w => (w.tree.openDir p, w)
  | .openFile p, w => ((do
      let n ← w.tree.find p
      if n.body = .symlink then throw .symlinkLoop
      pure (n.metadata, n.body.data)), w)
  | .readDir p, w => ((do w.tree.openDir p; pure (w.tree.entries p)), w)
  | .mkdir d n, w => w.attempt (Disk.mkdir d n)
  | .unlink d n, w => w.attempt (Disk.unlink d n)
  | .rmdir d n, w => w.attempt (Disk.rmdir d n)
  | .sync _, w => w.attempt fun w => pure ((), w)
  | .createTemp d, w => w.attempt (Disk.createTemp d)
  | .write data, w => w.attempt (Disk.write data)
  | .setTempTime time, w => w.attempt (Disk.setTempTime time)
  | .syncTemp, w => w.attempt fun w => pure ((), w)
  | .rename d n, w => w.attempt (Disk.rename d n)
  | .dropTemp d, w => (.ok (), w.dropTemp d)
  | .utimens p time, w => w.attempt (Disk.utimens p time)
  | .openLock p, w => w.attempt (Disk.openLock p)
  | .flock _ _, w => w.attempt fun w => pure ((), w)
  | .seconds, w => (w.env.seconds w.tick, { w with tick := w.tick + 1 })
  | .mark m, w => ((), { w with journal := w.journal ++ [m] })

end RrSync

import RrSync.Proofs.Guarded
import RrSync.Proofs.Ops

/-!
# `RrSync.Spec.Goal`: what a synchronization is for

`Mirrors` says that a manifest describes a tree, and `goal` is the view a run of a plan has
to reach: what the source has, where it is not protected; without the old objects that the
plan drops; and everything else as it was. Neither mentions an order of operations.

`progress` is a view on the way: the paths of `done` are as in the goal already, all others
are as at the start. `Reach` says of a view that it is on the way and ahead at the paths of
`done` at most; the paths of `mid` may be gone until the object that replaces them is there.
-/

set_option autoImplicit false

namespace RrSync

open Lib

/-! ### Manifests and trees -/

/-- The entry describes the object, with the hash of a file when checksums are asked for. -/
structure Entry.Describes [Sha256] (checksum : Bool) (e : Entry) (n : Node) : Prop where
  kind : e.kind = kindOf e.path n.metadata
  size : e.size = if e.kind = .file then n.body.len else 0
  mtime : e.mtime = n.mtime.sec
  ns : e.ns = n.mtime.ns
  hash : e.kind = .file → checksum = true → e.hash = some (digest n.body.data)

/-- No directory above the path, below the root, has a reserved name: a scan gets there. -/
def Visible (q : Path) : Prop := ∀ a, Below q a → a ≠ q → reserved (baseName a) = false

/-- The manifest lists the objects of the tree under the root, and nothing else. -/
structure Mirrors [Sha256] (checksum : Bool) (root : Root) (m : Manifest) (t : Tree) : Prop where
  entry : ∀ e ∈ m.entries, ∃ n, t.get (root.pathOf e.path) = some n ∧ e.Describes checksum n
  object : ∀ q n, q ≠ [] → t.get (join root.base.utf8 q) = some n → Visible q →
    ∃ e ∈ m.entries, e.path.utf8 = q

/-- Nothing but directories is on the way to the root. -/
def Root.Clear (root : Root) (t : Tree) : Prop :=
  ∀ q, q ≠ [] → Below (root.pathOf "") q → t.get q = none ∨ t.IsDir q

/-- The time of an entry whose nanoseconds are valid. -/
def Entry.time (e : Entry) : Time :=
  if h : e.ns < 1000000000 then ⟨e.mtime, e.ns, h⟩ else ⟨e.mtime, 0, Time.zero_valid⟩

/-! ### The goal -/

section
variable (root : Root) (source destination : Manifest) (options : Options)
  (contents : Entry → Bytes)

/-- The plan drops the destination entry: it removes it, or a type conflict does. -/
def dropsEntry (x : Entry) : Bool :=
  options.delete && removes source destination x
    || source.entries.any fun c =>
      clashes destination (guardedPaths source destination) c && below x.path c.path

/-- The view that a run of the plan reaches from the view `v`. -/
def goal (v : View) : View := fun q =>
  if q ≠ [] ∧ Below (root.pathOf "") q then some Core.dir
  else match source.entries.find? fun e => root.pathOf e.path = q with
    | some e =>
      if makes (guardedPaths source destination) e then some Core.dir
      else if transfers destination options (guardedPaths source destination) e then
        some (Core.file (contents e) e.time)
      else v q
    | none =>
      if destination.entries.any fun x => root.pathOf x.path = q
          && dropsEntry source destination options x then none
      else v q

end

open Classical in
/-- The view with the paths of `done` as in the goal `g`. -/
noncomputable def progress (v g : View) (done : Path → Prop) : View := fun q =>
  if done q then g q else v q

/-- Each path is as at the start, or as in the goal, which only paths of `done` are, or gone,
which only paths of type conflicts are. -/
def Reach (v g : View) (done mid : Path → Prop) (u : View) : Prop :=
  ∀ q, u q = v q ∨ done q ∧ u q = g q ∨ mid q ∧ u q = none

section
variable {v g u : View} {done done' mid mid' : Path → Prop}

/-- Where the work is done, the progress is the goal. -/
theorem progress_done {q : Path} (h : done q) : progress v g done q = g q := if_pos h

/-- Where it is not, the progress is the start. -/
theorem progress_start {q : Path} (h : ¬ done q) : progress v g done q = v q := if_neg h

/-- Less progress can be reached. -/
theorem reach_progress (h : ∀ q, done' q → done q) :
    Reach v g done mid (progress v g done') := by
  intro q
  unfold progress
  split
  · next hq => exact Or.inr (Or.inl ⟨h q hq, rfl⟩)
  · exact Or.inl rfl

/-- More may be done, and more may be under way. -/
theorem Reach.mono (h : Reach v g done mid u) (hd : ∀ q, done q → done' q)
    (hm : ∀ q, mid q → mid' q) : Reach v g done' mid' u := by
  intro q
  rcases h q with h | ⟨h1, h2⟩ | ⟨h1, h2⟩
  · exact Or.inl h
  · exact Or.inr (Or.inl ⟨hd q h1, h2⟩)
  · exact Or.inr (Or.inr ⟨hm q h1, h2⟩)

end

/-! ### Entries and what they describe -/

/-- Only a regular file is listed as a file. -/
theorem kindOf_eq_file {path : String} {m : Metadata} (h : kindOf path m = .file) :
    m.type = .file := by
  unfold kindOf at h
  split at h
  · cases h
  · split at h
    · next hf => simpa [Metadata.isFile] using hf
    · split at h <;> cases h

/-- Only a directory is listed as a directory. -/
theorem kindOf_eq_directory {path : String} {m : Metadata} (h : kindOf path m = .directory) :
    m.type = .directory := by
  unfold kindOf at h
  split at h
  · cases h
  · split at h
    · cases h
    · split at h
      · next hd => simpa [Metadata.isDir] using hd
      · cases h

/-- An object of the type of a file has a content. -/
theorem body_of_type_file {b : Body} (h : b.type = .file) : ∃ data, b = .file data := by
  cases b with
  | file data => exact ⟨data, rfl⟩
  | _ => cases h

/-- An object of the type of a directory is a directory. -/
theorem body_of_type_directory {b : Body} (h : b.type = .directory) : b = .directory := by
  cases b with
  | directory => rfl
  | _ => cases h

section
variable [Sha256] {checksum : Bool} {e : Entry} {n : Node}

/-- An object that a directory entry describes looks like a directory. -/
theorem Entry.Describes.directory (h : e.Describes checksum n) (hk : e.kind = .directory) :
    n.core = Core.dir := by
  refine Node.core_eq_dir.mpr (body_of_type_directory ?_)
  exact kindOf_eq_directory (h.kind.symm.trans hk)

/-- An object that a file entry describes has the size of the entry. -/
theorem Entry.Describes.file (h : e.Describes checksum n) (hk : e.kind = .file) :
    ∃ data, n.core = Core.file data n.mtime ∧ n.body = .file data ∧ data.length = e.size := by
  obtain ⟨data, hb⟩ := body_of_type_file (kindOf_eq_file (h.kind.symm.trans hk) : n.body.type = _)
  refine ⟨data, by simp [Node.core, Core.file, hb], hb, ?_⟩
  have := h.size
  rw [if_pos hk, hb] at this
  exact this.symm

/-- `check_entry` passes on an object that still has the core it was described by. -/
theorem Entry.Describes.accepts (h : e.Describes checksum n) (hk : e.kind ≠ .guarded) {n' : Node}
    (hn' : n'.core = n.core) : e.accepts n'.metadata = true := by
  unfold Entry.accepts
  cases hkind : e.kind with
  | guarded => exact absurd hkind hk
  | directory =>
    have hd := Node.core_eq_dir.mp (hn'.trans (h.directory hkind))
    simp [Metadata.isDir, Node.metadata, hd, Body.type]
  | file =>
    obtain ⟨data, hcore, -, hlen⟩ := h.file hkind
    rw [hcore] at hn'
    unfold Node.core Core.file at hn'
    obtain ⟨hb, ht⟩ := Prod.mk.inj hn'
    rw [if_neg (by rw [hb]; simp)] at ht
    -- the time is part of what a file looks like, so both have the time of the entry
    have htime := Option.some.inj ht
    simp [Metadata.isFile, Node.metadata, hb, Body.type, Body.len, hlen, htime, h.mtime, h.ns]

end

end RrSync

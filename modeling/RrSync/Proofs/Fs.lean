import RrSync.Model.Sync
import RrSync.Proofs.Disk

/-!
# `RrSync.Proofs.Fs`: the calls an operation of `Root` can make

Each operation has one lemma about every call it can issue. Operations that only look issue
`Reads`. For the others the lemma is about `Safe E`: the paths of the call are made of names
below the open directory (`FsCall.Rooted`), and what the call can do to an object is among
the effects `E` (`Within`). The lemma's hypotheses are the effects the operation needs.
-/

set_option autoImplicit false

namespace RrSync

open Lib

/-- The open directory itself, or a path of names below it. -/
def Rooted (p : Path) : Prop := p = [] ∨ CleanPath p

/-- Every path handed to the kernel is rooted. -/
def FsCall.Rooted : FsCall → Prop
  | .stat p | .openDir p | .openFile p | .readDir p | .sync p | .createTemp p | .dropTemp p
  | .utimens p _ | .openLock p | .flock p _ => RrSync.Rooted p
  | .mkdir d n | .unlink d n | .rmdir d n | .rename d n => RrSync.Rooted d ∧ NameOk n
  | .write _ | .setTempTime _ | .syncTemp | .seconds | .mark _ => True

/-- A call that looks at a rooted path. -/
def FsCall.Reads : FsCall → Prop
  | .stat p | .openDir p | .openFile p | .readDir p => RrSync.Rooted p
  | _ => False

/-- The changes that are allowed at a path. -/
abbrev Effect := Path → Option Node → Option Node → Prop

/-- All the call can do is among the effects `E`. -/
def FsCall.Within (E : Effect) (c : FsCall) : Prop := ∀ q old new, c.May q old new → E q old new

/-- The call is about paths that a root can name, and its effect is allowed. -/
def FsCall.Safe (E : Effect) (c : FsCall) : Prop := c.Rooted ∧ c.Within E

namespace Effect

variable (E : Effect)

/-- The time of the object at `p` may be written. -/
def Stamps (p : Path) : Prop := ∀ old new, Restamped old new → E p old new

/-- A directory may appear at `p`. -/
def Makes (p : Path) : Prop := ∀ n : Node, n.body = .directory → E p none (some n)

/-- The object at `p` may go away. -/
def Drops (p : Path) : Prop := ∀ n : Node, E p (some n) none

/-- A file may be put at `p` in the place of nothing or of something else than a
directory. -/
def Puts (p : Path) : Prop := ∀ (old : Option Node) (n : Node) (data : Bytes),
  (∀ m, old = some m → m.body ≠ .directory) → n.body = .file data → E p old (some n)

end Effect

/-- A call that reads is about such a path. -/
theorem FsCall.Reads.rooted {c : FsCall} (h : c.Reads) : c.Rooted := by
  cases c <;> first | exact h | exact h.elim

/-- A call that reads has no effect, so every effect allows it. -/
theorem FsCall.Reads.safe {c : FsCall} {E : Effect} (h : c.Reads) : c.Safe E := by
  refine ⟨h.rooted, fun q old new hm => ?_⟩
  cases c <;> first | exact hm.elim | exact h.elim

/-- A call that reads leaves the disk. -/
theorem FsCall.Reads.exec_snd {c : FsCall} (h : c.Reads) (w : Disk) : (exec c w).2 = w := by
  cases c <;> first | rfl | exact h.elim

/-- A program that only looks leaves the disk alone. -/
theorem quiet_of_reads {ε α : Type} {m : Prog FsSig ε α}
    (h : Prog.Issues (S := FsSig) FsCall.Reads m) : Prog.Quiet exec m :=
  (h.mono fun _ hc w => hc.exec_snd w).quiet

/-! ### Rooted paths -/

/-- A name below a directory is a clean path. -/
theorem Rooted.join_name {d n : Path} (hd : Rooted d) (hn : NameOk n) : CleanPath (join d n) := by
  have h1 : CleanPath n := (SepPath.clean_of_notMem hn.2.1).mpr hn
  rcases SepPath.Clean.join hd (Or.inr h1) with h | h
  · exact absurd (SepPath.join_eq_nil.mp h).2 hn.1
  · exact h

/-- The parent of a clean path is a path that a root can name. -/
theorem CleanPath.rooted_dirName {p : Path} (h : CleanPath p) : Rooted (dirName p) := by
  by_cases hp : slash ∈ p
  · exact Or.inr (SepPath.Clean.dirName hp h)
  · exact Or.inl ((SepPath.dirName_eq_nil not_nameOk_nil h).mpr hp)

/-- A clean path is its last name joined to its parent. -/
theorem CleanPath.join_dirName {p : Path} (h : CleanPath p) : join (dirName p) (baseName p) = p :=
  SepPath.join_dirName_baseName not_nameOk_nil h

/-- The parent of a joined name is the directory. -/
theorem dirName_join_name {d n : Path} (hn : NameOk n) : dirName (join d n) = d :=
  SepPath.dirName_join_name d hn.1 hn.2.1

/-- What `full` accepts is a path that a root can name. -/
theorem Root.full_rooted {root : Root} {path s : String} (h : root.full path = .ok s) :
    Rooted s.utf8 :=
  (root.full_clean h).imp String.utf8_eq_nil.mpr id

/-- What `full` returns is the path below the root. -/
theorem Root.full_utf8 {root : Root} {path s : String} (h : root.full path = .ok s) :
    s.utf8 = root.pathOf path := by
  obtain ⟨-, -, rfl⟩ := root.full_ok.mp h
  exact root.utf8_joined path

/-- Every call that can occur in the program satisfies `P`. -/
abbrev Calls {α : Type} (P : FsCall → Prop) (m : FsM α) : Prop :=
  Prog.Issues (S := FsSig) P m

section
variable {E : Effect} {root : Root} {path : String} {P : FsCall → Prop} {α : Type}

/-- The use of a reply issues no call. -/
theorem calls_ok (r : Except Errno α) : Calls P (ok r) := by
  cases r <;> trivial

/-- A system call and what follows, whatever the reply. -/
theorem calls_sys {c : FsCall} {k : c.Reply → FsM α} (hc : P c) (hk : ∀ r, Calls P (k r)) :
    Calls P (sys c >>= k) := Prog.issues_bind (Prog.issues_perform.mpr hc) hk

/-- A check issues no call. -/
theorem calls_check {c : Prop} [Decidable c] {e : Error} {m : FsM α} (hm : Calls P m) :
    Calls P (if c then throw e else m) := by
  split
  · trivial
  · exact hm

/-- The form a check takes when more statements follow it. -/
theorem calls_check_bind {c : Prop} [Decidable c] {e : Error} {k : PUnit → FsM α} {m : FsM α}
    (hm : Calls P m) : Calls P (if c then throw e >>= k else m) := by
  split
  · trivial
  · exact hm

/-- What comes after a check may rest on it. -/
theorem calls_unless {c : Prop} [Decidable c] {e : Error} {k : PUnit → FsM α} {m : FsM α}
    (hm : ¬ c → Calls P m) : Calls P (if c then throw e >>= k else m) := by
  split
  · trivial
  · next hc => exact hm hc

/-- What follows may rely on the value that was computed. -/
theorem calls_lift {β : Type} {x : Except Error β} {k : β → FsM α}
    (hk : ∀ b, x = .ok b → Calls P (k b)) : Calls P (liftM x >>= k) := by
  cases x with
  | ok b => exact hk b rfl
  | error e => trivial

/-- The calls of both branches. -/
theorem calls_ite {c : Prop} [Decidable c] {m m' : FsM α} (hm : Calls P m) (hm' : Calls P m') :
    Calls P (if c then m else m') := by
  split <;> assumption

/-- What follows `full` may rely on the path that it accepted. -/
theorem calls_full {k : String → FsM α}
    (hk : ∀ s, root.full path = .ok s → Calls P (k s)) :
    Calls P (liftM (root.full path) >>= k) := by
  cases h : root.full path with
  | error e => trivial
  | ok s => exact hk s h

/-- What follows an index may rely on the item. -/
theorem calls_index {β : Type} {xs : List β} {i : Nat} {site : String} {k : β → FsM α}
    (hk : ∀ x, xs[i]? = some x → Calls P (k x)) :
    Calls P (liftM (index xs i site) >>= k) := by
  unfold index
  cases h : xs[i]? with
  | none => trivial
  | some x => exact hk x h

/-- What follows `validate` may rely on a clean path. -/
theorem calls_validate {k : Unit → FsM α} (hk : CleanPath path.utf8 → Calls P (k ())) :
    Calls P (liftM (validate path) >>= k) := by
  cases h : validate path with
  | error e => trivial
  | ok u => exact hk (cleanPath_of_validate h)

/-! ### Operations that look -/

/-- `metadata` only reads. -/
theorem calls_metadata : Calls FsCall.Reads (root.metadata path) :=
  calls_full fun _ h => calls_sys (root.full_rooted h) fun _ => calls_ok _

/-- `exists` only reads. -/
theorem calls_exists : Calls FsCall.Reads (root.exists? path) := by
  refine Prog.issues_bind (Prog.issues_attempt calls_metadata) fun r => ?_
  split <;> trivial

/-- `open_file` only reads. -/
theorem calls_openFile : Calls FsCall.Reads (root.openFile path) :=
  calls_full fun _ h => calls_sys (root.full_rooted h) fun _ =>
    Prog.issues_bind (calls_ok _) fun _ => calls_check_bind trivial

/-- `children` only reads. -/
theorem calls_children : Calls FsCall.Reads (root.children path) :=
  calls_full fun _ h => calls_sys (root.full_rooted h) fun _ =>
    Prog.issues_bind (calls_ok _) fun _ => Prog.issues_bind trivial fun _ => trivial

/-- `snapshot` only reads. -/
theorem calls_snapshot {stamp : Stamp} : Calls FsCall.Reads (snapshot root path stamp) := by
  refine Prog.issues_bind calls_openFile fun f => calls_check_bind (calls_check_bind ?_)
  exact Prog.issues_bind calls_metadata fun _ => calls_check_bind trivial

/-- `ensure_unchanged` only reads. -/
theorem calls_ensureUnchanged {stamp : Stamp} :
    Calls FsCall.Reads (ensureUnchanged root path stamp) :=
  Prog.issues_bind calls_metadata fun _ => calls_check trivial

/-- `check_entry` only reads. -/
theorem calls_checkEntry {e : Entry} : Calls FsCall.Reads (checkEntry root e) :=
  Prog.issues_bind calls_metadata fun _ => calls_check trivial

/-- Hashing what was found only reads. -/
theorem calls_hashFound [Sha256] {m : Metadata} {wanted : Bool} :
    Calls FsCall.Reads (hashFound root path m wanted) :=
  calls_ite (Prog.issues_bind calls_openFile fun _ => calls_check_bind trivial) trivial

/-- `walk` only reads. -/
theorem calls_walk [Sha256] {checksum : Bool} {k : Nat} {result : Scan} :
    Calls FsCall.Reads (walk root checksum k path result) := by
  induction k generalizing path result with
  | zero => trivial
  | succ k ih =>
    refine calls_check_bind (Prog.issues_bind calls_metadata fun before => ?_)
    refine Prog.issues_bind calls_children fun children => Prog.issues_bind ?_ fun result =>
      Prog.issues_bind calls_metadata fun _ => calls_check_bind trivial
    refine Prog.issues_foldlM fun child _ result => calls_validate fun _ => ?_
    exact Prog.issues_bind calls_hashFound fun hash => calls_check_bind (calls_ite ih trivial)

/-- `scan` only reads. -/
theorem calls_scan [Sha256] {checksum : Bool} : Calls FsCall.Reads (scan root checksum) := by
  refine Prog.issues_bind calls_exists fun found => ?_
  split
  · trivial
  · refine Prog.issues_bind calls_walk fun result => Prog.issues_bind calls_metadata fun m => ?_
    exact Prog.issues_bind trivial fun _ => trivial

/-! ### What the operations that look return -/

/-- The run of one system call. -/
theorem run_sys (c : FsCall) (w : Disk) : (sys c).run exec w = (.ok (exec c w).1, (exec c w).2) :=
  rfl

section
variable {w : Disk} {m : Metadata}

/-- `metadata` on a path that `full` accepts. -/
theorem run_metadata {s : String} (hs : root.full path = .ok s) :
    (root.metadata path).run exec w = match w.tree.find (root.pathOf path) with
      | .ok n => (.ok n.metadata, w)
      | .error e => (.error e.toError, w) := by
  unfold Root.metadata
  rw [hs, ← Root.full_utf8 hs]
  show (ok ((w.tree.find s.utf8).map Node.metadata)).run exec w = _
  cases w.tree.find s.utf8 <;> rfl

/-- `metadata` returns what the tree has at the path. -/
theorem metadata_ok : ((root.metadata path).run exec w).1 = .ok m ↔
    (∃ s, root.full path = .ok s) ∧
      ∃ n, w.tree.get (root.pathOf path) = some n ∧ n.metadata = m := by
  cases hs : root.full path with
  | error e =>
    simp only [Root.metadata, hs, reduceCtorEq, exists_false, false_and, iff_false]
    exact fun h => by cases h
  | ok s =>
    rw [run_metadata hs]
    simp only [Except.ok.injEq, exists_eq', true_and, ← Tree.find_ok]
    cases w.tree.find (root.pathOf path) <;> simp

/-- `check_entry` passes exactly when the entry accepts what is there. -/
theorem checkEntry_ok {e : Entry} {u : Unit} : ((checkEntry root e).run exec w).1 = .ok u ↔
    (∃ s, root.full e.path = .ok s) ∧
      ∃ n, w.tree.get (root.pathOf e.path) = some n ∧ e.accepts n.metadata = true := by
  unfold checkEntry
  rw [Prog.run_bind, (quiet_of_reads calls_metadata).run_eq]
  cases hm : ((root.metadata e.path).run exec w).1 with
  | error err =>
    simp only [reduceCtorEq, false_iff, not_and]
    rintro hs ⟨n, hn, -⟩
    have := metadata_ok.mpr ⟨hs, n, hn, rfl⟩
    rw [hm] at this
    cases this
  | ok m =>
    obtain ⟨hs, n, hn, rfl⟩ := metadata_ok.mp hm
    simp only [hs, hn, Option.some.injEq, exists_eq_left', true_and]
    cases e.accepts n.metadata <;> simp

/-- `validate` fails with one error only. -/
theorem validate_error {e : Error} (h : validate path = .error e) : e = .invalidPath path := by
  unfold validate at h
  simp only [] at h
  split at h
  · exact (Except.error.inj h).symm
  · cases h

/-- So does `full`. -/
theorem full_error {e : Error} (h : root.full path = .error e) : ∃ p, e = .invalidPath p := by
  by_cases hp : path = ""
  · simp only [Root.full, hp, ne_eq, not_true_eq_false, if_false] at h
    split at h
    · exact ⟨_, (Except.error.inj h).symm⟩
    · cases h
  · simp only [Root.full, hp, ne_eq, not_false_eq_true, if_true] at h
    cases hv : validate path with
    | error e' =>
      rw [hv] at h
      exact ⟨path, (Except.error.inj h).symm.trans (validate_error hv)⟩
    | ok u =>
      simp only [hv, bind, Except.bind] at h
      split at h
      · exact ⟨_, (Except.error.inj h).symm⟩
      · cases h

/-- `exists` tells whether something is at the path. An error other than ENOENT is passed on, so it
does not answer then. -/
theorem exists_iff {b : Bool} : ((root.exists? path).run exec w).1 = .ok b ↔
    (∃ s, root.full path = .ok s) ∧
      match w.tree.find (root.pathOf path) with
      | .ok _ => b = true
      | .error e => e = .noent ∧ b = false := by
  unfold Root.exists?
  rw [Prog.run_bind_ok (Prog.run_attempt exec _ w)]
  cases hs : root.full path with
  | error e =>
    obtain ⟨p, rfl⟩ := full_error hs
    have hm : ((root.metadata path).run exec w).1 = .error (.invalidPath p) := by
      unfold Root.metadata
      rw [hs]
      rfl
    simp [hm]
  | ok s =>
    rw [run_metadata hs]
    -- Only a missing object is taken for an answer.
    cases w.tree.find (root.pathOf path) with
    | ok n => simp [eq_comm]
    | error e => cases e <;> simp [Errno.toError, eq_comm]

/-- `exists?` reports an object, or that there is none. -/
theorem exists_ok {b : Bool} (h : ((root.exists? path).run exec w).1 = .ok b) :
    (w.tree.get (root.pathOf path)).isSome = b := by
  obtain ⟨-, hfind⟩ := exists_iff.mp h
  unfold Tree.find at hfind
  cases hn : w.tree.get (root.pathOf path) with
  | some n =>
    rw [hn] at hfind
    exact hfind.symm
  | none =>
    rw [hn] at hfind
    exact hfind.2.symm

end

/-! ### Operations that change the tree -/

/-- What the effects must contain for a call that changes an entry of a directory. -/
theorem safe_mkdir {d n : Path} (hd : Rooted d) (hn : NameOk n) (hs : E.Stamps d)
    (hm : E.Makes (join d n)) : (FsCall.mkdir d n).Safe E := by
  refine ⟨⟨hd, hn⟩, ?_⟩
  rintro q old new (⟨rfl, h⟩ | ⟨rfl, rfl, m, rfl, hb⟩)
  · exact hs old new h
  · exact hm m hb

/-- A sync has no effect. -/
theorem safe_sync {d : Path} (hd : Rooted d) : (FsCall.sync d).Safe E :=
  ⟨hd, fun _ _ _ h => h.elim⟩

/-- Opening a directory has no effect. -/
theorem safe_openDir {d : Path} (hd : Rooted d) : (FsCall.openDir d).Safe E :=
  FsCall.Reads.safe (c := .openDir d) hd

/-- The loop of `mkdir` makes the components one below the other, and nothing else. -/
theorem calls_mkdirFrom {parent : Path} {names : List Path} (hparent : Rooted parent)
    (hnames : ∀ n ∈ names, NameOk n)
    (hE : ∀ q, q ≠ [] → Below (names.foldl join parent) q → E.Makes q ∧ E.Stamps (dirName q)) :
    Calls (FsCall.Safe E) (Root.mkdirFrom parent names) := by
  induction names generalizing parent with
  | nil => trivial
  | cons name names ih =>
    have hn := hnames name List.mem_cons_self
    have hchild := hparent.join_name hn
    obtain ⟨hmk, hst⟩ := hE (join parent name) hchild.ne_nil
      (SepPath.below_foldl_join hchild.ne_nil)
    rw [dirName_join_name hn] at hst
    have hrest : Calls (FsCall.Safe E) (Root.mkdirFrom (join parent name) names) :=
      ih (Or.inr hchild) (fun n h => hnames n (List.mem_cons_of_mem _ h)) hE
    refine calls_sys (safe_openDir hparent) fun _ => Prog.issues_bind (calls_ok _) fun _ => ?_
    refine calls_sys (safe_mkdir hparent hn hst hmk) fun made => ?_
    -- after the component was made or found, it is opened and the rest follows
    have hopen : Calls (FsCall.Safe E) (do
        ok (← sys (.openDir (join parent name)))
        Root.mkdirFrom (join parent name) names) :=
      calls_sys (safe_openDir (Or.inr hchild)) fun _ =>
        Prog.issues_bind (calls_ok _) fun _ => hrest
    split
    · exact calls_sys (safe_sync hparent) fun _ => Prog.issues_bind (calls_ok _) fun _ => hopen
    · exact hopen
    · trivial

/-- The names `mkdir` goes through lead to the path. -/
theorem foldl_join_names {p : Path} (hp : Rooted p) :
    ((p.splitOn slash).filter fun c => c ≠ []).foldl join [] = p := by
  rcases hp with rfl | hp
  · rfl
  · have hne : ∀ c ∈ p.splitOn slash, c ≠ [] := fun c hc => (hp c hc).1
    rw [List.filter_eq_self.mpr fun c hc => by simpa using hne c hc]
    exact (SepPath.foldl_join_splitOn hne []).trans SepPath.join_nil_left

/-- The components of a path that `full` accepts are names. -/
theorem nameOk_of_mem_names {p n : Path} (hp : Rooted p)
    (hn : n ∈ (p.splitOn slash).filter fun c => c ≠ []) : NameOk n := by
  obtain ⟨h1, h2⟩ := List.mem_filter.mp hn
  rcases hp with rfl | hp
  · simp at h1
    simp [h1] at h2
  · exact hp n h1

/-- `mkdir` makes the path and what is above it. -/
theorem calls_mkdir
    (hE : ∀ q, q ≠ [] → Below (root.pathOf path) q → E.Makes q ∧ E.Stamps (dirName q)) :
    Calls (FsCall.Safe E) (root.mkdir path) := by
  refine calls_full fun s h => ?_
  have hs := Root.full_rooted h
  refine calls_mkdirFrom (Or.inl rfl) (fun n hn => nameOk_of_mem_names hs hn) ?_
  rw [foldl_join_names hs, Root.full_utf8 h]
  exact hE

/-- `parent` opens the parent directory and splits the path. -/
theorem calls_parent : Calls (FsCall.Safe E) (root.parent path) ∧
    (root.parent path).Returns fun r => CleanPath (root.pathOf path) ∧
      r = (dirName (root.pathOf path), baseName (root.pathOf path)) := by
  unfold Root.parent
  cases hv : validate path with
  | error e => exact ⟨trivial, trivial⟩
  | ok u =>
    cases hf : root.full path with
    | error e => exact ⟨trivial, trivial⟩
    | ok s =>
      have hs := Root.full_utf8 hf
      have hc : CleanPath (root.pathOf path) := by
        rcases root.pathOf_clean (Or.inr (cleanPath_of_validate hv)) with h | h
        · exact absurd (SepPath.join_eq_nil.mp h).2 (cleanPath_of_validate hv).ne_nil
        · exact h
      rw [← hs] at hc ⊢
      refine ⟨calls_sys (safe_openDir hc.rooted_dirName) fun _ =>
        Prog.issues_bind (calls_ok _) fun _ => trivial, fun r => ?_⟩
      exact Prog.returns_bind fun _ => Prog.returns_bind fun _ => ⟨hc, rfl⟩

/-- `remove` removes the path and stamps its directory. -/
theorem calls_remove {directory : Bool} (hd : E.Stamps (dirName (root.pathOf path)))
    (hp : E.Drops (root.pathOf path)) : Calls (FsCall.Safe E) (root.remove path directory) := by
  refine Prog.issues_bind_returns calls_parent.1 (calls_parent (E := E)).2 ?_
  rintro _ ⟨hc, rfl⟩
  have hdir := hc.rooted_dirName
  have hname : NameOk (baseName (root.pathOf path)) := SepPath.Clean.baseName hc
  refine Prog.issues_bind ?_ fun _ => calls_sys (safe_sync hdir) fun _ => calls_ok _
  unfold Root.unlinkat
  split
  · refine calls_sys (c := .rmdir _ _) ⟨⟨hdir, hname⟩, ?_⟩ fun _ => calls_ok _
    rintro q old new (⟨rfl, h⟩ | ⟨rfl, rfl, m, rfl, -⟩)
    · exact hd old new h
    · rw [hc.join_dirName]
      exact hp m
  · refine calls_sys (c := .unlink _ _) ⟨⟨hdir, hname⟩, ?_⟩ fun _ => calls_ok _
    rintro q old new (⟨rfl, h⟩ | ⟨rfl, rfl, m, rfl, -⟩)
    · exact hd old new h
    · rw [hc.join_dirName]
      exact hp m

/-- `set_mtime` stamps the path. -/
theorem calls_setMtime {sec : Int64} {ns : UInt32} (hp : E.Stamps (root.pathOf path)) :
    Calls (FsCall.Safe E) (root.setMtime path sec ns) := by
  refine calls_full fun s h => ?_
  have hs := Root.full_rooted h
  rw [← Root.full_utf8 h] at hp
  refine calls_sys (FsCall.Reads.safe (c := .openFile s.utf8) hs) fun _ =>
    Prog.issues_bind (calls_ok _) fun _ => Prog.issues_bind trivial fun time => ?_
  refine calls_sys (c := .utimens _ _) ⟨hs, ?_⟩ fun _ => calls_ok _
  rintro q old new ⟨rfl, h⟩
  exact hp old new h

end
end RrSync

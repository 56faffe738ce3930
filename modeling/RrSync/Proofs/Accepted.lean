import RrSync.Proofs.Apart
import RrSync.Proofs.Payload

/-!
# `RrSync.Proofs.Accepted`: the cache refuses no path of its own

`InvalidPath` has more than one source. `fs::validate` gives it for a path it refuses, but the
same error also stands for a name in a directory that is not UTF-8 (`children`), for a lock
that is no file (`lock_state`) and for an activity record that is no file (`open_file`). A
claim about the paths of a session must keep these apart.

`Tree.Plain` says that the cache directory holds none of the latter. It is a condition on the
directory alone. `Accepts R m` says that the program `m`, started on any disk of that kind,
leaves one of that kind and does not end with `InvalidPath`. The rules follow the ways programs
are put together, and `accepts_openShared` and `accepts_openLimited` are the results: the chunk
store opens without `InvalidPath` for every scope, whichever calls fail.
-/

set_option autoImplicit false

namespace RrSync

open Lib

/-! ### Directories that hold nothing strange -/

/-- An object that a cache directory can be expected to hold. Its name is UTF-8 and no longer
than the names of a file system, and it is a file, a directory or a symbolic link. -/
structure Node.Plain (p : Path) (n : Node) : Prop where
  utf8 : ∃ name : String, name.utf8 = baseName p
  short : (baseName p).length ≤ 255
  common : n.body ≠ .special

/-- All objects under the cache directory are plain. -/
def Tree.Plain (t : Tree) : Prop := ∀ p n, p ≠ [] → t.get p = some n → n.Plain p

/-- The change of one object keeps it plain. -/
def Effect.plain : Effect := fun q old new =>
  q ≠ [] → (∀ n, old = some n → n.Plain q) → ∀ n, new = some n → n.Plain q

section
variable {d q : Path} {w : Disk}

/-- A new time is no new name. -/
theorem Effect.plain_stamps : Effect.plain.Stamps d := by
  intro old new h hd hold n hn
  obtain ⟨m, m', rfl, rfl, hb⟩ := h
  have hm := hold m rfl
  cases hn
  exact ⟨hm.utf8, hm.short, hb ▸ hm.common⟩

/-- A plain tree may get a directory with a short name that is UTF-8. -/
theorem Effect.plain_makes (hname : ∃ name : String, name.utf8 = baseName q)
    (hlen : (baseName q).length ≤ 255) : Effect.plain.Makes q := by
  intro n hb _ _ m hm
  cases hm
  exact ⟨hname, hlen, by simp [hb]⟩

/-- So may it get a file. -/
theorem Effect.plain_puts (hname : ∃ name : String, name.utf8 = baseName q)
    (hlen : (baseName q).length ≤ 255) : Effect.plain.Puts q := by
  intro old n data _ hb _ _ m hm
  cases hm
  exact ⟨hname, hlen, by simp [hb]⟩

/-- Anything may go away. -/
theorem Effect.plain_drops : Effect.plain.Drops q := by
  intro n _ _ m hm
  cases hm

/-- A call whose changes are plain keeps the tree plain. `exec_may` lists what it can do at
each path, and every path is looked at alone. -/
theorem plain_exec {c : FsCall} (hw : w.tree.Plain) (hc : c.Safe .plain) :
    (exec c w).2.tree.Plain := by
  intro q n hq hn
  rcases exec_may c w q with hsame | hmay
  · rw [hsame] at hn
    exact hw q n hq hn
  · exact hc.2 q _ _ hmay hq (fun m hm => hw q m hq hm) n hn

/-- A call that was attempted with success has been carried out. -/
theorem attempt_ok {α : Type} {f : Disk → Except Errno (α × Disk)} {a : α}
    (h : (w.attempt f).1 = .ok a) : ∃ w', f { w with tick := w.tick + 1 } = .ok (a, w') := by
  unfold Disk.attempt at h
  by_cases hfault : w.env.fault w.tick = true
  · simp only [if_pos hfault] at h
    cases h
  · simp only [if_neg hfault] at h
    cases hf : f { w with tick := w.tick + 1 } with
    | error e =>
      rw [hf] at h
      cases h
    | ok r =>
      rw [hf] at h
      cases h
      exact ⟨r.2, rfl⟩

/-- An empty cache directory is plain. -/
theorem plain_empty : Disk.empty.tree.Plain := by
  intro p n hp hn
  exact absurd (hn.symm.trans (Tree.get_empty hp)) (by simp)

end

/-! ### Programs that refuse no path -/

/-- The error by which the program refuses a path. -/
def Error.IsPath : Error → Prop
  | .invalidPath _ => True
  | _ => False

/-- The result of a computation that has refused no path. -/
def Taken {α : Type} (R : α → Prop) : Except Error α → Prop
  | .ok a => R a
  | .error e => ¬ e.IsPath

/-- From every plain disk the program goes to a plain disk, and it refuses no path. -/
def Accepts {α : Type} (R : α → Prop) (m : FsM α) : Prop :=
  ∀ w : Disk, w.tree.Plain → (m.run exec w).2.tree.Plain ∧ Taken R (m.run exec w).1

section
variable {α β : Type} {R : α → Prop} {Q : β → Prop} {e : Error}

/-- A weaker property of the value. -/
theorem Taken.imp {x : Except Error α} {P : α → Prop} (h : Taken R x) (hP : ∀ a, R a → P a) :
    Taken P x := by
  cases x with
  | ok a => exact hP a h
  | error e => exact h

/-- The message of a taken result is never that of a refused path. -/
theorem Taken.ne {x : Except Error α} (h : Taken R x) (text : String) :
    x ≠ .error (.invalidPath text) := by
  intro hx
  rw [hx] at h
  exact h trivial

/-- A weaker property of what is returned. -/
theorem Accepts.imp {m : FsM α} {P : α → Prop} (h : Accepts R m) (hP : ∀ a, R a → P a) :
    Accepts P m := fun w hw => ⟨(h w hw).1, (h w hw).2.imp hP⟩

/-- `pure` refuses nothing. -/
theorem accepts_pure {a : α} (h : R a) : Accepts R (pure a : FsM α) := fun _ hw => ⟨hw, h⟩

/-- An error of another kind refuses no path. -/
theorem accepts_throw (he : ¬ e.IsPath) : Accepts R (throw e : FsM α) := fun _ hw => ⟨hw, he⟩

/-- A computed result that refuses no path. -/
theorem accepts_lift {x : Except Error α} (h : Taken R x) : Accepts R (liftM x : FsM α) :=
  fun _ hw => ⟨hw, h⟩

/-- A check in front of a program that is known to pass. -/
theorem accepts_pass {x : Except Error β} {b : β} {k : β → FsM α} (hx : x = .ok b)
    (hk : Accepts R (k b)) : Accepts R (liftM x >>= k) := by
  rw [hx]
  exact hk

/-- The rest of a program starts on a plain disk again. -/
theorem accepts_bind {m : FsM β} {f : β → FsM α} (hm : Accepts Q m)
    (hf : ∀ b, Q b → Accepts R (f b)) : Accepts R (m >>= f) := by
  intro w hw
  obtain ⟨hplain, htaken⟩ := hm w hw
  rw [Prog.run_bind]
  rcases hr : m.run exec w with ⟨r, v⟩
  rw [hr] at hplain htaken
  cases r with
  | ok b => exact hf b htaken v hplain
  | error e => exact ⟨hplain, htaken⟩

/-- Two programs in sequence, where nothing is known of the first value. -/
theorem accepts_seq {m : FsM β} {f : β → FsM α} (hm : Accepts (fun _ => True) m)
    (hf : ∀ b, Accepts R (f b)) : Accepts R (m >>= f) := accepts_bind hm fun b _ => hf b

/-- A check that fails with another error. The rest may assume that it passed. -/
theorem accepts_check {c : Prop} [Decidable c] {k : β → FsM α} {m : FsM α} (he : ¬ e.IsPath)
    (hm : ¬ c → Accepts R m) : Accepts R (if c then throw e >>= k else m) := by
  by_cases hc : c
  · rw [if_pos hc]
    exact accepts_throw he
  · rw [if_neg hc]
    exact hm hc

/-- Both branches of a condition. -/
theorem accepts_ite {c : Prop} [Decidable c] {m m' : FsM α} (hm : c → Accepts R m)
    (hm' : ¬ c → Accepts R m') : Accepts R (if c then m else m') := by
  by_cases hc : c
  · rw [if_pos hc]
    exact hm hc
  · rw [if_neg hc]
    exact hm' hc

/-- `attempt` passes an error on as a value. -/
theorem accepts_attempt {m : FsM α} (hm : Accepts R m) :
    Accepts (Taken R) (m.attempt : FsM (Except Error α)) := by
  intro w hw
  rw [Prog.run_attempt]
  exact hm w hw

/-- A clean-up on errors that refuses no path either. -/
theorem accepts_onError {m : FsM α} {cleanup : FsM Unit} (hm : Accepts R m)
    (hc : Accepts (fun _ => True) cleanup) : Accepts R (m.onError cleanup) := by
  refine accepts_bind (accepts_attempt hm) fun r hr => ?_
  cases r with
  | ok a => exact accepts_pure hr
  | error e => exact accepts_seq hc fun _ => accepts_throw hr

/-- A loop that passes a value on. What the turns keep of the value is `Q`. -/
theorem accepts_foldlM {xs : List α} {f : β → α → FsM β} {b : β} (hb : Q b)
    (hf : ∀ x ∈ xs, ∀ b, Q b → Accepts Q (f b x)) : Accepts Q (xs.foldlM f b) := by
  induction xs generalizing b with
  | nil => exact accepts_pure hb
  | cons x xs ih =>
    rw [List.foldlM_cons]
    refine accepts_bind (hf x List.mem_cons_self b hb) fun b hb => ?_
    exact ih hb fun y hy => hf y (List.mem_cons_of_mem _ hy)

/-- A loop whose turns refuse no path. -/
theorem accepts_forM {xs : List α} {f : α → FsM PUnit}
    (hf : ∀ x ∈ xs, Accepts (fun _ => True) (f x)) : Accepts (fun _ => True) (xs.forM f) := by
  induction xs with
  | nil => exact accepts_pure trivial
  | cons x xs ih =>
    refine accepts_seq (hf x List.mem_cons_self) fun _ => ?_
    exact ih fun y hy => hf y (List.mem_cons_of_mem _ hy)

end

/-! ### The calls of `Root` -/

/-- A name of a directory entry that is no longer than the names of a file system. -/
def ShortName (name : String) : Prop := NameOk name.utf8 ∧ name.utf8.length ≤ 255

/-- A root whose path leaves room for any name below it. The cache directory and the transfer
directories in it are of this kind. -/
def Root.Narrow (root : Root) : Prop := root.base.utf8.length ≤ 64

section
variable {root : Root} {path name : String} {α : Type} {R : α → Prop}

/-- A joined path is not longer than its parts and a slash. -/
theorem Root.length_pathOf_le :
    (root.pathOf path).length ≤ root.base.utf8.length + 1 + path.utf8.length := by
  unfold Root.pathOf join SepPath.join
  split_ifs
  · omega
  · omega
  · simp only [List.length_append, List.length_cons]
    omega

/-- A root near the top of its volume takes every short name. -/
theorem Root.Narrow.takes (hroot : root.Narrow) (hname : ShortName name) : root.Takes name := by
  refine ⟨validate_of_name hname.1 hname.2, ?_⟩
  have hle : (root.pathOf name).length ≤ root.base.utf8.length + 1 + name.utf8.length :=
    root.length_pathOf_le
  have hbase : root.base.utf8.length ≤ 64 := hroot
  have hlen := hname.2
  show _ ≤ 4096
  omega

/-- `full` accepts the root itself and every short name. -/
theorem Root.Narrow.full (hroot : root.Narrow) (hpath : path = "" ∨ ShortName path) :
    root.full path = .ok (root.joined path) := by
  rcases hpath with rfl | hname
  · exact Root.full_base (Nat.le_trans hroot (by decide))
  · exact (hroot.takes hname).full

/-- What it returns is a path that a root can name. -/
theorem Root.Narrow.rooted (hroot : root.Narrow) (hpath : path = "" ∨ ShortName path) :
    Rooted (root.joined path).utf8 := Root.full_rooted (hroot.full hpath)

/-- The cache directory is such a root. -/
theorem narrow_opened : Root.opened.Narrow := by
  unfold Root.Narrow
  decide

/-- So is the directory of a transfer. -/
theorem narrow_transfer {key : String} (hk : keyName key = true) : (transferRoot key hk).Narrow :=
  Nat.le_of_eq (keyName_length hk)

/-- The last name of a path below a root is the name. -/
theorem baseName_pathOf (hname : ShortName name) : baseName (root.pathOf name) = name.utf8 :=
  baseName_join_name hname.1

/-- What the disk answers to one call, and that the call makes only plain objects. -/
theorem accepts_call {c : FsCall} {P : c.Reply → Prop} (hc : c.Safe .plain)
    (hr : ∀ w : Disk, w.tree.Plain → P (exec c w).1) : Accepts P (sys c) :=
  fun w hw => ⟨plain_exec hw hc, hr w hw⟩

/-- A safe call keeps the tree plain. -/
theorem accepts_sys {c : FsCall} (hc : c.Safe .plain) : Accepts (fun _ => True) (sys c) :=
  accepts_call hc fun _ _ => trivial

/-- An error of a system call is `Io`. -/
theorem accepts_ok {r : Except Errno α} (h : ∀ a, r = .ok a → R a) : Accepts R (ok r) := by
  cases r with
  | ok a => exact accepts_pure (h a rfl)
  | error e => exact accepts_throw id

/-- A call whose value is not looked at. -/
theorem accepts_unit {c : FsCall} {r : c.Reply → Except Errno α} (hc : c.Safe .plain) :
    Accepts (fun _ => True) (sys c >>= fun x => ok (r x)) :=
  accepts_seq (accepts_sys hc) fun _ => accepts_ok fun _ _ => trivial

/-- What follows `full` may use the joined path. -/
theorem accepts_full (hroot : root.Narrow) (hpath : path = "" ∨ ShortName path) {k : String → FsM α}
    (hk : Accepts R (k (root.joined path))) : Accepts R (liftM (root.full path) >>= k) :=
  accepts_pass (hroot.full hpath) hk

/-! ### What is read -/

/-- Names of a plain directory can be listed. The only error of the loop is the bound on the
number of entries. -/
theorem taken_collect {xs : List ({n : Path // NameOk n} × Metadata)} {out : List (String × Metadata)}
    (hxs : ∀ x ∈ xs, (∃ s : String, s.utf8 = x.1.1) ∧ x.1.1.length ≤ 255)
    (hout : ∀ c ∈ out, ShortName c.1) :
    Taken (fun r => ∀ c ∈ r, ShortName c.1) (Root.collect xs out) := by
  induction xs generalizing out with
  | nil => exact hout
  | cons x xs ih =>
    obtain ⟨⟨s, hs⟩, hlen⟩ := hxs x List.mem_cons_self
    unfold Root.collect
    rw [ofUtf8?_eq_some.mpr hs]
    show Taken _ (if _ then _ else _)
    -- The list is too long, which is no refusal of a path, or one short name is added.
    by_cases hmany : maxEntries < (out ++ [(s, x.2)]).length
    · rw [if_pos hmany]
      exact id
    · rw [if_neg hmany]
      refine ih (fun y hy => hxs y (List.mem_cons_of_mem _ hy)) fun c hc => ?_
      rcases List.mem_append.mp hc with hc | hc
      · exact hout c hc
      · rw [List.mem_singleton.mp hc]
        show NameOk s.utf8 ∧ s.utf8.length ≤ 255
        rw [hs]
        exact ⟨x.1.2, hlen⟩

/-- Listing a directory: its names are UTF-8 because the disk is plain. -/
theorem accepts_children (hroot : root.Narrow) (hpath : path = "" ∨ ShortName path) :
    Accepts (fun out => ∀ c ∈ out, ShortName c.1) (root.children path) := by
  refine accepts_full hroot hpath ?_
  -- The names come from the disk, where every object has a short name.
  have hnames : Accepts (fun r : Except Errno (List ({n : Path // NameOk n} × Metadata)) =>
      ∀ xs, r = .ok xs → ∀ x ∈ xs, (∃ s : String, s.utf8 = x.1.1) ∧ x.1.1.length ≤ 255)
      (sys (.readDir (root.joined path).utf8)) := by
    refine accepts_call (c := .readDir _)
      (FsCall.Reads.safe (c := .readDir _) (hroot.rooted hpath)) fun w hw xs hr x hx => ?_
    have hxs : w.tree.entries (root.joined path).utf8 = xs := by
      have h : (w.tree.openDir (root.joined path).utf8 >>= fun _ =>
          pure (w.tree.entries (root.joined path).utf8)) = .ok xs := hr
      obtain ⟨-, -, h⟩ := bind_eq_ok.mp h
      exact pure_eq_ok.mp h
    rw [← hxs] at hx
    obtain ⟨node, hnode, -⟩ := Tree.mem_entries.mp hx
    have hplain := hw _ node (join_name_ne_nil x.1.2) hnode
    have hbase := baseName_join_name (d := (root.joined path).utf8) x.1.2
    exact ⟨hbase ▸ hplain.utf8, hbase ▸ hplain.short⟩
  refine accepts_bind hnames fun r hr => accepts_bind (accepts_ok hr) fun xs hxs => ?_
  refine accepts_bind (accepts_lift (taken_collect hxs fun c hc => by cases hc)) fun out hout => ?_
  exact accepts_pure fun c hc => hout c ((List.mem_insertionSort _).mp hc)

/-- Taking a lock. What is there can be opened for writing, so it is neither a link nor a
directory, and on a plain disk only a file is left. -/
theorem accepts_lockState {shared : Bool} (hroot : root.Narrow) (hname : ShortName name) :
    Accepts (fun _ => True) (root.lockState name shared) := by
  have hrooted := hroot.rooted (.inr hname)
  refine accepts_full hroot (.inr hname) ?_
  have hutf8 : (root.joined name).utf8 = root.pathOf name := root.utf8_joined name
  -- on a plain tree, what opens as a lock is a regular file
  have hopen : Accepts (fun r : Except Errno Metadata => ∀ m, r = .ok m → m.isFile = true)
      (sys (.openLock (root.joined name).utf8)) := by
    refine accepts_call (c := .openLock _) ⟨hrooted, ?_⟩ fun w hw m hm => ?_
    · intro q old new hmay
      rcases hmay with ⟨rfl, h⟩ | ⟨rfl, rfl, n, rfl, hb⟩
      · exact Effect.plain_stamps old new h
      · refine Effect.plain_puts ⟨name, ?_⟩ ?_ none n [] (fun _ h => by cases h) hb <;>
          rw [hutf8, baseName_pathOf hname]
        exact hname.2
    · obtain ⟨w', hw'⟩ : ∃ w', Disk.openLock (root.joined name).utf8 { w with tick := w.tick + 1 }
          = .ok (m, w') := attempt_ok hm
      rcases Disk.openLock_ok.mp hw' with ⟨n, hn, hne, rfl, -⟩ | ⟨-, rfl, -⟩
      · have hplain := hw _ n (by rw [hutf8]; exact join_name_ne_nil hname.1) hn
        obtain ⟨body, time, tag⟩ := n
        cases body with
        | file data => rfl
        | directory => exact absurd rfl hne.2
        | symlink => exact absurd rfl hne.1
        | special => exact absurd rfl hplain.common
      · rfl
  refine accepts_bind hopen fun r hr => accepts_bind (accepts_ok hr) fun m hm => ?_
  rw [if_neg (not_not.mpr hm)]
  exact accepts_unit (c := .flock _ _) (safe_quiet hrooted fun _ _ _ h => h)

/-! ### What is changed -/

/-- `parent` splits the path of a name into the root and the name. -/
theorem accepts_parent (hroot : root.Narrow) (hname : ShortName name) :
    Accepts (fun r => r = (root.base.utf8, name.utf8)) (root.parent name) := by
  have htakes := hroot.takes hname
  have hutf8 : (root.joined name).utf8 = root.pathOf name := root.utf8_joined name
  have hdir : dirName (root.pathOf name) = root.base.utf8 := dirName_join_name hname.1
  unfold Root.parent
  rw [htakes.valid, htakes.full]
  show Accepts _ (sys (.openDir (dirName (root.joined name).utf8)) >>= _)
  rw [hutf8, hdir, baseName_pathOf hname]
  refine accepts_seq (accepts_sys ?_) fun _ => accepts_seq (accepts_ok fun _ _ => trivial) fun _ =>
    accepts_pure rfl
  exact safe_openDir (root.clean.imp String.utf8_eq_nil.mpr id)

/-- `remove` refuses no short name. -/
theorem accepts_remove {directory : Bool} (hroot : root.Narrow) (hname : ShortName name) :
    Accepts (fun _ => True) (root.remove name directory) := by
  have hbase : Rooted root.base.utf8 := root.clean.imp String.utf8_eq_nil.mpr id
  refine accepts_bind (accepts_parent hroot hname) fun r hr => ?_
  rw [hr]
  refine accepts_seq ?_ fun _ => accepts_unit (c := .sync _) (safe_sync hbase)
  show Accepts _ (if directory then _ else _)
  refine accepts_ite (fun _ => accepts_unit (c := .rmdir _ _) ⟨⟨hbase, hname.1⟩, ?_⟩)
    fun _ => accepts_unit (c := .unlink _ _) ⟨⟨hbase, hname.1⟩, ?_⟩
  all_goals
    intro q old new hmay
    rcases hmay with ⟨rfl, h⟩ | ⟨rfl, rfl, n, rfl, -⟩
    · exact Effect.plain_stamps old new h
    · exact Effect.plain_drops n

/-- `unlink_batch` issues only unlinks and one sync. -/
theorem accepts_unlinkBatch {dir : Path} {names : List String} (hd : Rooted dir)
    (hnames : ∀ n ∈ names, ShortName n) :
    Accepts (fun _ => True) (Root.unlinkBatch dir names) := by
  have hunlink : Accepts (fun _ => True)
      (names.forM fun name => do ok (← sys (.unlink dir name.utf8))) := by
    refine accepts_forM fun n hn => accepts_unit (c := .unlink _ _) ⟨⟨hd, (hnames n hn).1⟩, ?_⟩
    intro q old new hmay
    rcases hmay with ⟨rfl, h⟩ | ⟨rfl, rfl, n, rfl, -⟩
    · exact Effect.plain_stamps old new h
    · exact Effect.plain_drops n
  refine accepts_bind (accepts_attempt hunlink) fun removed hremoved => ?_
  refine accepts_bind (accepts_attempt (accepts_unit (c := .sync _) (safe_sync hd)))
    fun synced hsynced => ?_
  cases removed with
  | ok u => exact accepts_lift hsynced
  | error e => exact accepts_throw hremoved

/-- `remove_files` refuses no short names. -/
theorem accepts_removeFiles {names : List String} (hroot : root.Narrow)
    (hpath : path = "" ∨ ShortName path) (hnames : ∀ n ∈ names, ShortName n) :
    Accepts (fun _ => True) (root.removeFiles path names) := by
  have hrooted := hroot.rooted hpath
  have hchecks : Accepts (fun _ => True) (names.forM fun name => do
      validate name
      if slash ∈ name.utf8 then throw (.invalidPath name) : FsM Unit) := by
    refine accepts_forM fun n hn => ?_
    have hshort := hnames n hn
    rw [validate_of_name hshort.1 hshort.2]
    show Accepts _ (if slash ∈ n.utf8 then _ else _)
    rw [if_neg hshort.1.2.1]
    exact accepts_pure trivial
  refine accepts_seq hchecks fun _ => accepts_full hroot hpath ?_
  refine accepts_seq (accepts_sys (safe_openDir hrooted)) fun _ =>
    accepts_seq (accepts_ok fun _ _ => trivial) fun _ => accepts_unlinkBatch hrooted hnames

/-- `mkdir` of one name in the cache directory. -/
theorem accepts_mkdirFrom {parent : Path} {names : List Path} (hparent : Rooted parent)
    (hnames : ∀ n ∈ names, NameOk n ∧ (∃ s : String, s.utf8 = n) ∧ n.length ≤ 255) :
    Accepts (fun _ => True) (Root.mkdirFrom parent names) := by
  induction names generalizing parent with
  | nil => exact accepts_pure trivial
  | cons n names ih =>
    obtain ⟨hn, hutf8, hlen⟩ := hnames n List.mem_cons_self
    have hchild : Rooted (join parent n) := .inr (hparent.join_name hn)
    have hbase : baseName (join parent n) = n := baseName_join_name hn
    have hmkdir : (FsCall.mkdir parent n).Safe .plain :=
      safe_mkdir hparent hn Effect.plain_stamps
        (Effect.plain_makes (by rwa [hbase]) (by rwa [hbase]))
    -- After the directory is made or found, it is opened and the rest is made in it.
    have hrest : Accepts (fun _ => True) (do
        ok (← sys (.openDir (join parent n)))
        Root.mkdirFrom (join parent n) names) :=
      accepts_seq (accepts_sys (safe_openDir hchild)) fun _ =>
        accepts_seq (accepts_ok fun _ _ => trivial) fun _ =>
        ih hchild fun x hx => hnames x (List.mem_cons_of_mem _ hx)
    refine accepts_seq (accepts_sys (safe_openDir hparent)) fun _ =>
      accepts_seq (accepts_ok fun _ _ => trivial) fun _ =>
      accepts_seq (accepts_sys hmkdir) fun made => ?_
    split
    · exact accepts_seq (accepts_sys (safe_sync hparent)) fun _ =>
        accepts_seq (accepts_ok fun _ _ => trivial) fun _ => hrest
    · exact hrest
    · exact accepts_throw id

/-- `mkdir` refuses no short name. -/
theorem accepts_mkdir_name (hname : ShortName name) :
    Accepts (fun _ => True) (Root.opened.mkdir name) := by
  refine accepts_full narrow_opened (.inr hname) ?_
  rw [Root.utf8_joined, opened_pathOf, List.splitOn_eq_singleton hname.1.2.1]
  refine accepts_mkdirFrom (.inl rfl) fun n hn => ?_
  obtain rfl : n = name.utf8 := List.mem_singleton.mp (List.mem_filter.mp hn).1
  exact ⟨hname.1, ⟨name, rfl⟩, hname.2⟩

section
variable [Sha256] {size : Nat} {hash : Hash}

omit [Sha256] in
/-- The loop that fills a staged file refuses no path. -/
theorem accepts_stageLoop {seen : Bytes} {blocks : List Bytes} :
    Accepts (fun _ => True) (stageLoop path size seen blocks) := by
  induction blocks generalizing seen with
  | nil => exact accepts_pure trivial
  | cons block rest ih =>
    refine accepts_check id fun _ => ?_
    have hwrite : (FsCall.write block).Safe .plain := safe_quiet trivial fun _ _ _ h => h
    exact accepts_seq (accepts_sys hwrite) fun _ =>
      accepts_seq (accepts_ok fun _ _ => trivial) fun _ => ih

omit [Sha256] in
/-- Dropping a staged file refuses no path. -/
theorem accepts_drop {staged : Staged} (hdir : Rooted staged.dir) :
    Accepts (fun _ => True) staged.drop :=
  accepts_seq (accepts_sys (c := .dropTemp _)
    (safe_stamps hdir Effect.plain_stamps fun _ _ _ h => h)) fun _ => accepts_pure trivial

/-- A record is staged beside the place it is for. -/
theorem accepts_stageContent {blocks : List Bytes} (hroot : root.Narrow) (hname : ShortName name) :
    Accepts (fun staged => staged = ⟨root.base.utf8, name.utf8⟩)
      (root.stageContent name blocks size hash) := by
  have hbase : Rooted root.base.utf8 := root.clean.imp String.utf8_eq_nil.mpr id
  have hfill : Accepts (fun _ => True) (fillTemp name blocks size (some hash) none) := by
    refine accepts_seq accepts_stageLoop fun seen => ?_
    refine accepts_check id fun _ => accepts_check id fun _ => ?_
    refine accepts_seq (accepts_pure trivial) fun _ => ?_
    exact accepts_unit (c := .syncTemp) (safe_quiet trivial fun _ _ _ h => h)
  refine accepts_bind (accepts_parent hroot hname) fun r hr => ?_
  rw [hr]
  refine accepts_seq (accepts_sys (c := .createTemp _)
    (safe_stamps hbase Effect.plain_stamps fun _ _ _ h => h)) fun _ => ?_
  refine accepts_seq (accepts_ok fun _ _ => trivial) fun _ => ?_
  exact accepts_seq (accepts_onError hfill (accepts_drop hbase)) fun _ => accepts_pure rfl

/-- The record of a transfer is renamed into place. Where a directory has its name the rename
fails with `Io`. -/
theorem accepts_writeActivity {seconds : Nat} (hroot : root.Narrow) :
    Accepts (fun _ => True) (writeActivity root seconds) := by
  have hname : ShortName "activity" := by
    constructor <;> decide
  have hbase : Rooted root.base.utf8 := root.clean.imp String.utf8_eq_nil.mpr id
  refine accepts_bind (accepts_stageContent hroot hname) fun staged hstaged => ?_
  rw [hstaged]
  -- The record goes to the directory of the transfer, under its own short name.
  have hrename : (FsCall.rename root.base.utf8 "activity".utf8).Safe .plain := by
    refine ⟨⟨hbase, hname.1⟩, fun q old new hmay => ?_⟩
    rcases hmay with ⟨rfl, h⟩ | ⟨rfl, hold, n, data, rfl, hb⟩
    · exact Effect.plain_stamps old new h
    · have hlast : baseName (join root.base.utf8 "activity".utf8) = "activity".utf8 :=
        baseName_join_name hname.1
      refine Effect.plain_puts ⟨"activity", hlast.symm⟩ ?_ old n data hold hb
      rw [hlast]
      exact hname.2
  have hcommit : Accepts (fun _ => True) (Staged.commit ⟨root.base.utf8, "activity".utf8⟩) :=
    accepts_seq (accepts_sys hrename) fun _ => accepts_seq (accepts_ok fun _ _ => trivial) fun _ =>
      accepts_unit (c := .sync _) (safe_sync hbase)
  refine accepts_bind (accepts_attempt hcommit) fun r hr => ?_
  exact accepts_seq (accepts_drop hbase) fun _ => accepts_lift hr

end

end

/-! ### What a transfer directory holds -/

section
variable {root : Root} {key : String} {hk : keyName key = true}

/-- A number that is no number is a panic, not a refused path. -/
theorem taken_fromHex {b : Bytes} : Taken (fun _ => True) (fromHex b) := by
  unfold fromHex
  cases b.mapM hexValue? with
  | some digits => trivial
  | none => exact id

/-- An object that is no chunk is reported as one the cache cannot use, not as a path. -/
theorem taken_shardBytes {shard bytes : Nat} {child : String × Metadata} :
    Taken (fun _ => True) (shardBytes shard bytes child) := by
  -- whatever the name says of the chunk, the checks after it fail with other errors
  have hrest : ∀ valid : Bool, Taken (fun _ => True) (do
      if !child.2.isFile || !(valid || staging child.1) then
        throw (.config "unexpected object in chunk shard")
      if 2 ^ 64 ≤ bytes + child.2.len then throw (.config "cache size overflow")
      pure (bytes + child.2.len) : Except Error Nat) := by
    intro valid
    by_cases hbad : (!child.2.isFile || !(valid || staging child.1)) = true
    · rw [if_pos hbad]
      exact id
    rw [if_neg hbad]
    by_cases hbig : 2 ^ 64 ≤ bytes + child.2.len
    · show Taken _ (if _ then _ else _)
      rw [if_pos hbig]
      exact id
    · show Taken _ (if _ then _ else _)
      rw [if_neg hbig]
      trivial
  unfold shardBytes
  by_cases hchunk : chunkName child.1 = true
  · rw [if_pos hchunk]
    have hindex := @taken_fromHex (child.1.utf8.take 8)
    cases hx : fromHex (child.1.utf8.take 8) with
    | ok index => exact hrest _
    | error e =>
      rw [hx] at hindex
      exact hindex
  · rw [if_neg hchunk]
    exact hrest false

/-- `payload_bytes` refuses no path: what is strange is an error of the configuration. -/
theorem accepts_payloadBytes (hroot : root.Narrow) :
    Accepts (fun _ => True) (payloadBytes root) := by
  refine accepts_bind (accepts_children hroot (.inl rfl)) fun out hout => ?_
  refine accepts_foldlM trivial fun child hchild bytes _ => ?_
  refine accepts_ite (fun _ => accepts_pure trivial) fun _ =>
    accepts_ite (fun _ => accepts_pure trivial) fun _ => accepts_check id fun _ => ?_
  refine accepts_seq (accepts_lift taken_fromHex) fun shard => ?_
  refine accepts_bind (accepts_children hroot (.inr (hout child hchild))) fun files _ => ?_
  exact accepts_foldlM trivial fun _ _ _ _ => accepts_lift taken_shardBytes

/-- Nothing that `payload_bytes` accepts is a directory in the place of the record: a directory
must be a shard, and `activity` is not eight hexadecimal digits. -/
theorem activity_of_payload {w : Disk} {b : Nat} {n : Node}
    (h : ((payloadBytes (transferRoot key hk)).run exec w).1 = .ok b)
    (hn : w.tree.get (join key.utf8 "activity".utf8) = some n) : n.body ≠ .directory := by
  have hd : w.tree.IsDir key.utf8 := Tree.isDir_dirName (join_name_ne_nil (by decide)) hn |>
    (dirName_join_name (d := key.utf8) (n := "activity".utf8) (by decide) ▸ ·)
  rw [run_payloadBytes hd] at h
  obtain ⟨out, hout, hturns⟩ := bind_eq_ok.mp h
  obtain ⟨c, hc, hname, hmeta⟩ := (Tree.children_of_listing hout).listed _ n (by decide) hn
  have hname : c.1 = "activity" := String.utf8_inj.mp hname
  obtain ⟨_, _, hturn⟩ := foldlM_turns hturns c hc
  intro hdir
  rcases stowedEntry_ok hturn with hfile | ⟨-, hshard, -⟩
  · rw [hmeta, isFile_metadata, hdir] at hfile
    cases hfile
  · rw [hname] at hshard
    exact absurd hshard (by decide)

/-- The record is read after `payload_bytes` has looked at everything beside it. -/
theorem accepts_readActivity {α : Type} {R : α → Prop} {k : Option Nat → FsM α}
    (hk' : ∀ a, Accepts R (k a)) : Accepts R (do
      let _ ← payloadBytes (transferRoot key hk)
      let activity ← readActivity (transferRoot key hk)
      k activity) := by
  have hname : ShortName "activity" := by
    constructor <;> decide
  have htakes := (narrow_transfer hk).takes hname
  rw [← bind_assoc]
  refine accepts_bind (Q := fun _ => True) ?_ fun a _ => hk' a
  intro w hw
  obtain ⟨-, hpayload⟩ := accepts_payloadBytes (narrow_transfer hk) w hw
  rw [Prog.run_bind, (quiet_of_reads calls_payloadBytes).run_eq]
  cases hr : ((payloadBytes (transferRoot key hk)).run exec w).1 with
  | error e =>
    rw [hr] at hpayload
    exact ⟨hw, hpayload⟩
  | ok b =>
    show ((readActivity (transferRoot key hk)).run exec w).2.tree.Plain ∧ _
    rw [(quiet_of_reads calls_readActivity).run_snd]
    refine ⟨hw, ?_⟩
    -- `payload_bytes` has seen that the record is no directory, and nothing is special
    have hopen : Taken (fun _ => True)
        (((transferRoot key hk).openFile "activity").run exec w).1 := by
      unfold Root.openFile
      rw [htakes.full]
      show Taken _ ((ok (w.tree.find _ >>= fun n =>
        if n.body = .symlink then throw .symlinkLoop >>= fun _ => pure (n.metadata, n.body.data)
        else pure (n.metadata, n.body.data)) >>= fun f => _ : FsM _).run exec w).1
      rw [Root.utf8_joined]
      cases hfind : w.tree.find ((transferRoot key hk).pathOf "activity") with
      | error e => exact id
      | ok n =>
        have hn := Tree.find_ok.mp hfind
        have hdir := activity_of_payload hr hn
        have hplain := hw _ n (join_name_ne_nil hname.1) hn
        obtain ⟨body, time, tag⟩ := n
        cases body with
        | file data => trivial
        | directory => exact absurd rfl hdir
        | symlink => exact id
        | special => exact absurd rfl hplain.common
    unfold readActivity
    rw [(Prog.quiet_attempt (quiet_of_reads calls_openFile)).run_bind_fst, Prog.run_attempt]
    cases hx : (((transferRoot key hk).openFile "activity").run exec w).1 with
    | ok f =>
      show Taken _ ((if _ then _ else _ : FsM (Option Nat)).run exec w).1
      split_ifs <;> trivial
    | error e =>
      rw [hx] at hopen
      cases e with
      | io kind text => cases kind <;> trivial
      | invalidPath p => exact absurd trivial hopen
      | _ => exact id

/-- `remove_payload` refuses no path. -/
theorem accepts_removePayload (hroot : root.Narrow) :
    Accepts (fun _ => True) (removePayload root) := by
  refine accepts_bind (accepts_children hroot (.inl rfl)) fun out hout => ?_
  refine accepts_bind (Q := fun names => ∀ n ∈ names, ShortName n) ?_ fun names hnames => ?_
  · refine accepts_foldlM (fun n hn => by cases hn) fun child hchild names hnames => ?_
    have hname := hout child hchild
    refine accepts_ite (fun _ => accepts_pure hnames) fun _ => accepts_ite (fun _ => ?_) fun _ => ?_
    · refine accepts_bind (accepts_children hroot (.inr hname)) fun files hfiles => ?_
      refine accepts_seq (accepts_removeFiles hroot (.inr hname) fun n hn => ?_) fun _ =>
        accepts_seq (accepts_remove hroot hname) fun _ => accepts_pure hnames
      obtain ⟨c, hc, rfl⟩ := List.mem_map.mp hn
      exact hfiles c hc
    · refine accepts_pure fun n hn => ?_
      rcases List.mem_append.mp hn with hn | hn
      · exact hnames n hn
      · rw [List.mem_singleton.mp hn]
        exact hname
  · exact accepts_ite (fun _ => accepts_removeFiles hroot (.inl rfl) hnames)
      fun _ => accepts_pure trivial

end

/-! ### Opening a store -/

section
variable [Sha256] {key : String} {limits : Limits} {retention seconds : Nat}

omit [Sha256] in
/-- A key is a short name. -/
theorem shortName_key (hk : keyName key = true) : ShortName key :=
  ⟨keyName_nameOk hk, by rw [keyName_length hk]; decide⟩

omit [Sha256] in
/-- The clock refuses no path. -/
theorem accepts_now : Accepts (fun _ => True) now := by
  refine accepts_seq (accepts_sys (c := .seconds) (safe_quiet trivial fun _ _ _ h => h)) fun r => ?_
  cases r with
  | some seconds => exact accepts_pure trivial
  | none => exact accepts_throw id

/-- One transfer directory that may have expired. -/
theorem accepts_expireEntry {child : String × Metadata} :
    Accepts (fun _ => True) (expireEntry .opened key retention seconds child) := by
  have hlock : ShortName "lock" := by
    constructor <;> decide
  have hactivity : ShortName "activity" := by
    constructor <;> decide
  refine accepts_ite (fun _ => accepts_pure trivial) fun _ => accepts_check id fun hc => ?_
  -- The check of the name has passed, so the directory of the transfer can be entered.
  have hkey : keyName child.1 = true := by
    cases hx : keyName child.1 with
    | true => rfl
    | false => exact absurd (by simp [hx]) hc
  have hroot := narrow_transfer hkey
  refine accepts_pass (subtree_key hkey) ?_
  refine accepts_seq (accepts_lockState hroot hlock) fun _ => accepts_readActivity fun activity => ?_
  cases activity with
  | none => exact accepts_writeActivity hroot
  | some last =>
    refine accepts_ite (fun _ => accepts_pure trivial) fun _ => ?_
    refine accepts_seq (accepts_removePayload hroot) fun _ => ?_
    refine accepts_seq (accepts_remove hroot hactivity) fun _ => ?_
    exact accepts_seq (accepts_remove hroot hlock) fun _ =>
      accepts_remove narrow_opened (shortName_key hkey)

namespace Store

variable {store : Store} {d : Description} {scope : Hash}

/-- The quota checks of `open_limited`. -/
theorem accepts_admission : Accepts (fun _ => True) (admission .opened key limits) := by
  have hlock : ShortName "cache.lock" := by
    constructor <;> decide
  -- What is counted after the lock is taken and what has expired is removed.
  have hrest : Accepts (fun _ => True) (do
      let usage ← (← Root.opened.children "").foldlM (usageEntry .opened key) (0, false, 0)
      if limits.maxTransfers < usage.1 + (if usage.2.1 then 0 else 1) ||
          limits.maxBytes < usage.2.2 then
        throw (.config "chunk cache quota exceeded; clean stale state while all users are stopped")
      pure usage.2.2 : FsM Nat) := by
    refine accepts_bind (accepts_children narrow_opened (.inl rfl)) fun out _ => ?_
    refine accepts_seq (accepts_foldlM trivial fun child _ usage _ => ?_) fun usage =>
      accepts_check id fun _ => accepts_pure trivial
    refine accepts_ite (fun _ => accepts_pure trivial) fun _ => accepts_check id fun hc => ?_
    have hkey : keyName child.1 = true := by
      cases hx : keyName child.1 with
      | true => rfl
      | false => exact absurd (by simp [hx]) hc
    refine accepts_pass (subtree_key hkey) ?_
    refine accepts_seq (accepts_payloadBytes (narrow_transfer hkey)) fun bytes => ?_
    exact accepts_check id fun _ => accepts_pure trivial
  refine accepts_seq (accepts_lockState narrow_opened hlock) fun _ => accepts_ite (fun _ => ?_)
    fun _ => hrest
  refine accepts_seq accepts_now fun seconds => accepts_seq ?_ fun _ => hrest
  refine accepts_bind (accepts_children narrow_opened (.inl rfl)) fun out _ => ?_
  exact accepts_forM fun child _ => accepts_expireEntry

/-- Making and locking the transfer directory. -/
theorem accepts_openLocked : Accepts (fun s => s.root.base = d.key scope)
    (openLocked .opened scope d) := by
  have hlock : ShortName "lock" := by
    constructor <;> decide
  have hkey := keyName_key d scope
  have hroot := narrow_transfer hkey
  refine accepts_seq (accepts_mkdir_name (shortName_key hkey)) fun _ => ?_
  refine accepts_pass (subtree_key hkey) ?_
  refine accepts_seq (accepts_lockState hroot hlock) fun _ => ?_
  refine accepts_seq accepts_now fun seconds => ?_
  exact accepts_seq (accepts_writeActivity hroot) fun _ => accepts_pure rfl

/-- Opening a store refuses no path. -/
theorem accepts_openShared : Accepts (fun _ => True) (openShared .opened scope d) := by
  have hlock : ShortName "cache.lock" := by
    constructor <;> decide
  exact accepts_seq (accepts_lockState narrow_opened hlock) fun _ =>
    accepts_openLocked.imp fun _ _ => trivial

/-- Dropping a store refuses no path. -/
theorem accepts_drop (hroot : store.root.Narrow) : Accepts (fun _ => True) (store.drop : FsM Unit) := by
  have htouch : Accepts (fun _ => True) store.touch :=
    accepts_seq accepts_now fun seconds => accepts_ite
      (fun _ => accepts_seq (accepts_writeActivity hroot) fun _ => accepts_pure trivial)
      fun _ => accepts_pure trivial
  exact accepts_seq ((accepts_attempt htouch).imp fun _ _ => trivial) fun _ => accepts_pure trivial

omit [Sha256] in
/-- Looking a chunk up. Its name is valid by construction, so only `Io` can come of it. -/
theorem accepts_neededFor {needed index : Nat} (hroot : store.root.Narrow) :
    Accepts (fun _ => True) (neededFor store d needed index) := by
  -- the name of a chunk is short, so it fits below the directory of the transfer
  have hmetadata : Accepts (fun _ => True) (store.root.metadata (chunkString index)) := by
    have hfull : store.root.full (chunkString index)
        = .ok (store.root.joined (chunkString index)) := by
      refine store.root.full_ok.mpr ⟨fun _ => validate_chunkString index, ?_, rfl⟩
      have hle : (store.root.pathOf (chunkString index)).length
          ≤ store.root.base.utf8.length + 1 + (chunkString index).utf8.length :=
        Root.length_pathOf_le
      have hbase : store.root.base.utf8.length ≤ 64 := hroot
      have hlen := length_chunkString index
      show _ ≤ 4096
      omega
    refine accepts_pass hfull ?_
    exact accepts_unit (c := .stat _) (FsCall.Reads.safe (c := .stat _) (Root.full_rooted hfull))
  have hexists : Accepts (fun _ => True) (store.root.exists? (chunkString index)) := by
    refine accepts_bind (accepts_attempt hmetadata) fun r hr => ?_
    split
    · exact accepts_pure trivial
    · exact accepts_pure trivial
    · exact accepts_throw hr
  by_cases hi : index < d.chunkCount
  · refine accepts_pass (name_eq.trans (if_pos hi)) ?_
    refine accepts_pass (Description.length_eq.trans (if_pos hi)) ?_
    refine accepts_seq hexists fun found => ?_
    refine accepts_ite (fun _ => accepts_pure trivial) fun _ => ?_
    exact accepts_seq hmetadata fun _ => accepts_pure trivial
  · unfold neededFor
    rw [name_eq, if_neg hi]
    exact accepts_throw id

/-- Opening a store within limits refuses no path, whatever it has to evict. -/
theorem accepts_openLimited : Accepts (fun _ => True) (openLimited .opened scope d limits) := by
  refine accepts_seq accepts_admission fun bytes => ?_
  refine accepts_bind accepts_openLocked fun store hstore => ?_
  have hroot : store.root.Narrow := by
    unfold Root.Narrow
    rw [hstore]
    exact Nat.le_of_eq (keyName_length (keyName_key d scope))
  refine accepts_seq (accepts_onError ?_ (accepts_drop hroot)) fun _ => accepts_pure trivial
  refine accepts_pass Description.chunks_eq ?_
  refine accepts_seq (accepts_foldlM trivial fun _ _ _ _ => accepts_neededFor hroot) fun needed => ?_
  exact accepts_ite (fun _ => accepts_throw id) fun _ => accepts_pure trivial

end Store

end

end RrSync

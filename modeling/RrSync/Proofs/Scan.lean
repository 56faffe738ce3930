import RrSync.Proofs.Layout

/-!
# `RrSync.Proofs.Scan`: what a scan finds

A scan only looks, so its result is a function of the tree. `scan_sound` says that a scan
that succeeds returns a valid manifest that mirrors the tree, with the stamp of every
object.

`Covers` is the invariant of the walk: the entries and stamps that a part of the walk has
added are those of the objects whose paths satisfy `P`.
-/

set_option autoImplicit false

namespace RrSync

open Lib

/-! ### The objects in a directory -/

section
variable {t : Tree} {d n : Path}

/-- An object is its last name joined to its parent. -/
theorem Tree.join_of_dirName {p : Path} {node : Node} (hp : p ≠ []) (hn : t.get p = some node) :
    join (dirName p) (baseName p) = p := (Tree.cleanPath hp hn).join_dirName

/-- The last name of a joined name. -/
theorem baseName_join_name (hn : NameOk n) : baseName (join d n) = n :=
  SepPath.baseName_join_name d hn.1 hn.2.1

/-- A joined name is not the root. -/
theorem join_name_ne_nil (hn : NameOk n) : join d n ≠ [] := fun h =>
  hn.1 (SepPath.join_eq_nil.mp h).2

/-- The entries of a directory are the objects in it. -/
theorem Tree.mem_entries {x : {n : Path // NameOk n} × Metadata} : x ∈ t.entries d ↔
    ∃ node, t.get (join d x.1.1) = some node ∧ node.metadata = x.2 := by
  unfold Tree.entries
  rw [List.mem_filterMap]
  constructor
  -- An object directly in the directory gives its last component.
  · rintro ⟨p, -, h⟩
    split at h
    · next hp =>
      split at h
      · next node hnode =>
        obtain rfl := Option.some.inj h
        refine ⟨node, ?_, rfl⟩
        have hj := Tree.join_of_dirName hp.1 hnode
        rw [hp.2] at hj
        exact (congrArg t.get hj).trans hnode
      · cases h
    · cases h
  · rintro ⟨node, hnode, hm⟩
    have hp : join d x.1.1 ≠ [] ∧ dirName (join d x.1.1) = d :=
      ⟨join_name_ne_nil x.1.2, dirName_join_name x.1.2⟩
    refine ⟨join d x.1.1, Tree.mem_keys.mpr ⟨node, hnode⟩, ?_⟩
    rw [dif_pos hp]
    split
    · next node' hnode' =>
      obtain rfl := Option.some.inj (hnode'.symm.trans hnode)
      exact congrArg some (Prod.ext (Subtype.ext (baseName_join_name x.1.2)) hm)
    · next hnone =>
      rw [show t.nodes.lookup (join d x.1.1) = some node from hnode] at hnone
      cases hnone

/-- No name occurs twice in a directory. -/
theorem Tree.path_of_entry {p : Path} {x : {n : Path // NameOk n} × Metadata}
    (hx : t.entry d p = some x) : p = join d x.1.1 := by
  unfold Tree.entry at hx
  split at hx
  · next hp =>
    split at hx
    · next node hnode =>
      obtain rfl := Option.some.inj hx
      exact (hp.2 ▸ Tree.join_of_dirName hp.1 hnode).symm
    · cases hx
  · cases hx

/-- A directory has no name twice. -/
theorem Tree.entries_nodup : (t.entries d).Pairwise fun a b => a.1.1 ≠ b.1.1 := by
  rw [Tree.entries_eq, List.pairwise_filterMap]
  refine (AList.keys_nodup t.nodes).imp ?_
  intro p q hpq x hx y hy he
  have hp := Tree.path_of_entry hx
  have hq := Tree.path_of_entry hy
  exact hpq (hp.trans ((congrArg (join d) he).trans hq.symm))

end

/-- `collect` decodes the names and keeps everything else. -/
theorem collect_ok {xs : List ({n : Path // NameOk n} × Metadata)}
    {out r : List (String × Metadata)} (h : Root.collect xs out = .ok r) :
    ∃ ys, r = out ++ ys ∧ List.Forall₂ (fun x y => y.1.utf8 = x.1.1 ∧ y.2 = x.2) xs ys := by
  induction xs generalizing out with
  | nil =>
    obtain rfl := pure_eq_ok.mp h
    exact ⟨[], by simp, List.Forall₂.nil⟩
  | cons x xs ih =>
    unfold Root.collect at h
    split at h
    · cases h
    · next name hname =>
      simp only [ite_throw_eq_ok] at h
      obtain ⟨ys, rfl, hys⟩ := ih h.2
      exact ⟨(name, x.2) :: ys, by simp, List.Forall₂.cons ⟨ofUtf8?_eq_some.mp hname, rfl⟩ hys⟩

/-- The loop of `children` accepts names that are UTF-8 and not too many. -/
theorem collect_succeeds {xs : List ({n : Path // NameOk n} × Metadata)}
    (out : List (String × Metadata)) (hnames : ∀ x ∈ xs, ∃ s : String, s.utf8 = x.1.1)
    (hlen : out.length + xs.length ≤ maxEntries) : ∃ r, Root.collect xs out = .ok r := by
  induction xs generalizing out with
  | nil => exact ⟨out, rfl⟩
  | cons x xs ih =>
    obtain ⟨s, hs⟩ := hnames x List.mem_cons_self
    -- The accumulator has one entry more, and the rest one less.
    obtain ⟨r, hr⟩ := ih (out ++ [(s, x.2)])
      (fun y hy => hnames y (List.mem_cons_of_mem _ hy)) (by
        rw [List.length_append, List.length_singleton]
        rw [List.length_cons] at hlen
        omega)
    refine ⟨r, ?_⟩
    unfold Root.collect
    rw [ofUtf8?_eq_some.mpr hs]
    simp only
    rw [if_neg, hr]
    rw [List.length_append, List.length_singleton]
    rw [List.length_cons] at hlen
    omega

section
variable {w : Disk} {root : Root} {path : String}

/-- The children of a directory: the objects in it, by their names. -/
structure Children (t : Tree) (d : Path) (out : List (String × Metadata)) : Prop where
  there : ∀ c ∈ out, NameOk c.1.utf8 ∧ ∃ node, t.get (join d c.1.utf8) = some node ∧
    node.metadata = c.2
  listed : ∀ n node, NameOk n → t.get (join d n) = some node →
    ∃ c ∈ out, c.1.utf8 = n ∧ c.2 = node.metadata
  nodup : out.Pairwise fun a b => a.1 ≠ b.1

/-- What the loop collects are the children, and sorting them makes no difference to that. -/
theorem children_of_collect {t : Tree} {d : Path} {ys : List (String × Metadata)}
    (h : List.Forall₂ (fun x y => y.1.utf8 = x.1.1 ∧ y.2 = x.2) (t.entries d) ys) :
    Children t d (ys.insertionSort fun a b => a.1.utf8 ≤ b.1.utf8) := by
  -- Sorting changes only the order, so each listed child is an object of the directory.
  have hperm := List.perm_insertionSort
    (fun a b : String × Metadata => a.1.utf8 ≤ b.1.utf8) ys
  refine ⟨fun c hc => ?_, fun n node hn hnode => ?_, ?_⟩
  · obtain ⟨i, hi, rfl⟩ := List.getElem_of_mem (hperm.mem_iff.mp hc)
    obtain ⟨hl, hg⟩ := List.forall₂_iff_get.mp h
    have hi' : i < (t.entries d).length := hl ▸ hi
    obtain ⟨h1, h2⟩ := hg i hi' hi
    simp only [List.get_eq_getElem] at h1 h2
    obtain ⟨node, hnode, hmeta⟩ := Tree.mem_entries.mp (List.getElem_mem hi')
    rw [h1]
    exact ⟨((t.entries d)[i]).1.2, node, hnode, hmeta.trans h2.symm⟩
  -- And each object of the directory was collected.
  · have hx : ((⟨n, hn⟩, node.metadata) : {n : Path // NameOk n} × Metadata) ∈ t.entries d :=
      Tree.mem_entries.mpr ⟨node, hnode, rfl⟩
    obtain ⟨hl, hg⟩ := List.forall₂_iff_get.mp h
    obtain ⟨i, hi, hxi⟩ := List.getElem_of_mem hx
    have hi' : i < ys.length := hl ▸ hi
    obtain ⟨h1, h2⟩ := hg i hi hi'
    simp only [List.get_eq_getElem, hxi] at h1 h2
    exact ⟨ys[i], hperm.mem_iff.mpr (List.getElem_mem hi'), h1, h2⟩
  -- The names differ, since the directory lists each name once.
  · refine List.Pairwise.perm ?_ hperm.symm fun h => Ne.symm h
    obtain ⟨hl, hg⟩ := List.forall₂_iff_get.mp h
    refine List.pairwise_iff_getElem.mpr fun i j hi hj hij heq => ?_
    have hne := List.pairwise_iff_getElem.mp (Tree.entries_nodup (t := t) (d := d)) i j (hl ▸ hi)
      (hl ▸ hj) hij
    have h1 := (hg i (hl ▸ hi) hi).1
    have h2 := (hg j (hl ▸ hj) hj).1
    simp only [List.get_eq_getElem] at h1 h2
    exact hne (h1.symm.trans ((congrArg String.utf8 heq).trans h2))

/-- The run of `children`. -/
theorem run_children {s : String} (hs : root.full path = .ok s) :
    ((root.children path).run exec w).1 = (do
      match w.tree.openDir (root.pathOf path) with
      | .ok _ =>
        let out ← Root.collect (w.tree.entries (root.pathOf path)) []
        pure (out.insertionSort fun a b => a.1.utf8 ≤ b.1.utf8)
      | .error e => throw e.toError) := by
  unfold Root.children
  rw [hs, ← Root.full_utf8 hs]
  show ((sys (.readDir s.utf8) >>= _ : FsM _).run exec w).1 = _
  rw [Prog.run_bind, run_sys]
  show ((ok (do w.tree.openDir s.utf8; pure (w.tree.entries s.utf8)) >>= _ : FsM _).run exec w).1 = _
  cases w.tree.openDir s.utf8 with
  | error e => rfl
  | ok u =>
    show ((liftM (Root.collect (w.tree.entries s.utf8) []) >>= _ : FsM _).run exec w).1 = _
    cases Root.collect (w.tree.entries s.utf8) [] <;> rfl

/-- When `children` returns, the directory is there and its children are listed. -/
theorem children_ok {out : List (String × Metadata)}
    (h : ((root.children path).run exec w).1 = .ok out) :
    (∃ s, root.full path = .ok s) ∧ w.tree.IsDir (root.pathOf path) ∧
      Children w.tree (root.pathOf path) out := by
  cases hs : root.full path with
  | error e =>
    unfold Root.children at h
    rw [hs] at h
    cases h
  | ok s =>
    rw [run_children hs] at h
    -- The directory is opened before it is listed.
    cases ho : w.tree.openDir (root.pathOf path) with
    | error e =>
      rw [ho] at h
      cases h
    | ok u =>
      rw [ho] at h
      simp only [bind_eq_ok, pure_eq_ok] at h
      obtain ⟨ys, hys, rfl⟩ := h
      obtain ⟨zs, rfl, hzs⟩ := collect_ok hys
      exact ⟨⟨s, rfl⟩, Tree.openDir_ok.mp ho, children_of_collect hzs⟩

/-- `open_file` returns a regular file that is at the path. -/
theorem openFile_ok {f : Metadata × Bytes} : ((root.openFile path).run exec w).1 = .ok f ↔
    (∃ s, root.full path = .ok s) ∧ ∃ n, w.tree.get (root.pathOf path) = some n ∧
      n.body.type = .file ∧ (n.metadata, n.body.data) = f := by
  -- A path that the root refuses is never opened.
  cases hs : root.full path with
  | error e =>
    unfold Root.openFile
    rw [hs]
    simp only [reduceCtorEq, exists_false, false_and, iff_false]
    exact fun h => by cases h
  | ok s =>
    unfold Root.openFile
    rw [hs, ← Root.full_utf8 hs]
    show ((sys (.openFile s.utf8) >>= _ : FsM _).run exec w).1 = _ ↔ _
    rw [Prog.run_bind, run_sys]
    show ((ok (do
      let n ← w.tree.find s.utf8
      if n.body = .symlink then throw .symlinkLoop
      pure (n.metadata, n.body.data)) >>= _ : FsM _).run exec w).1 = _ ↔ _
    -- Only a regular file passes the check of the type.
    cases hg : w.tree.get s.utf8 with
    | none =>
      have hf : w.tree.find s.utf8 = .error (w.tree.missing s.utf8.length s.utf8) := by
        unfold Tree.find
        rw [hg]
      rw [hf]
      simp only [reduceCtorEq, false_and, exists_false, and_false, iff_false]
      exact fun h => by cases h
    | some n =>
      rw [Tree.find_ok.mpr hg]
      rcases n with ⟨body, mtime, tag⟩
      cases body <;> simp [bind, Except.bind, pure, Except.pure, Body.type, Node.metadata,
        Metadata.isFile, ok, throw, throwThe, MonadExceptOf.throw, Errno.toError]

/-- Where nothing is, it fails with ENOENT. -/
theorem openFile_noent {s : String} (hs : root.full path = .ok s)
    (h : w.tree.find (root.pathOf path) = .error .noent) :
    ((root.openFile path).run exec w).1 = .error Errno.noent.toError := by
  have hlift : (liftM (root.full path) : FsM String).run exec w = (.ok s, w) := by
    rw [hs]
    rfl
  unfold Root.openFile
  rw [Prog.run_bind_ok hlift, Prog.run_bind_ok (run_sys _ w), Root.full_utf8 hs]
  have hf : (exec (.openFile (root.pathOf path)) w).1 = .error .noent := by
    show (do
      let n ← w.tree.find (root.pathOf path)
      if n.body = Body.symlink then throw Errno.symlinkLoop
      pure (n.metadata, n.body.data)) = _
    rw [h]
    rfl
  rw [hf]
  rfl

end

/-- The path of a child is the name joined to the directory. -/
theorem utf8_childPath {path name : String} (hn : name.utf8 ≠ []) :
    (childPath path name).utf8 = join path.utf8 name.utf8 := by
  unfold childPath
  by_cases hp : path = ""
  · rw [if_pos hp, hp, String.utf8_empty]
    exact SepPath.join_nil_left.symm
  · rw [if_neg hp, String.utf8_append, String.utf8_append, List.append_assoc]
    exact (SepPath.join_of_ne (mt String.utf8_eq_nil.mp hp) hn).symm

/-! ### What a part of the walk adds -/

section
variable [Sha256] {root : Root} {checksum : Bool} {t : Tree} {P P' : Path → Prop}
  {r r' r'' : Scan} {e : Entry} {q : Path}

/-- A scan opens the object: it walks a directory and reads a file it hashes. -/
def Opens (checksum : Bool) (kind : Kind) : Prop :=
  kind = .directory ∨ kind = .file ∧ checksum = true

/-- The entry and the stamp of an object of the tree. -/
structure Found (checksum : Bool) (root : Root) (t : Tree) (stamps : List (String × Stamp))
    (e : Entry) : Prop where
  node : ∃ n, t.get (root.pathOf e.path) = some n ∧ e.Describes checksum n ∧
    stamps.lookup e.path = some (Stamp.of n.metadata)
  path : validate e.path = .ok ()
  visible : Visible e.path.utf8
  hash : e.hash.isSome → e.kind = .file ∧ checksum = true
  full : Opens checksum e.kind → ∃ s, root.full e.path = .ok s

/-- From `r` to `r'` the objects at the paths `P` were added. -/
def Covers (checksum : Bool) (root : Root) (t : Tree) (P : Path → Prop) (r r' : Scan) : Prop :=
  ∃ new, r'.manifest.entries = r.manifest.entries ++ new ∧
    (∀ e ∈ new, P e.path.utf8 ∧ Found checksum root t r'.stamps e) ∧
    (∀ q n, P q → t.get (join root.base.utf8 q) = some n → Visible q →
      ∃ e ∈ new, e.path.utf8 = q) ∧
    new.Pairwise (fun a b => a.path ≠ b.path) ∧
    ∀ p : String, ¬ P p.utf8 → r'.stamps.lookup p = r.stamps.lookup p

/-- A part of the tree with nothing visible in it adds nothing. -/
theorem Covers.refl (hP : ∀ q n, P q → t.get (join root.base.utf8 q) = some n → ¬ Visible q) :
    Covers checksum root t P r r :=
  ⟨[], by simp, by simp, fun q n hq hn hv => absurd hv (hP q n hq hn), List.Pairwise.nil,
    fun _ _ => rfl⟩

/-- Two parts of the tree that do not meet, one after the other. -/
theorem Covers.trans (h : Covers checksum root t P r r') (h' : Covers checksum root t P' r' r'')
    (hdis : ∀ q, P q → ¬ P' q) : Covers checksum root t (fun q => P q ∨ P' q) r r'' := by
  obtain ⟨new, hnew, hfound, hall, hne, hst⟩ := h
  obtain ⟨new', hnew', hfound', hall', hne', hst'⟩ := h'
  refine ⟨new ++ new', by rw [hnew', hnew, List.append_assoc], fun e he => ?_, fun q n hq hn hv => ?_,
    List.pairwise_append.mpr ⟨hne, hne', fun a ha b hb hab => ?_⟩, fun p hp => ?_⟩
  · rcases List.mem_append.mp he with he | he
    · obtain ⟨hP, ⟨n, hn, hd, hs⟩, hpath, hvis, hhash, hfull⟩ := hfound e he
      exact ⟨Or.inl hP, ⟨n, hn, hd, (hst' _ (hdis _ hP)).trans hs⟩, hpath, hvis, hhash, hfull⟩
    · exact ⟨Or.inr (hfound' e he).1, (hfound' e he).2⟩
  · rcases hq with hq | hq
    · obtain ⟨e, he, hep⟩ := hall q n hq hn hv
      exact ⟨e, List.mem_append_left _ he, hep⟩
    · obtain ⟨e, he, hep⟩ := hall' q n hq hn hv
      exact ⟨e, List.mem_append_right _ he, hep⟩
  · exact hdis _ (hfound a ha).1 (hab ▸ (hfound' b hb).1)
  · rw [hst' p fun h => hp (Or.inr h), hst p fun h => hp (Or.inl h)]

/-- Only the visible objects at the paths count. -/
theorem Covers.imp (h : Covers checksum root t P r r') (h1 : ∀ q, P q → P' q)
    (h2 : ∀ q n, P' q → t.get (join root.base.utf8 q) = some n → Visible q → P q) :
    Covers checksum root t P' r r' := by
  obtain ⟨new, hnew, hfound, hall, hne, hst⟩ := h
  exact ⟨new, hnew, fun e he => ⟨h1 _ (hfound e he).1, (hfound e he).2⟩,
    fun q n hq hn hv => hall q n (h2 q n hq hn hv) hn hv, hne, fun p hp => hst p fun h => hp (h1 _ h)⟩

/-! ### The walk -/

/-- The path of an object in the directory `d`, at any depth. -/
def Inside (d q : Path) : Prop := q ≠ [] ∧ (d = [] ∨ Below q d ∧ q ≠ d)

omit [Sha256] in
/-- The path of a child below the root of the scan. -/
theorem pathOf_childPath {path name : String} (hn : name.utf8 ≠ []) :
    root.pathOf (childPath path name) = join (root.pathOf path) name.utf8 := by
  unfold Root.pathOf
  rw [utf8_childPath hn]
  exact SepPath.join_assoc.symm

omit [Sha256] in
/-- What is at or below a child is inside the directory. -/
theorem inside_of_below_child {d n : Path} (hn : NameOk n) (hb : Below q (join d n)) :
    Inside d q := by
  refine ⟨fun h0 => join_name_ne_nil hn (SepPath.below_nil (h0 ▸ hb)), ?_⟩
  by_cases hd : d = []
  · exact Or.inl hd
  · have h1 : Below (join d n) d := SepPath.below_join_left hd
    refine Or.inr ⟨hb.trans h1, fun h0 => ?_⟩
    have h2 := (h0 ▸ hb : Below d (join d n)).antisymm h1
    exact hn.1 (SepPath.join_injective d (h2.symm.trans SepPath.join_nil_right.symm))

omit [Sha256] in
/-- On the way from a directory to an object in it there is an object right in the
directory. -/
theorem Inside.step {d : Path} (h : Inside d q) {n : Node}
    (hn : t.get (join root.base.utf8 q) = some n) : ∃ c m, NameOk (baseName c) ∧
      join d (baseName c) = c ∧ t.get (join root.base.utf8 c) = some m ∧ Below q c := by
  induction hl : q.length using Nat.strongRecOn generalizing q n with
  | ind k ih =>
    have hne : join root.base.utf8 q ≠ [] := fun h0 => h.1 (SepPath.join_eq_nil.mp h0).2
    -- The path below the base is clean, as the whole path on the disk is.
    have hclean : CleanPath q := by
      have h1 := Tree.cleanPath hne hn
      by_cases hb : root.base.utf8 = []
      · rw [hb] at h1
        exact (SepPath.join_nil_left (b := q)) ▸ h1
      · rw [show join root.base.utf8 q = root.base.utf8 ++ slash :: q from
          SepPath.join_of_ne hb h.1] at h1
        exact (SepPath.clean_append_sep.mp h1).2
    by_cases hd : dirName q = d
    · exact ⟨q, n, SepPath.Clean.baseName hclean, hd ▸ hclean.join_dirName, hn, SepPath.Below.refl⟩
    · -- The parent is inside `d` too, since it is not `d` itself.
      have hslash : slash ∈ q := by
        rcases h.2 with h0 | ⟨hb, hqd⟩
        · by_contra hs
          exact hd (((SepPath.dirName_eq_nil not_nameOk_nil hclean).mpr hs).trans h0.symm)
        · exact hb.sep_mem hqd
      have hinside : Inside d (dirName q) := by
        refine ⟨(SepPath.Clean.dirName hslash hclean).ne_nil not_nameOk_nil, ?_⟩
        rcases h.2 with h0 | ⟨hb, hqd⟩
        · exact Or.inl h0
        · exact Or.inr ⟨hb.dirName hqd, hd⟩
      have hdir : dirName (join root.base.utf8 q) = join root.base.utf8 (dirName q) :=
        SepPath.dirName_join not_nameOk_nil hclean
      obtain ⟨m, hm, -⟩ := Tree.isDir_dirName hne hn
      rw [hdir] at hm
      obtain ⟨c, m', hc, hj, hcm, hb⟩ := ih _ (hl ▸ SepPath.length_dirName_lt h.1) hinside hm rfl
      exact ⟨c, m', hc, hj, hcm, (SepPath.below_dirName hslash).trans hb⟩

section
variable {w : Disk} {path child : String} {m : Metadata} {n : Node}
  {descend : String → Scan → FsM Scan}

/-- The hash of a file is that of its content, and is only taken when it is wanted. -/
theorem hashFound_ok {wanted : Bool} {hash : Option Hash}
    (h : ((hashFound root child m wanted).run exec w).1 = .ok hash)
    (hn : w.tree.get (root.pathOf child) = some n) :
    (hash = if wanted then some (digest n.body.data) else none) ∧
      (wanted = true → ∃ s, root.full child = .ok s) := by
  unfold hashFound at h
  split at h
  · next hw =>
    rw [if_pos hw]
    rw [(quiet_of_reads calls_openFile).run_bind_fst, bind_eq_ok] at h
    obtain ⟨f, hf, h⟩ := h
    obtain ⟨hfull, n', hn', -, rfl⟩ := openFile_ok.mp hf
    obtain rfl := Option.some.inj (hn'.symm.trans hn)
    -- The stamp is compared after the file was opened. It must be the one of the listing.
    by_cases hst : Stamp.of n'.metadata = Stamp.of m
    · rw [if_neg (not_not.mpr hst)] at h
      exact ⟨(Except.ok.inj h).symm, fun _ => hfull⟩
    · rw [if_pos hst] at h
      cases h
  · next hw =>
    rw [if_neg hw]
    exact ⟨(Except.ok.inj h).symm, fun h => absurd h hw⟩

/-- What the walk makes of a child. -/
def scanned (child : String) (m : Metadata) (hash : Option Hash) : Entry :=
  ⟨child, kindOf child m, if kindOf child m = .file then m.len else 0, m.mtime.sec, m.mtime.ns, hash⟩

/-- One more entry with its stamp. -/
def Scan.add (r : Scan) (e : Entry) (stamp : Stamp) : Scan :=
  ⟨⟨r.manifest.entries ++ [e]⟩, (e.path, stamp) :: r.stamps⟩

omit [Sha256] in
/-- The unit value is the only one. -/
theorem exists_unique_unit {p : Unit → Prop} : (∃ u, p u) ↔ p () :=
  ⟨fun ⟨_, h⟩ => h, fun h => ⟨(), h⟩⟩

/-- One turn of the loop of `walk`. -/
theorem visit_ok {c : String × Metadata} :
    ((visit root path checksum descend r c).run exec w).1 = .ok r' ↔
      validate (childPath path c.1) = .ok () ∧ ∃ hash,
        ((hashFound root (childPath path c.1) c.2
          (kindOf (childPath path c.1) c.2 = .file && checksum)).run exec w).1 = .ok hash ∧
        (r.add (scanned (childPath path c.1) c.2 hash) (Stamp.of c.2)).manifest.entries.length
          ≤ maxEntries ∧
        (if kindOf (childPath path c.1) c.2 = .directory then
          ((descend (childPath path c.1)
            (r.add (scanned (childPath path c.1) c.2 hash) (Stamp.of c.2))).run exec w).1
        else .ok (r.add (scanned (childPath path c.1) c.2 hash) (Stamp.of c.2))) = .ok r' := by
  unfold visit
  show ((liftM (validate (childPath path c.1)) >>= _ : FsM Scan).run exec w).1 = _ ↔ _
  rw [(Prog.quiet_lift _).run_bind_fst, Prog.run_lift, bind_eq_ok]
  rw [exists_unique_unit]
  refine and_congr_right fun _ => ?_
  rw [(quiet_of_reads calls_hashFound).run_bind_fst, bind_eq_ok]
  refine exists_congr fun hash => and_congr_right fun _ => ?_
  show ((if maxEntries < (r.add (scanned (childPath path c.1) c.2 hash)
    (Stamp.of c.2)).manifest.entries.length then _ else _ : FsM Scan).run exec w).1 = _ ↔ _
  -- The limit is checked before the entry is descended into.
  by_cases hlen : maxEntries < (r.add (scanned (childPath path c.1) c.2 hash)
      (Stamp.of c.2)).manifest.entries.length
  · rw [if_pos hlen]
    exact ⟨fun h => (by cases h), fun h => absurd hlen (Nat.not_lt.mpr h.1)⟩
  · rw [if_neg hlen, and_iff_right (Nat.not_lt.mp hlen)]
    by_cases hk : kindOf (childPath path c.1) c.2 = .directory
    · rw [if_pos hk, if_pos hk]
      rfl
    · rw [if_neg hk, if_neg hk]
      rfl

/-- The walk of one directory. -/
theorem walk_ok {k : Nat} : ((walk root checksum (k + 1) path r).run exec w).1 = .ok r' ↔
    (path.utf8.splitOn slash).length ≤ 128 ∧
      (∃ m, ((root.metadata path).run exec w).1 = .ok m) ∧
      ∃ out, ((root.children path).run exec w).1 = .ok out ∧
        out.foldlM (fun r c =>
          ((visit root path checksum (walk root checksum k) r c).run exec w).1) r = .ok r' := by
  -- All parts of the walk only read, so their results can be taken one after the other.
  have hvisit : ∀ (c : String × Metadata) (r : Scan),
      Prog.Quiet exec (visit root path checksum (walk root checksum k) r c) := fun c r =>
    quiet_of_reads (calls_validate fun _ => Prog.issues_bind calls_hashFound fun _ =>
      calls_check_bind (calls_ite calls_walk trivial))
  have hmeta : Prog.Quiet exec (root.metadata path) := quiet_of_reads calls_metadata
  have hkids : Prog.Quiet exec (root.children path) := quiet_of_reads calls_children
  unfold walk
  by_cases hlen : 128 < (path.utf8.splitOn slash).length
  · rw [if_pos hlen]
    exact ⟨fun h => (by cases h), fun h => absurd hlen (Nat.not_lt.mpr h.1)⟩
  · rw [if_neg hlen, and_iff_right (Nat.not_lt.mp hlen), hmeta.run_bind_fst, bind_eq_ok]
    cases hm : ((root.metadata path).run exec w).1 with
    | error e => simp
    | ok m =>
      simp only [Except.ok.injEq, exists_eq_left', exists_eq', true_and]
      rw [hkids.run_bind_fst, bind_eq_ok]
      refine exists_congr fun out => and_congr_right fun _ => ?_
      rw [(Prog.quiet_foldlM fun c _ r => hvisit c r).run_bind_fst,
        Prog.run_foldlM_fst fun c _ r => hvisit c r, bind_eq_ok]
      -- The last check reads the same metadata again, and passes on a disk at rest.
      have htail : ∀ r₁ : Scan, ((do
          if Stamp.of (← root.metadata path) ≠ Stamp.of m then throw (Error.changed path)
          pure r₁ : FsM Scan).run exec w).1 = .ok r₁ := by
        intro r₁
        rw [hmeta.run_bind_fst, hm]
        show ((if Stamp.of m ≠ Stamp.of m then _ else _ : FsM Scan).run exec w).1 = _
        rw [if_neg (not_not.mpr rfl)]
        rfl
      constructor
      · rintro ⟨r₁, h1, h2⟩
        rw [h1, ← Except.ok.inj ((htail r₁).symm.trans h2)]
      · exact fun h => ⟨r', h, htail r'⟩

/-! ### What the walk finds -/

/-- No name in the path is reserved. -/
def Open (d : Path) : Prop := ∀ a, Below d a → reserved (baseName a) = false

omit [Sha256] in
/-- The root of a scan is open. -/
theorem Open.nil : Open [] := by
  intro a hb
  rw [SepPath.below_nil hb]
  decide

/-- The walk of a directory adds the objects in it. -/
def WalkCovers (checksum : Bool) (root : Root) (w : Disk) (descend : String → Scan → FsM Scan) :
    Prop :=
  ∀ path r r', Open path.utf8 → ((descend path r).run exec w).1 = .ok r' →
    Covers checksum root w.tree (Inside path.utf8) r r' ∧ ∃ s, root.full path = .ok s

omit [Sha256] in
/-- What is directly in an open directory is visible. -/
theorem Open.visible_join {d name : Path} (h : Open d) (hn : NameOk name) :
    Visible (join d name) := by
  intro a hb hne
  have h1 : Below (dirName (join d name)) a := hb.dirName (Ne.symm hne)
  rw [show dirName (join d name) = d from dirName_join_name hn] at h1
  exact h a h1

omit [Sha256] in
/-- The same for a path of the source. -/
theorem Open.visible {name : String} (h : Open path.utf8) (hn : NameOk name.utf8) :
    Visible (childPath path name).utf8 := by
  rw [utf8_childPath hn.1]
  exact h.visible_join hn

omit [Sha256] in
/-- What is walked has no reserved name. -/
theorem Open.walked {name : String} {m : Metadata} (h : Open path.utf8) (hn : NameOk name.utf8)
    (hk : kindOf (childPath path name) m ≠ .guarded) : Open (childPath path name).utf8 := by
  intro a hb
  by_cases ha : a = (childPath path name).utf8
  · rw [ha]
    by_contra hr
    rw [Bool.not_eq_false] at hr
    exact hk (if_pos hr)
  · exact h.visible hn a hb ha

/-- An entry that describes an object covers that object. -/
theorem covers_add {e : Entry} {n : Node} (hn : w.tree.get (root.pathOf e.path) = some n)
    (hd : e.Describes checksum n) (hpath : validate e.path = .ok ()) (hvis : Visible e.path.utf8)
    (hhash : e.hash.isSome → e.kind = .file ∧ checksum = true)
    (hfull : Opens checksum e.kind → ∃ s, root.full e.path = .ok s) :
    Covers checksum root w.tree (· = e.path.utf8) r (r.add e (Stamp.of n.metadata)) := by
  refine ⟨[e], rfl, fun d hd' => ?_, fun q m hq _ _ => ⟨e, by simp, hq.symm⟩,
    List.pairwise_singleton _ _, fun p hp => ?_⟩
  · obtain rfl := List.mem_singleton.mp hd'
    exact ⟨rfl, ⟨n, hn, hd, by simp [Scan.add]⟩, hpath, hvis, hhash, hfull⟩
  · have hne : p ≠ e.path := fun h => hp (h ▸ rfl)
    show List.lookup p ((e.path, _) :: r.stamps) = _
    rw [List.lookup_cons, beq_false_of_ne hne]

/-- A child is added with everything in it. -/
theorem visit_covers (hdescend : WalkCovers checksum root w descend) (hopen : Open path.utf8)
    {c : String × Metadata} (hname : NameOk c.1.utf8) {n : Node}
    (hn : w.tree.get (join (root.pathOf path) c.1.utf8) = some n) (hm : n.metadata = c.2)
    (h : ((visit root path checksum descend r c).run exec w).1 = .ok r') :
    Covers checksum root w.tree (fun q => Below q (childPath path c.1).utf8) r r' := by
  obtain ⟨hvalid, hash, hhash, -, hrest⟩ := visit_ok.mp h
  rw [← pathOf_childPath hname.1] at hn
  rw [← hm] at hhash hrest
  obtain ⟨rfl, hread⟩ := hashFound_ok hhash hn
  have hdesc : (scanned (childPath path c.1) n.metadata (if kindOf (childPath path c.1) n.metadata
      = .file && checksum then some (digest n.body.data) else none)).Describes checksum n := by
    refine ⟨rfl, rfl, rfl, rfl, fun hk hcs => ?_⟩
    have hk' : kindOf (childPath path c.1) n.metadata = .file := hk
    simp [scanned, hk', hcs]
  have hadd := covers_add (r := r) (e := scanned (childPath path c.1) n.metadata _) hn hdesc hvalid
    (hopen.visible hname)
    (fun hs => by
      have hs' : (kindOf (childPath path c.1) n.metadata = .file && checksum) = true := by
        by_contra hc
        simp [scanned, hc] at hs
      have hboth : kindOf (childPath path c.1) n.metadata = .file ∧ checksum = true := by
        simpa using hs'
      exact hboth)
    (by
      rintro (hk | ⟨hk, hcs⟩)
      · have hk' : kindOf (childPath path c.1) n.metadata = .directory := hk
        rw [if_pos hk'] at hrest
        exact (hdescend _ _ _ (hopen.walked hname (m := n.metadata) (by rw [hk']; simp)) hrest).2
      · have hk' : kindOf (childPath path c.1) n.metadata = .file := hk
        exact hread (by simp [hk', hcs]))
  have hq : ∀ q : Path, q = (childPath path c.1).utf8 ∨ Inside (childPath path c.1).utf8 q →
      Below q (childPath path c.1).utf8 := by
    rintro q (rfl | ⟨-, h0 | hb⟩)
    · exact SepPath.Below.refl
    · exact absurd h0 (cleanPath_of_validate hvalid).ne_nil
    · exact hb.1
  have hne : ∀ q : Path, Below q (childPath path c.1).utf8 → q ≠ (childPath path c.1).utf8 → q ≠ [] :=
    fun q hb hqc h0 => hqc (h0.trans (SepPath.below_nil (h0 ▸ hb)).symm)
  split at hrest
  · next hk =>
    have hopen' := hopen.walked hname (m := n.metadata) (by rw [hk]; simp)
    refine (hadd.trans (hdescend _ _ _ hopen' hrest).1 ?_).imp hq fun q m hb _ _ => ?_
    · rintro q rfl ⟨-, h0 | hb⟩
      · exact absurd h0 (cleanPath_of_validate hvalid).ne_nil
      · exact hb.2 rfl
    · by_cases hqc : q = (childPath path c.1).utf8
      · exact Or.inl hqc
      · exact Or.inr ⟨hne q hb hqc, Or.inr ⟨hb, hqc⟩⟩
  · next hk =>
    obtain rfl := Except.ok.inj hrest
    refine hadd.imp (fun q h => hq q (Or.inl h)) fun q m hb hqm hvis => ?_
    -- What is not walked has nothing visible in it.
    by_contra hqc
    have hdir : w.tree.IsDir (root.pathOf (childPath path c.1)) := by
      refine Tree.isDir_above hqm ?_ fun h0 => hqc (SepPath.join_injective _ h0)
      exact (SepPath.below_join (hne q hb hqc) (cleanPath_of_validate hvalid).ne_nil).mpr hb
    obtain ⟨n', hn', hbody⟩ := hdir
    obtain rfl := Option.some.inj (hn.symm.trans hn')
    have hres := hvis (childPath path c.1).utf8 hb (Ne.symm hqc)
    refine hk ?_
    unfold kindOf
    rw [hres]
    simp [Metadata.isFile, Metadata.isDir, Node.metadata, hbody, Body.type]

omit [Sha256] in
/-- Siblings have nothing in common. -/
theorem below_child_disjoint {a b : String} (ha : NameOk a.utf8) (hb : NameOk b.utf8) (hne : a ≠ b)
    (h1 : Below q (childPath path a).utf8) (h2 : Below q (childPath path b).utf8) : False := by
  rw [utf8_childPath ha.1] at h1
  rw [utf8_childPath hb.1] at h2
  have key : ∀ {x y : Path}, NameOk x → NameOk y → Below (join path.utf8 x) (join path.utf8 y) →
      x = y := by
    intro x y hx hy h
    by_contra hxy
    have h3 := (SepPath.below_join hx.1 hy.1).mp h
    exact hx.2.1 (h3.sep_mem hxy)
  rcases h1.comparable h2 with h | h
  · exact hne (String.utf8_injective (key ha hb h))
  · exact hne (String.utf8_injective (key hb ha h).symm)

/-- The loop over the children covers all of them. -/
theorem foldlM_covers (hdescend : WalkCovers checksum root w descend) (hopen : Open path.utf8)
    {out : List (String × Metadata)}
    (hthere : ∀ c ∈ out, NameOk c.1.utf8 ∧ ∃ node,
      w.tree.get (join (root.pathOf path) c.1.utf8) = some node ∧ node.metadata = c.2)
    (hnodup : out.Pairwise fun a b => a.1 ≠ b.1)
    (h : out.foldlM (fun r c => ((visit root path checksum descend r c).run exec w).1) r = .ok r') :
    Covers checksum root w.tree (fun q => ∃ c ∈ out, Below q (childPath path c.1).utf8) r r' := by
  induction out generalizing r with
  | nil =>
    obtain rfl := pure_eq_ok.mp h
    exact Covers.refl fun q n hq => by simp at hq
  | cons c out ih =>
    rw [List.foldlM_cons, bind_eq_ok] at h
    obtain ⟨r₁, h1, h2⟩ := h
    -- The first child covers what is at or below it, and the rest covers the rest.
    obtain ⟨hname, n, hn, hm⟩ := hthere c List.mem_cons_self
    have hrest := ih (fun d hd => hthere d (List.mem_cons_of_mem _ hd)) hnodup.of_cons h2
    refine ((visit_covers hdescend hopen hname hn hm h1).trans hrest ?_).imp ?_ ?_
    -- No path is below two children.
    · rintro q hq ⟨d, hd, hqd⟩
      exact below_child_disjoint hname (hthere d (List.mem_cons_of_mem _ hd)).1
        ((List.pairwise_cons.mp hnodup).1 d hd) hq hqd
    · rintro q (hq | ⟨d, hd, hq⟩)
      · exact ⟨c, List.mem_cons_self, hq⟩
      · exact ⟨d, List.mem_cons_of_mem _ hd, hq⟩
    · rintro q - ⟨d, hd, hq⟩ - -
      rcases List.mem_cons.mp hd with rfl | hd
      · exact Or.inl hq
      · exact Or.inr ⟨d, hd, hq⟩

/-- The walk covers the directory, by induction on its fuel. -/
theorem walk_covers (k : Nat) : WalkCovers checksum root w (walk root checksum k) := by
  induction k with
  | zero =>
    intro path r r' _ h
    cases h
  | succ k ih =>
    intro path r r' hopen h
    obtain ⟨-, -, out, hout, hfold⟩ := walk_ok.mp h
    obtain ⟨hfull, -, hkids⟩ := children_ok hout
    -- What is below a child is inside the directory, and all that is inside is below some child.
    refine ⟨(foldlM_covers ih hopen hkids.there hkids.nodup hfold).imp ?_ fun q n hq hn _ => ?_,
      hfull⟩
    · rintro q ⟨c, hc, hb⟩
      have hname := (hkids.there c hc).1
      rw [utf8_childPath hname.1] at hb
      exact inside_of_below_child hname hb
    · obtain ⟨a, m, hname, hj, hm, hb⟩ := hq.step hn
      rw [← hj, show join root.base.utf8 (join path.utf8 (baseName a))
        = join (root.pathOf path) (baseName a) from SepPath.join_assoc.symm] at hm
      obtain ⟨c, hc, hcn, -⟩ := hkids.listed _ m hname hm
      refine ⟨c, hc, ?_⟩
      rw [utf8_childPath (hkids.there c hc).1.1, hcn, hj]
      exact hb

end

end

/-! ### The result of a scan -/

/-- The scan is the manifest and the stamps of the tree. -/
structure Scan.Of [Sha256] (checksum : Bool) (root : Root) (t : Tree) (s : Scan) : Prop where
  valid : s.manifest.Valid checksum
  mirrors : Mirrors checksum root s.manifest t
  stamp : ∀ e ∈ s.manifest.entries, ∃ n, t.get (root.pathOf e.path) = some n ∧
    s.stamps.lookup e.path = some (Stamp.of n.metadata)
  hash : ∀ e ∈ s.manifest.entries, e.hash.isSome → e.kind = .file ∧ checksum = true
  full : ∀ e ∈ s.manifest.entries, Opens checksum e.kind → ∃ s', root.full e.path = .ok s'

section
variable [Sha256] {root : Root} {checksum : Bool} {w : Disk} {r r' s : Scan} {path : String}

/-- The scan with its entries in order and the stamp of the root. -/
def Scan.sorted (r : Scan) (stamp : Stamp) : Scan :=
  ⟨⟨r.manifest.entries.insertionSort fun a b => a.path.utf8 ≤ b.path.utf8⟩, ("", stamp) :: r.stamps⟩

/-- When `scan` returns: nothing where no root is, and else what the walk lists, sorted and
valid. -/
theorem scan_ok : ((scan root checksum).run exec w).1 = .ok s ↔
    ∃ b, ((root.exists? "").run exec w).1 = .ok b ∧
      if b then ∃ r, ((walk root checksum 130 "" ⟨⟨[]⟩, []⟩).run exec w).1 = .ok r ∧
        ∃ m, ((root.metadata "").run exec w).1 = .ok m ∧
          (r.sorted (Stamp.of m)).manifest.Valid checksum ∧ r.sorted (Stamp.of m) = s
      else s = ⟨⟨[]⟩, []⟩ := by
  unfold scan
  show ((root.exists? "" >>= _ : FsM Scan).run exec w).1 = _ ↔ _
  rw [(quiet_of_reads calls_exists).run_bind_fst, bind_eq_ok]
  refine exists_congr fun b => and_congr_right fun _ => ?_
  -- A root that is missing gives the empty manifest.
  cases b with
  | false =>
    show (Except.ok _ : Except Error Scan) = _ ↔ _
    simp [eq_comm]
  | true =>
    rw [if_pos rfl]
    show ((walk root checksum 130 "" ⟨⟨[]⟩, []⟩ >>= _ : FsM Scan).run exec w).1 = _ ↔ _
    rw [(quiet_of_reads calls_walk).run_bind_fst, bind_eq_ok]
    refine exists_congr fun r => and_congr_right fun _ => ?_
    rw [(quiet_of_reads calls_metadata).run_bind_fst, bind_eq_ok]
    refine exists_congr fun m => and_congr_right fun _ => ?_
    show ((liftM ((r.sorted (Stamp.of m)).manifest.validate checksum) >>= _ : FsM Scan).run
      exec w).1 = _ ↔ _
    rw [(Prog.quiet_lift _).run_bind_fst, Prog.run_lift, bind_eq_ok, exists_unique_unit,
      Manifest.validate_ok]
    exact and_congr_right fun _ => pure_eq_ok

omit [Sha256] in
/-- Sorting keeps the entries. -/
theorem mem_sorted {stamp : Stamp} {e : Entry} :
    e ∈ (r.sorted stamp).manifest.entries ↔ e ∈ r.manifest.entries :=
  (List.perm_insertionSort _ _).mem_iff

/-- A scan that succeeds is the manifest of the tree. -/
theorem scan_sound (h : ((scan root checksum).run exec w).1 = .ok s) :
    s.Of checksum root w.tree := by
  obtain ⟨b, hb, hs⟩ := scan_ok.mp h
  have hex := exists_ok hb
  cases b with
  | false =>
    obtain rfl : s = ⟨⟨[]⟩, []⟩ := hs
    have hnone : w.tree.get (root.pathOf "") = none := by simpa using hex
    have hbase : root.base.utf8 ≠ [] := fun h0 => by
      obtain ⟨n, hn, -⟩ := w.tree.root
      rw [show root.pathOf "" = [] from SepPath.join_eq_nil.mpr ⟨h0, rfl⟩] at hnone
      rw [show w.tree.get [] = some n from hn] at hnone
      cases hnone
    refine ⟨⟨Nat.zero_le _, by simp, List.Pairwise.nil, by simp⟩, ⟨by simp, fun q n hq hn _ => ?_⟩,
      by simp, by simp, by simp⟩
    -- An object below the root would have the root above it.
    obtain ⟨m, hm, -⟩ := Tree.isDir_above hn (SepPath.below_join_left hbase) fun h0 =>
      hq (SepPath.join_injective _ (h0.trans SepPath.join_nil_right.symm))
    rw [pathOf_empty, hm] at hnone
    cases hnone
  | true =>
    obtain ⟨r, hr, m, hm, hvalid, rfl⟩ : ∃ r, _ ∧ ∃ m, _ := hs
    obtain ⟨new, hnew, hfound, hall, -, -⟩ := (walk_covers 130 "" _ _ Open.nil hr).1
    have hmem : ∀ e, e ∈ (r.sorted (Stamp.of m)).manifest.entries ↔ e ∈ new := fun e => by
      rw [mem_sorted, hnew, List.nil_append]
    refine ⟨hvalid, ⟨fun e he => ?_, fun q n hq hn hv => ?_⟩, fun e he => ?_, fun e he => ?_,
      fun e he => ?_⟩
    · obtain ⟨-, ⟨n, hn, hd, -⟩, -⟩ := hfound e ((hmem e).mp he)
      exact ⟨n, hn, hd⟩
    · obtain ⟨e, he, hep⟩ := hall q n ⟨hq, Or.inl rfl⟩ hn hv
      exact ⟨e, (hmem e).mpr he, hep⟩
    · obtain ⟨-, ⟨n, hn, -, hst⟩, -⟩ := hfound e ((hmem e).mp he)
      refine ⟨n, hn, ?_⟩
      show List.lookup e.path (("", _) :: r.stamps) = _
      rw [List.lookup_cons, beq_false_of_ne (hvalid.path_ne_empty he)]
      exact hst
    · exact (hfound e ((hmem e).mp he)).2.hash
    · exact (hfound e ((hmem e).mp he)).2.full

end

end RrSync

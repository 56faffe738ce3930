import RrSync.Proofs.Scan

/-!
# `RrSync.Proofs.Scannable`: when a scan succeeds

`scan_complete` says that a scan succeeds on a tree of at most `MAX_ENTRIES` objects with
names and sizes that a manifest may have. The bound on the depth of the recursion plays no
part: a path of more components than it allows is refused before.
-/

set_option autoImplicit false

namespace RrSync

open Lib

section
variable [Sha256] {root : Root} {checksum : Bool} {w : Disk} {r r' s : Scan} {path : String}

/-! ### Trees that can be scanned -/

/-- At most `MAX_ENTRIES` objects below the root can be seen by a scan. -/
def Root.Bounded (root : Root) (t : Tree) : Prop :=
  ∀ qs : List Path, qs.Nodup →
    (∀ q ∈ qs, q ≠ [] ∧ (t.get (join root.base.utf8 q)).isSome ∧ Visible q) →
    qs.length ≤ maxEntries

/-- A scan accepts every object it can see. -/
structure Scannable (checksum : Bool) (root : Root) (t : Tree) : Prop where
  object : ∀ q n, q ≠ [] → t.get (join root.base.utf8 q) = some n → Visible q →
    ∃ path : String, path.utf8 = q ∧ validate path = .ok () ∧
      (Opens checksum (kindOf path n.metadata) → root.Takes path) ∧
      (kindOf path n.metadata = .file → n.body.len ≤ maxFile)
  bounded : root.Bounded t

/-- The entries so far are of different objects that a scan can see. -/
structure Listed (root : Root) (t : Tree) (r : Scan) : Prop where
  nodup : r.manifest.entries.Pairwise fun a b => a.path ≠ b.path
  object : ∀ e ∈ r.manifest.entries, e.path.utf8 ≠ [] ∧ (t.get (root.pathOf e.path)).isSome ∧
    Visible e.path.utf8

omit [Sha256] in
/-- What is listed of a bounded tree is within the limit. -/
theorem Listed.length_le {t : Tree} (h : Listed root t r) (hb : root.Bounded t) :
    r.manifest.entries.length ≤ maxEntries := by
  have := hb (r.manifest.entries.map fun e => e.path.utf8)
    (List.pairwise_map.mpr (h.nodup.imp fun hne heq => hne (String.utf8_injective heq)))
    (fun q hq => by
      obtain ⟨e, he, rfl⟩ := List.mem_map.mp hq
      exact h.object e he)
  rwa [List.length_map] at this

/-- A part of the tree that was not yet listed may be added. -/
theorem Listed.covers {t : Tree} {P : Path → Prop} (h : Listed root t r)
    (hc : Covers checksum root t P r r') (hP : ∀ e ∈ r.manifest.entries, ¬ P e.path.utf8)
    (h0 : ¬ P []) : Listed root t r' := by
  obtain ⟨new, hnew, hfound, -, hne, -⟩ := hc
  refine ⟨?_, fun e he => ?_⟩
  · rw [hnew]
    exact List.pairwise_append.mpr ⟨h.nodup, hne, fun a ha b hb hab =>
      hP a ha (hab ▸ (hfound b hb).1)⟩
  · rw [hnew] at he
    rcases List.mem_append.mp he with he | he
    · exact h.object e he
    · obtain ⟨hPe, ⟨n, hn, -⟩, -, hv, -⟩ := hfound e he
      exact ⟨fun h => h0 (h ▸ hPe), by rw [hn]; rfl, hv⟩

/-! ### The walk goes through -/

omit [Sha256] in
/-- The number of names in a path; none for the root of the scan. -/
def depth (path : String) : Nat := if path = "" then 0 else (path.utf8.splitOn slash).length

omit [Sha256] in
/-- A path that was accepted is not too deep. -/
theorem depth_le (h : path = "" ∨ validate path = .ok ()) : depth path ≤ 128 := by
  unfold depth
  rcases h with h | h
  · rw [if_pos h]
    exact Nat.zero_le _
  · split
    · exact Nat.zero_le _
    · simp only [validate, ite_throw_eq_ok, Bool.or_eq_true, not_or, decide_eq_true_eq,
        not_lt] at h
      exact h.1.1.2

omit [Sha256] in
/-- A child is one deeper. -/
theorem depth_childPath {name : String} (hn : NameOk name.utf8) :
    depth (childPath path name) = depth path + 1 := by
  have hne : childPath path name ≠ "" := fun h => by
    have := congrArg String.utf8 h
    rw [utf8_childPath hn.1] at this
    exact join_name_ne_nil hn this
  unfold depth
  rw [if_neg hne, utf8_childPath hn.1]
  by_cases hp : path = ""
  · rw [if_pos hp, hp, show join ("" : String).utf8 name.utf8 = name.utf8 from SepPath.join_nil_left,
      List.splitOn_eq_singleton hn.2.1]
    rfl
  · rw [if_neg hp, show join path.utf8 name.utf8 = path.utf8 ++ slash :: name.utf8 from
      SepPath.join_of_ne (mt String.utf8_eq_nil.mp hp) hn.1, List.splitOn_append_cons_self,
      List.splitOn_eq_singleton hn.2.1, List.length_append]
    rfl

/-- The path of a directory that is walked. -/
structure Walkable (root : Root) (t : Tree) (path : String) : Prop where
  full : ∃ s, root.full path = .ok s
  isDir : t.IsDir (root.pathOf path)
  valid : path = "" ∨ validate path = .ok ()
  unreserved : Open path.utf8

section
variable (hs : Scannable checksum root w.tree)
include hs

omit [Sha256] in
/-- A child of a scannable tree is accepted, and can be opened where the scan opens it. -/
theorem Scannable.child {name : String} (hopen : Open path.utf8) (hn : NameOk name.utf8) {n : Node}
    (hnode : w.tree.get (join (root.pathOf path) name.utf8) = some n) :
    validate (childPath path name) = .ok () ∧
      (Opens checksum (kindOf (childPath path name) n.metadata) →
        root.Takes (childPath path name)) := by
  have hu : (childPath path name).utf8 = join path.utf8 name.utf8 := utf8_childPath hn.1
  have hget : w.tree.get (join root.base.utf8 (childPath path name).utf8) = some n := by
    rw [hu, show join root.base.utf8 (join path.utf8 name.utf8)
      = join (root.pathOf path) name.utf8 from SepPath.join_assoc.symm]
    exact hnode
  obtain ⟨p, hp, hvalid, htakes, -⟩ :=
    hs.object _ n (hu ▸ join_name_ne_nil hn) hget (hopen.visible hn)
  rw [String.utf8_injective hp] at hvalid htakes
  exact ⟨hvalid, htakes⟩

omit [Sha256] in
/-- The names in a directory that is walked are UTF-8, and there are not too many. -/
theorem Scannable.children (hw : Walkable root w.tree path) : ∃ out, ((root.children path).run exec w).1 = .ok out := by
  obtain ⟨f, hf⟩ := hw.full
  have hobj : ∀ x ∈ w.tree.entries (root.pathOf path), ∃ n,
      w.tree.get (join root.base.utf8 (join path.utf8 x.1.1)) = some n := by
    intro x hx
    obtain ⟨n, hn, -⟩ := Tree.mem_entries.mp hx
    exact ⟨n, by rw [← hn]; exact congrArg _ SepPath.join_assoc.symm⟩
  have hvis : ∀ n : Path, NameOk n → Visible (join path.utf8 n) := fun n hn =>
    hw.unreserved.visible_join hn
  -- Each name is a string, since the path of the object is one.
  have hnames : ∀ x ∈ w.tree.entries (root.pathOf path), ∃ s : String, s.utf8 = x.1.1 := by
    intro x hx
    obtain ⟨n, hn⟩ := hobj x hx
    obtain ⟨p, hp, -⟩ := hs.object _ n (join_name_ne_nil x.1.2) hn (hvis _ x.1.2)
    by_cases h0 : path.utf8 = []
    · exact ⟨p, by rw [hp, h0]; exact SepPath.join_nil_left⟩
    · rw [show join path.utf8 x.1.1 = path.utf8 ++ slash :: x.1.1 from
        SepPath.join_of_ne h0 x.1.2.1] at hp
      exact String.exists_utf8_after hp
  -- There are not more objects in the directory than may be listed in all.
  have hcount : (w.tree.entries (root.pathOf path)).length ≤ maxEntries := by
    have := hs.bounded ((w.tree.entries (root.pathOf path)).map fun x => join path.utf8 x.1.1)
      (List.pairwise_map.mpr (Tree.entries_nodup.imp fun hne heq =>
        hne (SepPath.join_injective _ heq)))
      (fun q hq => by
        obtain ⟨x, hx, rfl⟩ := List.mem_map.mp hq
        obtain ⟨n, hn⟩ := hobj x hx
        exact ⟨join_name_ne_nil x.1.2, by rw [hn]; rfl, hvis _ x.1.2⟩)
    rwa [List.length_map] at this
  obtain ⟨out, hout⟩ := collect_succeeds [] hnames (by simpa using hcount)
  refine ⟨out.insertionSort fun a b => a.1.utf8 ≤ b.1.utf8, ?_⟩
  have hopen : w.tree.openDir (root.pathOf path) = .ok () := Tree.openDir_ok.mpr hw.isDir
  rw [run_children hf, hopen]
  simp only [hout]
  rfl

/-- A child of a directory that is walked is added, when everything in it can be. -/
theorem visit_complete {descend : String → Scan → FsM Scan} {c : String × Metadata} {n : Node}
    (hw : Walkable root w.tree path) (hname : NameOk c.1.utf8)
    (hn : w.tree.get (join (root.pathOf path) c.1.utf8) = some n) (hm : n.metadata = c.2)
    (hr : Listed root w.tree r)
    (hfresh : ∀ e ∈ r.manifest.entries, ¬ Below e.path.utf8 (childPath path c.1).utf8)
    (hdescend : ∀ r₁, Walkable root w.tree (childPath path c.1) → Listed root w.tree r₁ →
      (∀ e ∈ r₁.manifest.entries, ¬ Inside (childPath path c.1).utf8 e.path.utf8) →
      ∃ r', ((descend (childPath path c.1) r₁).run exec w).1 = .ok r') :
    ∃ r', ((visit root path checksum descend r c).run exec w).1 = .ok r' := by
  obtain ⟨hvalid, htakes⟩ := hs.child hw.unreserved hname hn
  have hn' : w.tree.get (root.pathOf (childPath path c.1)) = some n := by
    rwa [pathOf_childPath hname.1]
  -- A file that is to be hashed can be opened, and is as it was listed.
  have hhash : ∃ hash, ((hashFound root (childPath path c.1) c.2
      (kindOf (childPath path c.1) c.2 = .file && checksum)).run exec w).1 = .ok hash := by
    unfold hashFound
    split
    · next hwant =>
      rw [Bool.and_eq_true, decide_eq_true_eq, ← hm] at hwant
      have hopen : ((root.openFile (childPath path c.1)).run exec w).1
          = .ok (n.metadata, n.body.data) :=
        openFile_ok.mpr ⟨⟨_, (htakes (Or.inr hwant)).full⟩, n, hn', kindOf_eq_file hwant.1, rfl⟩
      refine ⟨some (digest n.body.data), ?_⟩
      rw [(quiet_of_reads calls_openFile).run_bind_fst, hopen]
      show ((if Stamp.of n.metadata ≠ Stamp.of c.2 then _ else _ : FsM _).run exec w).1 = _
      rw [if_neg (not_not.mpr (by rw [hm]))]
      rfl
    · exact ⟨none, rfl⟩
  obtain ⟨hash, hhash⟩ := hhash
  have hu : (childPath path c.1).utf8 = join path.utf8 c.1.utf8 := utf8_childPath hname.1
  -- The new entry is an object that was not listed before.
  have hadd : Listed root w.tree (r.add (scanned (childPath path c.1) c.2 hash) (Stamp.of c.2)) := by
    refine ⟨List.pairwise_append.mpr ⟨hr.nodup, List.pairwise_singleton _ _, fun a ha b hb hab => ?_⟩,
      fun e he => ?_⟩
    · obtain rfl := List.mem_singleton.mp hb
      exact hfresh a ha (hab ▸ SepPath.Below.refl)
    · rcases List.mem_append.mp he with he | he
      · exact hr.object e he
      · obtain rfl := List.mem_singleton.mp he
        exact ⟨hu ▸ join_name_ne_nil hname, by
          rw [show root.pathOf (scanned (childPath path c.1) c.2 hash).path
            = root.pathOf (childPath path c.1) from rfl, hn']
          rfl, hw.unreserved.visible hname⟩
  -- Only a directory is descended into, and nothing below it has been listed.
  by_cases hk : kindOf (childPath path c.1) c.2 = .directory
  · have hdir : w.tree.IsDir (root.pathOf (childPath path c.1)) :=
      ⟨n, hn', body_of_type_directory (kindOf_eq_directory (hm ▸ hk : kindOf _ n.metadata = _))⟩
    have hwalk : Walkable root w.tree (childPath path c.1) :=
      ⟨⟨_, (htakes (Or.inl (hm ▸ hk))).full⟩, hdir, Or.inr hvalid,
        hw.unreserved.walked hname (m := c.2) (by rw [hk]; simp)⟩
    obtain ⟨r', hr'⟩ := hdescend _ hwalk hadd fun e he => by
      rcases List.mem_append.mp he with he | he
      · rintro ⟨-, h0 | hb⟩
        · exact join_name_ne_nil hname (hu.symm.trans h0)
        · exact hfresh e he hb.1
      · obtain rfl := List.mem_singleton.mp he
        rintro ⟨-, h0 | hb⟩
        · exact join_name_ne_nil hname (hu.symm.trans h0)
        · exact hb.2 rfl
    exact ⟨r', visit_ok.mpr ⟨hvalid, hash, hhash, hadd.length_le hs.bounded, by
      rw [if_pos hk]
      exact hr'⟩⟩
  · exact ⟨_, visit_ok.mpr ⟨hvalid, hash, hhash, hadd.length_le hs.bounded, if_neg hk⟩⟩

/-- The loop over the children goes through when the walk of each of them does. -/
theorem foldlM_complete {k : Nat} (hw : Walkable root w.tree path) {out : List (String × Metadata)}
    (hthere : ∀ c ∈ out, NameOk c.1.utf8 ∧ ∃ node,
      w.tree.get (join (root.pathOf path) c.1.utf8) = some node ∧ node.metadata = c.2)
    (hnodup : out.Pairwise fun a b => a.1 ≠ b.1) (hr : Listed root w.tree r)
    (hfresh : ∀ e ∈ r.manifest.entries, ∀ c ∈ out, ¬ Below e.path.utf8 (childPath path c.1).utf8)
    (hdescend : ∀ c ∈ out, ∀ r₁, Walkable root w.tree (childPath path c.1) →
      Listed root w.tree r₁ →
      (∀ e ∈ r₁.manifest.entries, ¬ Inside (childPath path c.1).utf8 e.path.utf8) →
      ∃ r', ((walk root checksum k (childPath path c.1) r₁).run exec w).1 = .ok r') :
    ∃ r', out.foldlM (fun r c =>
      ((visit root path checksum (walk root checksum k) r c).run exec w).1) r = .ok r' := by
  induction out generalizing r with
  | nil => exact ⟨r, rfl⟩
  | cons c out ih =>
    obtain ⟨hname, n, hn, hm⟩ := hthere c List.mem_cons_self
    -- The first child succeeds, and then the list is still one of objects.
    obtain ⟨r₁, hr₁⟩ := visit_complete hs hw hname hn hm hr
      (fun e he => hfresh e he c List.mem_cons_self) (hdescend c List.mem_cons_self)
    have hcov := visit_covers (walk_covers k) hw.unreserved hname hn hm hr₁
    have hlisted : Listed root w.tree r₁ := by
      refine hr.covers hcov (fun e he => hfresh e he c List.mem_cons_self) fun h0 => ?_
      have h1 := SepPath.below_nil h0
      rw [utf8_childPath hname.1] at h1
      exact join_name_ne_nil hname h1
    -- What it has listed is below the first child, and so below no other.
    obtain ⟨r', hr'⟩ := ih (fun d hd => hthere d (List.mem_cons_of_mem _ hd)) hnodup.of_cons hlisted
      (fun e he d hd hb => by
        obtain ⟨new, hnew, hfound, -⟩ := hcov
        rw [hnew] at he
        rcases List.mem_append.mp he with he | he
        · exact hfresh e he d (List.mem_cons_of_mem _ hd) hb
        · exact below_child_disjoint hname (hthere d (List.mem_cons_of_mem _ hd)).1
            ((List.pairwise_cons.mp hnodup).1 d hd) (hfound e he).1 hb)
      (fun d hd => hdescend d (List.mem_cons_of_mem _ hd))
    exact ⟨r', by rw [List.foldlM_cons, hr₁]; exact hr'⟩

/-- The walk goes through: the depth and the fuel add up, by induction on the fuel. -/
theorem walk_complete (k : Nat) (hw : Walkable root w.tree path) (hk : 130 ≤ k + depth path)
    (hr : Listed root w.tree r)
    (hfresh : ∀ e ∈ r.manifest.entries, ¬ Inside path.utf8 e.path.utf8) :
    ∃ r', ((walk root checksum k path r).run exec w).1 = .ok r' := by
  induction k generalizing path r with
  | zero =>
    have := depth_le hw.valid
    omega
  | succ k ih =>
    obtain ⟨out, hout⟩ := Scannable.children hs hw
    obtain ⟨-, -, hkids⟩ := children_ok hout
    obtain ⟨n, hn, -⟩ := hw.isDir
    -- A valid path has at most 128 components.
    have hlen : (path.utf8.splitOn slash).length ≤ 128 := by
      rcases hw.valid with rfl | hv
      · decide
      · have : depth path ≤ 128 := depth_le (Or.inr hv)
        unfold depth at this
        split at this
        · next h0 =>
          subst h0
          decide
        · exact this
    have hinside : ∀ c ∈ out, ∀ q, Below q (childPath path c.1).utf8 → Inside path.utf8 q := by
      intro c hc q hb
      have hname := (hkids.there c hc).1
      rw [utf8_childPath hname.1] at hb
      exact inside_of_below_child hname hb
    obtain ⟨r', hr'⟩ := foldlM_complete (k := k) hs hw hkids.there hkids.nodup
      hr (fun e he c hc hb => hfresh e he (hinside c hc _ hb)) fun c hc r₁ hw₁ hr₁ hfresh₁ =>
        ih hw₁ (by rw [depth_childPath (hkids.there c hc).1]; omega) hr₁ hfresh₁
    -- The depth that is left decreases as the depth of the path grows.
    exact ⟨r', walk_ok.mpr ⟨hlen, ⟨_, metadata_ok.mpr ⟨hw.full, n, hn, rfl⟩⟩, out, hout, hr'⟩⟩

/-! ### The manifest is valid -/

/-- What was found passes the check of its entry. -/
theorem Found.ok {e : Entry} {stamps : List (String × Stamp)}
    (hf : Found checksum root w.tree stamps e) : e.Ok checksum := by
  obtain ⟨n, hn, hd, -⟩ := hf.node
  refine ⟨hf.path, fun hres => ?_, fun hk => ⟨?_, ?_⟩, ?_, fun hk => ?_, fun hk hcs => ?_⟩
  · obtain ⟨c, hc, hr⟩ := List.any_eq_true.mp hres
    obtain ⟨a, ha, rfl⟩ := SepPath.exists_baseName_of_mem_splitOn hc
    -- The last component decides the kind, the others are visible.
    by_cases hae : a = e.path.utf8
    · rw [hd.kind]
      exact if_pos (hae ▸ hr)
    · rw [show reserved (SepPath.baseName slash a) = false from hf.visible a ha hae] at hr
      cases hr
  · rw [hd.size, if_neg hk]
  · exact Option.not_isSome_iff_eq_none.mp fun h => hk (hf.hash h).1
  · rw [hd.ns]
    exact n.mtime.valid
  · have hne := (cleanPath_of_validate hf.path).ne_nil
    obtain ⟨p, hp, -, -, hlen⟩ := hs.object _ n hne hn hf.visible
    rw [String.utf8_injective hp] at hlen
    rw [hd.size, if_pos hk]
    exact hlen (hd.kind.symm.trans hk)
  · rw [hd.hash hk hcs]
    rfl

/-- What was found, sorted, is a valid manifest. -/
theorem valid_sorted {m : Metadata} (hr : Listed root w.tree r)
    (hfound : ∀ e ∈ r.manifest.entries, Found checksum root w.tree r.stamps e)
    (hall : ∀ q n, q ≠ [] → w.tree.get (join root.base.utf8 q) = some n → Visible q →
      ∃ e ∈ r.manifest.entries, e.path.utf8 = q) :
    (r.sorted (Stamp.of m)).manifest.Valid checksum := by
  refine ⟨?_, fun e he => Found.ok hs (hfound e (mem_sorted.mp he)), ?_, fun e he hsl => ?_⟩
  · show (List.insertionSort _ _).length ≤ _
    rw [List.length_insertionSort]
    exact hr.length_le hs.bounded
  -- Sorting gives the order, and it is strict since no path is listed twice.
  · have hle := List.pairwise_insertionSort
      (fun a b : Entry => a.path.utf8 ≤ b.path.utf8) r.manifest.entries
    have hne := hr.nodup.perm (List.perm_insertionSort
      (fun a b : Entry => a.path.utf8 ≤ b.path.utf8) r.manifest.entries).symm fun h => Ne.symm h
    refine (hle.and hne).imp fun {a b} h => ?_
    exact (List.le_iff_lt_or_eq.mp h.1).resolve_right fun heq => h.2 (String.utf8_injective heq)
  · have hf := hfound e (mem_sorted.mp he)
    obtain ⟨n, hn, hd, -⟩ := hf.node
    have hclean := cleanPath_of_validate hf.path
    have hb : Below e.path.utf8 (dirName e.path.utf8) := SepPath.below_dirName hsl
    have hne : dirName e.path.utf8 ≠ e.path.utf8 := SepPath.dirName_ne hclean.ne_nil
    have hd0 : dirName e.path.utf8 ≠ [] :=
      (SepPath.Clean.dirName hsl hclean).ne_nil not_nameOk_nil
    -- What is above a listed object is a visible directory, so it is listed too.
    obtain ⟨m', hm', hbody⟩ := Tree.isDir_above hn
      ((SepPath.below_join (s := root.base.utf8) hclean.ne_nil hd0).mpr hb)
      fun h => hne (SepPath.join_injective _ h).symm
    obtain ⟨d, hd', hdp⟩ := hall _ m' hd0 hm' fun a ha hae =>
      hf.visible a (hb.trans ha) fun h => SepPath.not_below_dirName hclean.ne_nil (h ▸ ha)
    refine ⟨d, mem_sorted.mpr hd', hdp, ?_⟩
    obtain ⟨n', hn', hdd, -⟩ := (hfound d hd').node
    rw [show root.pathOf d.path = join root.base.utf8 (dirName e.path.utf8) by rw [← hdp]; rfl,
      hm'] at hn'
    obtain rfl := Option.some.inj hn'
    rw [hdd.kind]
    unfold kindOf
    rw [hdp, show reserved (baseName (dirName e.path.utf8)) = false from hf.visible _ hb hne]
    simp [Metadata.isFile, Metadata.isDir, Node.metadata, hbody, Body.type]

omit [Sha256] hs in
/-- What does not exist below directories is reported as not found. -/
theorem missing_noent {t : Tree} {k : Nat} {p : Path}
    (h : ∀ q, q ≠ [] → Below p q → t.get q = none ∨ t.IsDir q) : t.missing k p = .noent := by
  induction k generalizing p with
  | zero => rfl
  | succ k ih =>
    have hup : ∀ q, q ≠ [] → Below (dirName p) q → Below p q := fun q hq hb =>
      hb.of_dirName_ne_nil hq
    have hd : t.get (dirName p) = none ∨ t.IsDir (dirName p) := by
      by_cases h0 : dirName p = []
      · exact Or.inr (h0 ▸ Tree.isDir_root)
      · exact h _ h0 (hup _ h0 SepPath.Below.refl)
    unfold Tree.missing
    rcases hd with hn | ⟨n, hn, hb⟩
    · simp only [hn]
      exact ih fun q hq hb => h q hq (hup q hq hb)
    · simp only [hn, hb]

omit [Sha256] hs in
/-- What is reported as not found has nothing but directories above it. -/
theorem clear_of_missing {t : Tree} {k : Nat} {p : Path} (hk : p.length ≤ k)
    (hp : t.get p = none) (h : t.missing k p = .noent) {q : Path} (hq : q ≠ [])
    (hb : Below p q) : t.get q = none ∨ t.IsDir q := by
  induction k generalizing p with
  | zero =>
    obtain rfl : p = [] := List.eq_nil_of_length_eq_zero (Nat.le_zero.mp hk)
    exact absurd (SepPath.below_nil hb) hq
  | succ k ih =>
    by_cases heq : p = q
    · exact Or.inl (heq ▸ hp)
    have hp0 : p ≠ [] := fun h0 => hq (SepPath.below_nil (h0 ▸ hb))
    have hup := hb.dirName heq
    unfold Tree.missing at h
    cases hd : t.get (dirName p) with
    | none =>
      rw [hd] at h
      exact ih (Nat.le_of_lt_succ ((SepPath.length_dirName_lt hp0).trans_le hk)) hd h hup
    | some n =>
      rw [hd] at h
      right
      -- The last directory that is there is at the path or below it.
      by_cases hdq : dirName p = q
      · rcases n with ⟨_ | _ | _ | _, mtime, tag⟩ <;> simp only [reduceCtorEq] at h
        exact hdq ▸ ⟨_, hd, rfl⟩
      · exact Tree.isDir_above hd hup hdq

omit [Sha256] hs in
/-- Above a directory there are directories. -/
theorem isDir_of_below {t : Tree} {p q : Path} (h : t.IsDir p) (hb : Below p q) : t.IsDir q := by
  by_cases heq : p = q
  · exact heq ▸ h
  · obtain ⟨n, hn, -⟩ := h
    exact Tree.isDir_above hn hb heq

omit hs in
/-- Where a scan succeeds, nothing but directories is on the way to the root, and the root
has a path that the operations accept. -/
theorem scan_clear {s : Scan} (h : ((scan root checksum).run exec w).1 = .ok s) :
    root.Clear w.tree ∧ root.base.utf8.length ≤ maxPath := by
  obtain ⟨b, hb, hrest⟩ := scan_ok.mp h
  obtain ⟨⟨s', hfull⟩, hfind⟩ := exists_iff.mp hb
  have hbase : root.base.utf8.length ≤ maxPath := by
    have := (root.full_ok.mp hfull).2.1
    rwa [pathOf_empty] at this
  refine ⟨fun q hq hbelow => ?_, hbase⟩
  -- When the root is there it is a directory, and all above it are. When it is missing, the reason
  -- is that nothing is in the way.
  cases b with
  | true =>
    obtain ⟨r, hwalk, -⟩ : ∃ r, ((walk root checksum 130 "" ⟨⟨[]⟩, []⟩).run exec w).1 = .ok r ∧ _ :=
      hrest
    obtain ⟨-, -, out, hout, -⟩ := walk_ok.mp hwalk
    exact Or.inr (isDir_of_below (children_ok hout).2.1 hbelow)
  | false =>
    unfold Tree.find at hfind
    cases hn : w.tree.get (root.pathOf "") with
    | some n =>
      rw [hn] at hfind
      cases hfind
    | none =>
      rw [hn] at hfind
      exact clear_of_missing (Nat.le_refl _) hn hfind.1 hq hbelow

variable (checksum) in
/-- A scan of a tree that can be scanned succeeds. -/
theorem scan_complete (hclear : root.Clear w.tree) (hbase : root.base.utf8.length ≤ maxPath) :
    ∃ s, ((scan root checksum).run exec w).1 = .ok s := by
  have hfull : root.full "" = .ok (root.joined "") := Root.full_base hbase
  cases hroot : w.tree.get (root.pathOf "") with
  | none =>
    have hmeta : ((root.metadata "").run exec w).1 = .error Errno.noent.toError := by
      rw [run_metadata hfull]
      unfold Tree.find
      rw [hroot, missing_noent hclear]
    have hex : ((root.exists? "").run exec w).1 = .ok false := by
      unfold Root.exists?
      rw [Prog.run_bind_ok (Prog.run_attempt exec _ w), hmeta]
      rfl
    exact ⟨_, scan_ok.mpr ⟨false, hex, rfl⟩⟩
  | some n =>
    have hmeta : ((root.metadata "").run exec w).1 = .ok n.metadata :=
      metadata_ok.mpr ⟨⟨_, hfull⟩, n, hroot, rfl⟩
    have hex : ((root.exists? "").run exec w).1 = .ok true := by
      unfold Root.exists?
      rw [Prog.run_bind_ok (Prog.run_attempt exec _ w), hmeta]
      rfl
    have hdir : w.tree.IsDir (root.pathOf "") := by
      by_cases h0 : root.pathOf "" = []
      · rw [h0]
        exact Tree.isDir_root
      · rcases hclear _ h0 SepPath.Below.refl with h | h
        · rw [hroot] at h
          cases h
        · exact h
    -- The walk starts with nothing listed, and with more levels left than a path can have.
    have hempty : Listed root w.tree ⟨⟨[]⟩, []⟩ := ⟨List.Pairwise.nil, by simp⟩
    obtain ⟨r, hr⟩ := walk_complete hs 130
      ⟨⟨_, hfull⟩, hdir, Or.inl rfl, Open.nil⟩ (Nat.le_add_right _ _) hempty (by simp)
    have hcov := (walk_covers 130 "" _ _ Open.nil hr).1
    have hlisted := hempty.covers hcov (by simp) fun h => h.1 rfl
    -- It lists every visible object, which makes the manifest valid.
    obtain ⟨new, hnew, hfound, hall, -⟩ := hcov
    rw [List.nil_append] at hnew
    refine ⟨_, scan_ok.mpr ⟨true, hex, r, hr, n.metadata, hmeta, ?_, rfl⟩⟩
    refine valid_sorted hs hlisted (fun e he => (hfound e (hnew ▸ he)).2) fun q m hq hm hv => ?_
    obtain ⟨e, he, hep⟩ := hall q m ⟨hq, Or.inl rfl⟩ hm hv
    exact ⟨e, hnew ▸ he, hep⟩

end

end

end RrSync

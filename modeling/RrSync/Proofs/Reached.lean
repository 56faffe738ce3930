import RrSync.Proofs.Prefixes
import RrSync.Proofs.Rescan

/-!
# `RrSync.Proofs.Reached`: a scan lists what can be reached

`Tree.Reached` are the objects that lie below the root with no unsupported object and no
reserved name on the way. `scan_iff` says that a scan succeeds exactly when they are few
enough and have acceptable names, paths and sizes, and that its result lists them.
-/

set_option autoImplicit false

namespace RrSync

open Lib

/-- The objects that are reached from the root through directories without a reserved name. -/
inductive Tree.Reached (t : Tree) : Path → Prop
  | child {name : Path} {n : Node} : NameOk name → t.get name = some n → t.Reached name
  | step {d name : Path} {n : Node} : t.Reached d → t.IsDir d → reserved (baseName d) = false →
      NameOk name → t.get (join d name) = some n → t.Reached (join d name)

/-- The objects that are reached are not too many, and a manifest may have each of them. -/
structure Tree.Listable (t : Tree) : Prop where
  count : ∀ qs : List Path, qs.Nodup → (∀ q ∈ qs, t.Reached q) → qs.length ≤ maxEntries
  path : ∀ q, t.Reached q → ∃ path : String, path.utf8 = q ∧ validate path = .ok ()
  size : ∀ q n, t.Reached q → t.get q = some n → n.body.type = .file →
    reserved (baseName q) = false → n.body.len ≤ maxFile

section
variable {t : Tree} {q : Path}

/-! ### What is reached is visible -/

/-- What is reached is on the disk. -/
theorem Tree.Reached.get (h : t.Reached q) : ∃ n, t.get q = some n := by
  cases h with
  | child _ hn => exact ⟨_, hn⟩
  | step _ _ _ _ hn => exact ⟨_, hn⟩

/-- The top itself is not reached. -/
theorem Tree.Reached.ne_nil (h : t.Reached q) : q ≠ [] := by
  cases h with
  | child hname _ => exact hname.1
  | step _ _ _ hname _ => exact join_name_ne_nil hname

/-- What is reached has no reserved component. -/
theorem Tree.Reached.visible (h : t.Reached q) : Visible q := by
  induction h with
  | child hname _ =>
    have hv := Open.nil.visible_join hname
    rwa [show join [] _ = _ from SepPath.join_nil_left] at hv
  | @step d name n hd _ hres hname _ ih =>
    -- The names on the way to the directory are free, and its own is.
    have hopen : Open d := by
      intro a hb
      by_cases had : a = d
      · rw [had]
        exact hres
      · exact ih a hb had
    exact hopen.visible_join hname

/-- An object is reached when no component of its path is reserved. -/
theorem Tree.reached_of_visible {n : Node} (hq : q ≠ []) (hn : t.get q = some n)
    (hv : Visible q) : t.Reached q := by
  -- By induction on the length, from the directory that the object is in.
  induction hlen : q.length using Nat.strong_induction_on generalizing q n with
  | _ k ih =>
    have hclean := Tree.cleanPath hq hn
    have hname : NameOk (baseName q) := hclean.baseName
    have hj : join (dirName q) (baseName q) = q := hclean.join_dirName
    by_cases hd : dirName q = []
    · rw [hd, show join [] (baseName q) = baseName q from SepPath.join_nil_left] at hj
      exact hj ▸ .child hname (hj.symm ▸ hn)
    · have hb : Below q (dirName q) := by
        have hb : Below (join (dirName q) (baseName q)) (dirName q) := SepPath.below_join_left hd
        rwa [hj] at hb
      have hne : dirName q ≠ q := SepPath.dirName_ne hq
      obtain ⟨m, hm, hdir⟩ := Tree.isDir_above hn hb hne.symm
      have hup : t.Reached (dirName q) := by
        refine ih _ ?_ hd hm (fun a ha hane => ?_) rfl
        · rw [← hlen]
          exact SepPath.length_dirName_lt hq
        · refine hv a (hb.trans ha) fun haq => ?_
          exact SepPath.not_below_dirName hq (haq ▸ ha)
      exact hj ▸ .step hup ⟨m, hm, hdir⟩ (hv _ hb hne) hname (hj.symm ▸ hn)

/-- A scan sees what is reached. -/
theorem Tree.reached_iff : t.Reached q ↔ q ≠ [] ∧ (t.get q).isSome ∧ Visible q := by
  constructor
  · intro h
    obtain ⟨n, hn⟩ := h.get
    exact ⟨h.ne_nil, by rw [hn]; rfl, h.visible⟩
  · rintro ⟨hq, hsome, hv⟩
    obtain ⟨n, hn⟩ := Option.isSome_iff_exists.mp hsome
    exact Tree.reached_of_visible hq hn hv

end

/-! ### The stamps of a walk -/

section
variable [Sha256] {root : Root} {checksum : Bool} {w : Disk} {r r' : Scan} {path : String}

/-- The stamps are those of the entries. -/
def Scan.Paired (r : Scan) : Prop :=
  ∀ p, (r.stamps.lookup p).isSome ↔ ∃ e ∈ r.manifest.entries, e.path = p

omit [Sha256] in
/-- An entry is added with its stamp. -/
theorem Scan.Paired.add {e : Entry} {stamp : Stamp} (h : r.Paired) : (r.add e stamp).Paired := by
  intro p
  show (List.lookup p ((e.path, stamp) :: r.stamps)).isSome ↔
    ∃ d ∈ r.manifest.entries ++ [e], d.path = p
  by_cases hp : p = e.path
  · subst hp
    simp
  · rw [List.lookup_cons, beq_false_of_ne hp, h p]
    simp [Ne.symm hp]

/-- One child keeps entries and stamps in pairs, when the walk below it does. -/
theorem visit_paired {descend : String → Scan → FsM Scan} {c : String × Metadata}
    (hdescend : ∀ path r r', r.Paired → ((descend path r).run exec w).1 = .ok r' → r'.Paired)
    (hr : r.Paired) (h : ((visit root path checksum descend r c).run exec w).1 = .ok r') :
    r'.Paired := by
  obtain ⟨-, hash, -, -, hrest⟩ := visit_ok.mp h
  split at hrest
  · exact hdescend _ _ _ hr.add hrest
  · obtain rfl := Except.ok.inj hrest
    exact hr.add

/-- So does the walk, by induction on the depth that is left. -/
theorem walk_paired (k : Nat) (hr : r.Paired)
    (h : ((walk root checksum k path r).run exec w).1 = .ok r') : r'.Paired := by
  induction k generalizing path r r' with
  | zero => cases h
  | succ k ih =>
    obtain ⟨-, -, out, -, hfold⟩ := walk_ok.mp h
    clear h
    induction out generalizing r with
    | nil =>
      obtain rfl := pure_eq_ok.mp hfold
      exact hr
    | cons c out ihout =>
      rw [List.foldlM_cons, bind_eq_ok] at hfold
      obtain ⟨r₁, h1, h2⟩ := hfold
      exact ihout (visit_paired (fun _ _ _ hr h => ih hr h) hr h1) h2

/-! ### The scan of an opened directory -/

/-- The stamps of a scan are those of the entries and of the root. -/
theorem scan_stamps {s : Scan} (h : ((scan .opened checksum).run exec w).1 = .ok s) (path : String) :
    (s.stamps.lookup path).isSome ↔ path = "" ∨ ∃ e ∈ s.manifest.entries, e.path = path := by
  obtain ⟨b, hb, hrest⟩ := scan_ok.mp h
  cases b with
  | false =>
    -- An opened directory exists.
    have hnone : w.tree.get (Root.opened.pathOf "") = none := by simpa using exists_ok hb
    obtain ⟨n, hn, -⟩ := w.tree.root
    rw [opened_pathOf] at hnone
    cases hnone.symm.trans hn
  | true =>
    obtain ⟨r, hr, m, -, -, rfl⟩ : ∃ r, _ ∧ ∃ m, _ := hrest
    have hst : r.Paired := walk_paired 130 (fun p => by simp) hr
    show (List.lookup path (("", _) :: r.stamps)).isSome ↔ _
    simp only [mem_sorted]
    by_cases hp : path = ""
    · simp [hp]
    · rw [List.lookup_cons, beq_false_of_ne hp, hst path]
      simp [hp]

omit [Sha256] in
/-- Where objects can be listed a scan accepts each of them. -/
theorem Tree.Listable.scannable {t : Tree} (h : t.Listable) :
    Scannable checksum Root.opened t := by
  have hnil : ∀ q, join Root.opened.base.utf8 q = q := fun _ => SepPath.join_nil_left
  refine ⟨fun q n hq hn hv => ?_, fun qs hnodup hqs => h.count qs hnodup fun q hq => ?_⟩
  · rw [hnil] at hn
    have hreach := Tree.reached_of_visible hq hn hv
    obtain ⟨path, rfl, hvalid⟩ := h.path q hreach
    refine ⟨path, rfl, hvalid, fun _ => ⟨hvalid, ?_⟩, fun hk => ?_⟩
    · rw [opened_pathOf]
      exact (validate_iff.mp hvalid).2.1
    · have hres : reserved (baseName path.utf8) = false := by
        by_contra hres
        rw [Bool.not_eq_false] at hres
        simp [kindOf, hres] at hk
      exact h.size _ n hreach hn (kindOf_eq_file hk) hres
  · obtain ⟨hq0, hsome, hv⟩ := hqs q hq
    rw [hnil] at hsome
    exact Tree.reached_iff.mpr ⟨hq0, hsome, hv⟩

/-- What a scan has listed can be listed. -/
theorem Scan.Of.listable {s : Scan} {t : Tree} (h : s.Of checksum .opened t) : t.Listable := by
  have hnil : ∀ q, join Root.opened.base.utf8 q = q := fun _ => SepPath.join_nil_left
  -- What is reached is listed, and described by its entry.
  have hentry : ∀ q n, t.Reached q → t.get q = some n → ∃ e ∈ s.manifest.entries,
      e.path.utf8 = q ∧ e.Describes checksum n := by
    intro q n hreach hn
    obtain ⟨e, he, rfl⟩ := h.mirrors.object q n hreach.ne_nil ((hnil q).symm ▸ hn) hreach.visible
    obtain ⟨m, hm, hd⟩ := h.mirrors.entry e he
    rw [opened_pathOf] at hm
    obtain rfl := Option.some.inj (hn.symm.trans hm)
    exact ⟨e, he, rfl, hd⟩
  refine ⟨fun qs hnodup hqs => h.bounded qs hnodup fun q hq => ?_, fun q hreach => ?_,
    fun q n hreach hn htype hres => ?_⟩
  · rw [hnil]
    exact Tree.reached_iff.mp (hqs q hq)
  · obtain ⟨n, hn⟩ := hreach.get
    obtain ⟨e, he, rfl, -⟩ := hentry q n hreach hn
    exact ⟨e.path, rfl, (h.valid.entry e he).path⟩
  · obtain ⟨e, he, rfl, hd⟩ := hentry q n hreach hn
    -- A file that is not reserved is listed as one, with its length.
    have hk : e.kind = .file := by
      rw [hd.kind]
      simp [kindOf, hres, Metadata.isFile, Node.metadata, htype]
    have hsize := hd.size
    rw [if_pos hk] at hsize
    rw [← hsize]
    exact (h.valid.entry e he).size hk

end

/-- A scan of an opened directory succeeds exactly when what is reached can be listed, and then
the manifest is valid and has an entry for each such object and no other. -/
theorem scan_iff [Sha256] (checksum : Bool) (w : Disk) :
    ((∃ s, (scan .opened checksum).run exec w = (.ok s, w)) ↔ w.tree.Listable) ∧
    ∀ s w', (scan .opened checksum).run exec w = (.ok s, w') →
      w' = w ∧ s.manifest.validate checksum = .ok () ∧
      (s.manifest.entries.map Entry.path).Nodup ∧
      (∀ q, w.tree.Reached q ↔ ∃ e ∈ s.manifest.entries, e.path.utf8 = q) ∧
      (∀ e ∈ s.manifest.entries, ∃ n, w.tree.get e.path.utf8 = some n ∧ e.Describes checksum n ∧
        (e.hash.isSome → e.kind = .file ∧ checksum = true)) ∧
      ∀ path, (s.stamps.lookup path).isSome ↔
        path = "" ∨ ∃ e ∈ s.manifest.entries, e.path = path := by
  have hquiet : Prog.Quiet exec (scan .opened checksum) := quiet_of_reads calls_scan
  refine ⟨⟨fun ⟨s, hs⟩ => ?_, fun hl => ?_⟩, fun s w' hs => ?_⟩
  -- A scan that succeeds shows that the tree can be listed.
  · have hok : ((scan .opened checksum).run exec w).1 = .ok s := by rw [hs]
    exact (scan_sound hok).listable
  -- The walk of such a tree succeeds.
  · obtain ⟨s, hs⟩ := scan_complete checksum hl.scannable
      (fun q hq hb => absurd (SepPath.below_nil (by rwa [opened_pathOf] at hb)) hq)
      (Nat.zero_le _)
    exact ⟨s, Prod.ext hs (hquiet.run_snd w)⟩
  · have hok : ((scan .opened checksum).run exec w).1 = .ok s := by rw [hs]
    have hof := scan_sound hok
    have hw : w' = w := by
      have := hquiet.run_snd w
      rwa [hs] at this
    refine ⟨hw, Manifest.validate_ok.mpr hof.valid, ?_, fun q => ⟨fun hreach => ?_, ?_⟩,
      fun e he => ?_, scan_stamps hok⟩
    · refine List.pairwise_map.mpr (hof.valid.sorted.imp fun {a b} hlt heq => ?_)
      rw [heq] at hlt
      exact List.lt_irrefl _ hlt
    · obtain ⟨n, hn⟩ := hreach.get
      exact hof.mirrors.object q n hreach.ne_nil
        ((show join Root.opened.base.utf8 q = q from SepPath.join_nil_left).symm ▸ hn)
        hreach.visible
    · rintro ⟨e, he, rfl⟩
      obtain ⟨n, hn, -⟩ := hof.mirrors.entry e he
      rw [opened_pathOf] at hn
      exact Tree.reached_of_visible (hof.valid.path_ne_nil he) hn (hof.valid.visible' he)
    · obtain ⟨n, hn, hd⟩ := hof.mirrors.entry e he
      rw [opened_pathOf] at hn
      exact ⟨n, hn, hd, hof.hash e he⟩

end RrSync

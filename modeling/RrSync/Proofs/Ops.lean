import RrSync.Proofs.Effects
import RrSync.Spec.View

/-!
# `RrSync.Proofs.Ops`: the operations of `Root` on views

Each operation of `Root` as an update of the view, for a disk on which no call fails. The
lemmas say that the operation succeeds, which view the tree has then, and that the property
`J` holds at every moment when it holds of the views in between.
-/

set_option autoImplicit false

namespace RrSync

open Lib

/-- A program that succeeds, and keeps the property `J` of the view at every moment. -/
abbrev Does {α : Type} (J : View → Prop) (m : FsM α) (w : Disk) (Q : α → Disk → Prop) : Prop :=
  Prog.Succeeds exec (onView J) m w Q

section
variable {J : View → Prop} {w : Disk} {v : View} {root : Root} {path : String} {α : Type}

/-- A condition on the view of a disk. -/
theorem Disk.Shows.onView (hw : w.Shows v) (h : J v) : onView J w := by
  unfold RrSync.onView
  rwa [hw.view]

/-- A system call and what follows. -/
theorem does_sys {c : FsCall} {r : c.Reply} {w' : Disk} {k : c.Reply → FsM α}
    {Q : α → Disk → Prop} (hc : exec c w = (r, w')) (hI : onView J w') (hk : Does J (k r) w' Q) :
    Does J (sys c >>= k) w Q := Prog.succeeds_call hc hI hk

/-- The use of a reply that is no error. -/
theorem does_ok {a : α} {Q : α → Disk → Prop} (hq : Q a w) : Does J (ok (.ok a)) w Q :=
  Prog.succeeds_pure hq

/-- The root of a view is a directory. -/
theorem Disk.Shows.isDir_nil (hw : w.Shows v) : v [] = some Core.dir := hw.isDir.mp Tree.isDir_root

/-! ### Making directories -/

open Classical in
/-- The view with every directory on the way to `p`. -/
noncomputable def makeTo (v : View) (p : Path) : View := fun q =>
  if q ≠ [] ∧ Below p q then some Core.dir else v q

/-- Making a path and then one below it is making the lower one. -/
theorem makeTo_makeTo {p q : Path} (h : Below p q) : makeTo (makeTo v q) p = makeTo v p := by
  funext x
  unfold makeTo
  by_cases hx : x ≠ [] ∧ Below p x
  · rw [if_pos hx, if_pos hx]
  · rw [if_neg hx, if_neg hx, if_neg fun hq => hx ⟨hq.1, h.trans hq.2⟩]

/-- Where all directories are, making them changes nothing. -/
theorem makeTo_eq {p : Path} (h : ∀ q, q ≠ [] → Below p q → v q = some Core.dir) :
    makeTo v p = v := by
  funext x
  unfold makeTo
  split
  · next hx => exact (h x hx.1 hx.2).symm
  · rfl

/-- Below directories, only the last step is new. -/
theorem makeTo_child {d n : Path} (hn : NameOk n) (hne : join d n ≠ [])
    (h : ∀ q, q ≠ [] → Below d q → v q = some Core.dir) :
    makeTo v (join d n) = Function.update v (join d n) (some Core.dir) := by
  funext x
  unfold makeTo
  by_cases hx : x = join d n
  · subst hx
    rw [if_pos ⟨hne, SepPath.Below.refl⟩, Function.update_self]
  · rw [Function.update_of_ne hx]
    split
    · next hb =>
      have h1 : Below d x := by
        have := hb.2.dirName (Ne.symm hx)
        rwa [show SepPath.dirName slash (join d n) = d from dirName_join_name hn] at this
      exact (h x hb.1 h1).symm
    · rfl

/-- The loop of `mkdir` makes every component that is missing. -/
theorem does_mkdirFrom {parent : Path} {names : List Path} (hw : w.Shows v)
    (hparent : v parent = some Core.dir)
    (habove : ∀ q, q ≠ [] → Below parent q → v q = some Core.dir)
    (hnames : ∀ n ∈ names, NameOk n)
    (hway : ∀ q, q ≠ [] → Below (names.foldl join parent) q → v q = none ∨ v q = some Core.dir)
    (hJ0 : J v) (hJ : ∀ a, a ≠ [] → Below (names.foldl join parent) a → J (makeTo v a)) :
    Does J (Root.mkdirFrom parent names) w fun _ w' =>
      w'.Shows (makeTo v (names.foldl join parent)) ∧ w'.temp = w.temp := by
  induction names generalizing parent v w with
  | nil =>
    refine Prog.succeeds_pure ⟨?_, rfl⟩
    rw [List.foldl_nil, makeTo_eq habove]
    exact hw
  | cons name names ih =>
    have hn := hnames name List.mem_cons_self
    have hclean : CleanPath (join parent name) := (hw.rooted hparent).join_name hn
    have hbelow : Below (names.foldl join (join parent name)) (join parent name) :=
      SepPath.below_foldl_join hclean.ne_nil
    have hchild := makeTo_child hn hclean.ne_nil habove
    have hJ1 : J (makeTo v (join parent name)) := hJ _ hclean.ne_nil hbelow
    -- The rest of the loop, once the directory is there.
    have hrest : ∀ w1 : Disk, w1.Shows (makeTo v (join parent name)) → w1.temp = w.temp →
        Does J (do
          ok (← sys (.openDir (join parent name)))
          Root.mkdirFrom (join parent name) names) w1 fun _ w' =>
            w'.Shows (makeTo v (names.foldl join (join parent name))) ∧ w'.temp = w.temp := by
      intro w1 hw1 ht
      have hd : makeTo v (join parent name) (join parent name) = some Core.dir :=
        if_pos ⟨hclean.ne_nil, SepPath.Below.refl⟩
      refine does_sys (exec_openDir hw1 hd) (hw1.onView hJ1) ?_
      refine Prog.Succeeds.bind (Q := fun _ w' => w' = w1) (does_ok rfl) ?_
      rintro _ _ rfl
      refine (ih hw1 hd ?_ (fun n h => hnames n (List.mem_cons_of_mem _ h)) ?_ hJ1 ?_).imp ?_
      · exact fun q hq hb => if_pos ⟨hq, hb⟩
      · intro q hq hb
        unfold makeTo
        split
        · exact Or.inr rfl
        · exact hway q hq hb
      · intro a ha hb
        rcases hb.comparable hbelow with h | h
        · rw [makeTo_makeTo h]
          exact hJ a ha hb
        · rw [makeTo_eq]
          · exact hJ1
          · exact fun q hq hq' => if_pos ⟨hq, h.trans hq'⟩
      · rintro _ w' ⟨h1, h2⟩
        rw [makeTo_makeTo hbelow] at h1
        exact ⟨h1, h2.trans ht⟩
    refine does_sys (exec_openDir hw hparent) (hw.onView hJ0) ?_
    refine Prog.Succeeds.bind (Q := fun _ w' => w' = w) (does_ok rfl) ?_
    rintro _ _ rfl
    rcases hway _ hclean.ne_nil hbelow with hnone | hdir
    · obtain ⟨w1, hc, hw1, ht⟩ := exec_mkdir hw hn hparent hnone
      rw [← hchild] at hw1
      refine does_sys hc (hw1.onView hJ1) ?_
      refine does_sys (exec_sync hw1) (hw1.tick.onView hJ1) ?_
      refine Prog.Succeeds.bind (Q := fun _ w' => w' = _) (does_ok rfl) ?_
      rintro _ _ rfl
      exact hrest _ hw1.tick ht
    · have hsame : makeTo v (join parent name) = v := by
        rw [hchild, ← hdir, Function.update_eq_self]
      refine does_sys (exec_mkdir_exist hw hparent hdir) (hw.tick.onView hJ0) ?_
      exact hrest _ (hsame.symm ▸ hw.tick) rfl

/-! ### Usable paths -/

/-- The operations of `root` accept the path. -/
structure Root.Takes (root : Root) (path : String) : Prop where
  valid : validate path = .ok ()
  short : (root.pathOf path).length ≤ maxPath

/-- `full` accepts a path that the root takes. -/
theorem Root.Takes.full (h : root.Takes path) : root.full path = .ok (root.joined path) :=
  root.full_ok.mpr ⟨fun _ => h.valid, h.short, rfl⟩

/-- A path that the root takes is clean below it. -/
theorem Root.Takes.clean (h : root.Takes path) : CleanPath (root.pathOf path) := by
  have hc := cleanPath_of_validate h.valid
  rcases root.pathOf_clean (Or.inr hc) with h0 | h0
  · exact absurd (SepPath.join_eq_nil.mp h0).2 hc.ne_nil
  · exact h0

/-- `full` accepts the root itself. -/
theorem Root.full_base (hshort : root.base.utf8.length ≤ maxPath) :
    root.full "" = .ok (root.joined "") := by
  refine root.full_ok.mpr ⟨fun h => absurd rfl h, ?_, rfl⟩
  rwa [show root.pathOf "" = root.base.utf8 from SepPath.join_nil_right]

/-- `mkdir` makes the path where nothing but directories is in the way. -/
theorem does_mkdir {s : String} (hs : root.full path = .ok s) (hw : w.Shows v)
    (hway : ∀ q, q ≠ [] → Below (root.pathOf path) q → v q = none ∨ v q = some Core.dir)
    (hJ0 : J v) (hJ : ∀ a, a ≠ [] → Below (root.pathOf path) a → J (makeTo v a)) :
    Does J (root.mkdir path) w fun _ w' =>
      w'.Shows (makeTo v (root.pathOf path)) ∧ w'.temp = w.temp := by
  have hr := Root.full_rooted hs
  refine Prog.Succeeds.bind (Q := fun s' w' => s = s' ∧ w = w')
    (Prog.succeeds_lift hs ⟨rfl, rfl⟩) ?_
  rintro _ _ ⟨rfl, rfl⟩
  have hfold := foldl_join_names hr
  rw [← Root.full_utf8 hs] at hway hJ ⊢
  have h := does_mkdirFrom (J := J) hw
    hw.isDir_nil (fun q hq hb => absurd (SepPath.below_nil hb) hq)
    (fun n hn => nameOk_of_mem_names hr hn) (by rwa [hfold]) hJ0 (by rwa [hfold])
  rwa [hfold] at h

/-- `parent` splits a path and opens the directory. -/
theorem does_parent (hp : root.Takes path) (hw : w.Shows v) (hJ : J v)
    (hd : v (dirName (root.pathOf path)) = some Core.dir) :
    Does J (root.parent path) w fun r w' =>
      (dirName (root.pathOf path), baseName (root.pathOf path)) = r ∧ w = w' := by
  have hu : (root.joined path).utf8 = root.pathOf path := root.utf8_joined path
  unfold Root.parent
  refine Prog.Succeeds.bind (Q := fun _ w' => w = w') (Prog.succeeds_lift hp.valid rfl) ?_
  rintro _ _ rfl
  refine Prog.Succeeds.bind (Q := fun s' w' => root.joined path = s' ∧ w = w')
    (Prog.succeeds_lift hp.full ⟨rfl, rfl⟩) ?_
  rintro _ _ ⟨rfl, rfl⟩
  rw [hu]
  refine does_sys (exec_openDir hw hd) (hw.onView hJ) ?_
  refine Prog.Succeeds.bind (Q := fun _ w' => w = w') (does_ok rfl) ?_
  rintro _ _ rfl
  exact Prog.succeeds_pure ⟨rfl, rfl⟩

/-! ### Removing -/

/-- `remove` removes what can be removed, and nothing else. -/
theorem does_remove (hp : root.Takes path) (hw : w.Shows v)
    (hr : Removable v (root.pathOf path)) {c : Core} (hc : v (root.pathOf path) = some c)
    {directory : Bool} (hdir : directory = true ↔ c = Core.dir)
    (htemp : w.temp.map Temp.dir ≠ some (root.pathOf path)) (hJ0 : J v)
    (hJ : J (Function.update v (root.pathOf path) none)) :
    Does J (root.remove path directory) w fun _ w' =>
      w'.Shows (Function.update v (root.pathOf path) none) ∧ w'.temp = w.temp := by
  refine Prog.Succeeds.bind (does_parent hp hw hJ0 hr.parent) ?_
  rintro _ _ ⟨rfl, rfl⟩
  have hunlink : Does J (Root.unlinkat (dirName (root.pathOf path)) (baseName (root.pathOf path))
      directory) w fun _ w' =>
        w'.Shows (Function.update v (root.pathOf path) none) ∧ w'.temp = w.temp := by
    unfold Root.unlinkat
    -- A directory is empty by now. Anything else is unlinked.
    by_cases h : c = Core.dir
    · obtain ⟨w1, hx, hw1, ht⟩ := exec_rmdir hw hr (h ▸ hc) htemp
      rw [if_pos (hdir.mpr h)]
      exact does_sys hx (hw1.onView hJ) (does_ok ⟨hw1, ht⟩)
    · obtain ⟨w1, hx, hw1, ht⟩ := exec_unlink hw hr hc h
      rw [if_neg (mt hdir.mp h)]
      exact does_sys hx (hw1.onView hJ) (does_ok ⟨hw1, ht⟩)
  refine hunlink.bind ?_
  rintro _ w1 ⟨hw1, ht⟩
  exact does_sys (exec_sync hw1) (hw1.tick.onView hJ) (does_ok ⟨hw1.tick, ht⟩)

/-! ### Staging and renaming -/

/-- The blocks of a reader are the content. -/
theorem cutBlocks_flatten {k : Nat} {data : Bytes} (h : data.length ≤ k) :
    (cutBlocks k data).flatten = data := by
  induction k generalizing data with
  | zero => simpa [cutBlocks, eq_comm] using h
  | succ k ih =>
    unfold cutBlocks
    split
    · next h0 => rw [h0]; rfl
    · next h0 =>
      have hlen : (data.drop blockSize).length ≤ k := by
        have := List.length_pos_of_ne_nil h0
        rw [List.length_drop, blockSize]
        omega
      rw [List.flatten_cons, ih hlen, List.take_append_drop]

/-- This holds of the blocks that the program reads. -/
theorem reads_flatten (data : Bytes) : (reads data).flatten = data := cutBlocks_flatten le_rfl

/-- The loop writes the whole content to the staged file. -/
theorem does_stageLoop {size : Nat} {d : Path} {seen : Bytes} {reader : List Bytes} {time : Time}
    (hw : w.Shows v) (hJ : J v) (ht : w.temp = some ⟨d, seen, time⟩)
    (hsize : (seen ++ reader.flatten).length ≤ size) :
    Does J (stageLoop path size seen reader) w fun all w' => all = seen ++ reader.flatten ∧
      w'.Shows v ∧ ∃ time', w'.temp = some ⟨d, all, time'⟩ := by
  induction reader generalizing seen w time with
  | nil => exact Prog.succeeds_pure ⟨by simp, hw, time, by simpa using ht⟩
  | cons block rest ih =>
    have happ : seen ++ (block :: rest).flatten = seen ++ block ++ rest.flatten := by simp
    rw [happ] at hsize ⊢
    -- The limit is not reached before the end.
    have hlen : ¬ size < (seen ++ block).length := by
      rw [List.length_append] at hsize
      omega
    obtain ⟨w1, time', hc, hw1, ht1⟩ := exec_write hw ht
    unfold stageLoop
    rw [if_neg hlen]
    refine does_sys hc (hw1.onView hJ) ?_
    refine Prog.Succeeds.bind (Q := fun _ w' => w1 = w') (does_ok rfl) ?_
    rintro _ _ rfl
    exact ih hw1 ht1 hsize

/-- A time with valid nanoseconds is accepted. -/
theorem timeOf_eq {sec : Int64} {ns : UInt32} (h : ns < 1000000000) :
    Root.timeOf sec ns = .ok ⟨sec, ns, h⟩ := dif_pos h

/-- Staging a file whose bytes are as announced. -/
theorem does_stage [Sha256] {data : Bytes} {size : Nat} {hash : Option Hash} {sec : Int64}
    {ns : UInt32} (hns : ns < 1000000000) (hp : root.Takes path) (hw : w.Shows v)
    (hd : v (dirName (root.pathOf path)) = some Core.dir) (hJ : J v) (hsize : data.length = size)
    (hhash : ∀ h, hash = some h → h = digest data) :
    Does J (root.stage path (reads data) size hash sec ns) w fun staged w' =>
      staged = ⟨dirName (root.pathOf path), baseName (root.pathOf path)⟩ ∧ w'.Shows v ∧
      w'.temp = some ⟨dirName (root.pathOf path), data, ⟨sec, ns, hns⟩⟩ := by
  refine Prog.Succeeds.bind (does_parent hp hw hJ hd) ?_
  rintro _ _ ⟨rfl, rfl⟩
  obtain ⟨w1, time, hc, hw1, ht1⟩ := exec_createTemp hw hd
  refine does_sys hc (hw1.onView hJ) ?_
  refine Prog.Succeeds.bind (Q := fun _ w' => w1 = w') (does_ok rfl) ?_
  rintro _ _ rfl
  have hfill : Does J (fillTemp path (reads data) size hash (some (sec, ns))) w1 fun _ w' =>
      w'.Shows v ∧ w'.temp = some ⟨dirName (root.pathOf path), data, ⟨sec, ns, hns⟩⟩ := by
    -- The whole content is written, then its size and its hash are checked.
    refine Prog.Succeeds.bind (does_stageLoop hw1 hJ ht1
      (by rw [List.nil_append, reads_flatten, hsize])) ?_
    rintro all w2 ⟨hall, hw2, time', ht2⟩
    rw [List.nil_append, reads_flatten] at hall
    subst hall
    rw [if_neg (not_not.mpr hsize), if_neg]
    · refine Prog.Succeeds.bind (Q := fun _ w' => w'.Shows v ∧
        w'.temp = some ⟨dirName (root.pathOf path), all, ⟨sec, ns, hns⟩⟩) ?_ ?_
      · refine Prog.Succeeds.bind (Q := fun t w' => ⟨sec, ns, hns⟩ = t ∧ w2 = w')
          (Prog.succeeds_lift (timeOf_eq hns) ⟨rfl, rfl⟩) ?_
        rintro _ _ ⟨rfl, rfl⟩
        -- Then the time is set, and the file is synced.
        obtain ⟨w3, hc3, hw3, ht3⟩ := exec_setTempTime hw2 ht2
        exact does_sys hc3 (hw3.onView hJ) (does_ok ⟨hw3, ht3⟩)
      · rintro _ w3 ⟨hw3, ht3⟩
        exact does_sys (exec_syncTemp hw3) (hw3.tick.onView hJ) (does_ok ⟨hw3.tick, ht3⟩)
    · cases hash with
      | none => simp
      | some h => simp [hhash h rfl]
  refine (Prog.Succeeds.onError hfill).bind ?_
  rintro _ w2 hw2
  exact Prog.succeeds_pure ⟨rfl, hw2⟩

/-- The staged file replaces what is in its place. -/
theorem does_commit {p : Path} (hp : CleanPath p) (hw : w.Shows v)
    (hd : v (dirName p) = some Core.dir) (h : v p ≠ some Core.dir) {data : Bytes} {time : Time}
    (ht : w.temp = some ⟨dirName p, data, time⟩)
    (hJ : J (Function.update v p (some (Core.file data time)))) :
    Does J (Staged.commit ⟨dirName p, baseName p⟩) w fun _ w' =>
      w'.Shows (Function.update v p (some (Core.file data time))) ∧ w'.temp = none := by
  obtain ⟨w1, hc, hw1, ht1⟩ := exec_rename hw hp hd h ht
  refine does_sys hc (hw1.onView hJ) ?_
  refine Prog.Succeeds.bind (Q := fun _ w' => w1 = w') (does_ok rfl) ?_
  rintro _ _ rfl
  exact does_sys (exec_sync hw1) (hw1.tick.onView hJ) (does_ok ⟨hw1.tick, ht1⟩)

/-- After a commit there is nothing to drop. -/
theorem does_drop {staged : Staged} (hw : w.Shows v) (hJ : J v) (ht : w.temp = none) :
    Does J staged.drop w fun _ w' => w = w' :=
  does_sys (exec_dropTemp_none ht) (hw.onView hJ) (Prog.succeeds_pure rfl)

/-! ### Times and checks -/

/-- Setting the time of a directory changes nothing else. -/
theorem does_setMtime {sec : Int64} {ns : UInt32} (hns : ns < 1000000000) (hp : root.Takes path)
    (hw : w.Shows v) (hd : v (root.pathOf path) = some Core.dir) (hJ : J v) :
    Does J (root.setMtime path sec ns) w fun _ w' => w'.Shows v ∧ w'.temp = w.temp ∧
      ∃ tag, ∀ q, w'.tree.get q = if q = root.pathOf path
        then (w.tree.get q).map (fun n => ⟨n.body, ⟨sec, ns, hns⟩, tag⟩) else w.tree.get q := by
  have hu : (root.joined path).utf8 = root.pathOf path := root.utf8_joined path
  obtain ⟨n, hn, hb⟩ := hw.isDir.mpr hd
  -- A directory can be opened for its metadata.
  have hopen : exec (.openFile (root.pathOf path)) w = (.ok (n.metadata, n.body.data), w) := by
    refine Prod.ext ?_ rfl
    show (do
      let n ← w.tree.find (root.pathOf path)
      if n.body = Body.symlink then throw Errno.symlinkLoop
      pure (n.metadata, n.body.data)) = _
    rw [Tree.find_ok.mpr hn]
    simp [bind, Except.bind, hb, pure, Except.pure]
  have hset : exec (.utimens (root.pathOf path) ⟨sec, ns, hns⟩) w = (.ok (), { w with
      tree := w.tree.stamp (root.pathOf path) ⟨sec, ns, hns⟩ (w.tick + 1), tick := w.tick + 1 }) :=
    hw.attempt_ok (Disk.utimens_ok.mpr ⟨⟨n, hn, by rw [hb]; simp⟩, rfl⟩)
  -- The time of a directory is not part of what is shown.
  have hw1 : Disk.Shows { w with
      tree := w.tree.stamp (root.pathOf path) ⟨sec, ns, hns⟩ (w.tick + 1), tick := w.tick + 1 } v :=
    ⟨hw.calm, (view_stamp ⟨n, hn, hb⟩).trans hw.view⟩
  refine Prog.Succeeds.bind (Q := fun s' w' => root.joined path = s' ∧ w = w')
    (Prog.succeeds_lift hp.full ⟨rfl, rfl⟩) ?_
  rintro _ _ ⟨rfl, rfl⟩
  rw [hu]
  refine does_sys hopen (hw.onView hJ) ?_
  refine Prog.Succeeds.bind (Q := fun _ w' => w = w') (does_ok rfl) ?_
  rintro _ _ rfl
  refine Prog.Succeeds.bind (Q := fun t w' => ⟨sec, ns, hns⟩ = t ∧ w = w')
    (Prog.succeeds_lift (timeOf_eq hns) ⟨rfl, rfl⟩) ?_
  rintro _ _ ⟨rfl, rfl⟩
  refine does_sys hset (hw1.onView hJ) (does_ok ⟨hw1, rfl, w.tick + 1, fun q => ?_⟩)
  show (w.tree.stamp _ _ _).get q = _
  rw [Tree.get_stamp]
  split
  · next h => rw [h]
  · rfl

/-- `check_entry` passes and changes nothing. -/
theorem does_checkEntry {e : Entry} (hp : root.Takes e.path) (hw : w.Shows v) (hJ : J v)
    {n : Node} (hn : w.tree.get (root.pathOf e.path) = some n)
    (hacc : e.accepts n.metadata = true) : Does J (checkEntry root e) w fun _ w' => w = w' :=
  (quiet_of_reads calls_checkEntry).succeeds (hw.onView hJ)
    (checkEntry_ok.mpr ⟨⟨_, hp.full⟩, n, hn, hacc⟩) (a := ()) rfl

/-- `exists` tells that nothing is there. -/
theorem does_exists_false (hp : root.Takes path) (hw : w.Shows v) (hJ : J v)
    (hd : v (dirName (root.pathOf path)) = some Core.dir) (hnone : v (root.pathOf path) = none) :
    Does J (root.exists? path) w fun b w' => b = false ∧ w = w' := by
  have hfind := Tree.find_noent hp.clean.ne_nil (hw.isDir.mpr hd) (hw.get_none hnone)
  refine (quiet_of_reads calls_exists).succeeds (hw.onView hJ) (a := false) ?_ ⟨rfl, rfl⟩
  unfold Root.exists?
  rw [Prog.run_bind_ok (Prog.run_attempt exec _ w), run_metadata hp.full, hfind]
  rfl

end

end RrSync

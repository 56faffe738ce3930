import RrSync.Proofs.Fs

/-!
# `RrSync.Spec.View`: trees without the times of directories

A synchronization decides about the objects of a tree, and about the times of files. The
times of directories move with every change below them and are set at the end. A `View` is
what remains of a tree without them. On views each operation of the file system is an
update at one path, and the lemmas here say so for a disk on which no call fails
(`Disk.Shows`).

The triples are stated for an arbitrary property `J` of the views a run goes through.
-/

set_option autoImplicit false

namespace RrSync

open Lib

/-- An object without the time of a directory. -/
abbrev Core := Body × Option Time

/-- What a reader of an object sees: its body, and the time of anything but a directory. The time of
a directory changes with every change of its entries. -/
def Node.core (n : Node) : Core := (n.body, if n.body = .directory then none else some n.mtime)

/-- What is at each path. -/
abbrev View := Path → Option Core

/-- What a directory looks like. -/
def Core.dir : Core := (.directory, none)

/-- What a file with this content and time looks like. -/
def Core.file (data : Bytes) (time : Time) : Core := (.file data, some time)

/-- What the objects of a tree look like, path by path. -/
def Tree.view (t : Tree) : View := fun p => (t.get p).map Node.core

/-- An object looks like a directory exactly when it is one. -/
theorem Node.core_eq_dir {n : Node} : n.core = Core.dir ↔ n.body = .directory := by
  unfold Node.core Core.dir
  by_cases h : n.body = .directory <;> simp [h]

/-- The directories of a tree are those of its view. -/
theorem Tree.isDir_iff {t : Tree} {p : Path} : t.IsDir p ↔ t.view p = some Core.dir := by
  simp only [Tree.IsDir, Tree.view, Option.map_eq_some_iff, Node.core_eq_dir]

/-- There is nothing at a path of the view exactly when there is nothing in the tree. -/
theorem Tree.view_eq_none {t : Tree} {p : Path} : t.view p = none ↔ t.get p = none := by
  simp [Tree.view]

/-- No call fails on the disk, and its tree has the view `v`. -/
structure Disk.Shows (w : Disk) (v : View) : Prop where
  calm : ∀ k, w.env.fault k = false
  view : w.tree.view = v

/-- The property `J` of views, as a property of disks. -/
def onView (J : View → Prop) (w : Disk) : Prop := J w.tree.view

section
variable {w : Disk} {v : View}

/-- On a calm disk a call that may fail does what it says. -/
theorem Disk.Shows.attempt_ok {α : Type} {f : Disk → Except Errno (α × Disk)} {a : α} {w' : Disk}
    (hw : w.Shows v) (h : f { w with tick := w.tick + 1 } = .ok (a, w')) :
    w.attempt f = (.ok a, w') := by
  unfold Disk.attempt
  simp only [hw.calm w.tick, Bool.false_eq_true, if_false, h]

/-- The time of a directory is not part of the view. -/
theorem view_stamp {t : Tree} {d : Path} {time : Time} {tag : Nat} (hd : t.IsDir d) :
    (t.stamp d time tag).view = t.view := by
  funext q
  unfold Tree.view
  rw [Tree.get_stamp]
  by_cases hq : q = d
  · subst hq
    obtain ⟨n, hn, hb⟩ := hd
    simp [hn, Node.core, hb]
  · rw [if_neg hq]

/-- An object that is put into a tree is put into its view. -/
theorem view_put {t : Tree} {p : Path} {n : Node} (h : t.Fits p n) :
    (t.put p n h).view = Function.update t.view p (some n.core) := by
  funext q
  unfold Tree.view
  rw [Tree.get_put, Function.update_apply]
  split <;> rfl

/-- An object that is removed from a tree is removed from its view. -/
theorem view_remove {t : Tree} {p : Path} (h : p ≠ [] ∧ t.Leaf p) :
    (t.remove p h).view = Function.update t.view p none := by
  funext q
  unfold Tree.view
  rw [Tree.get_remove, Function.update_apply]
  split <;> rfl

end

/-! ### System calls on views -/

section
variable {w : Disk} {v : View} {d n p : Path}

/-- The directories of a disk are those of the view it shows. -/
theorem Disk.Shows.isDir (hw : w.Shows v) : w.tree.IsDir p ↔ v p = some Core.dir := by
  rw [Tree.isDir_iff, hw.view]

/-- What the view shows is in the tree. -/
theorem Disk.Shows.get (hw : w.Shows v) {c : Core} (h : v p = some c) :
    ∃ n, w.tree.get p = some n ∧ n.core = c := by
  rw [← hw.view] at h
  exact Option.map_eq_some_iff.mp h

/-- What the view does not show is not in the tree. -/
theorem Disk.Shows.get_none (hw : w.Shows v) (h : v p = none) : w.tree.get p = none := by
  rw [← hw.view] at h
  exact Tree.view_eq_none.mp h

/-- An object with nothing below it in the view has nothing below it in the tree. -/
theorem Disk.Shows.leaf (hw : w.Shows v) (h : ∀ q, q ≠ [] → dirName q = p → v q = none) :
    w.tree.Leaf p := by
  rw [Tree.leaf_iff]
  intro q m hq hm hd
  have := hw.get_none (h q hq hd)
  rw [hm] at this
  cases this

/-- The directories of a view are the root and clean paths. -/
theorem Disk.Shows.rooted (hw : w.Shows v) (h : v p = some Core.dir) : Rooted p := by
  by_cases hp : p = []
  · exact Or.inl hp
  · obtain ⟨m, hm, -⟩ := hw.get h
    exact Or.inr (Tree.cleanPath hp hm)

/-- The change of one path and the new time of the directory it is in. -/
theorem Disk.Shows.touchDir (hw : w.Shows v) {t : Tree} {v' : View} (ht : t.view = v')
    (hd : v' d = some Core.dir) (temp : Option Temp) :
    Disk.Shows { w.touchDir t d with temp := temp } v' :=
  ⟨hw.calm, (view_stamp (Tree.isDir_iff.mpr (ht ▸ hd))).trans ht⟩

/-- The number of calls is not part of the view. -/
theorem Disk.Shows.tick (hw : w.Shows v) : Disk.Shows { w with tick := w.tick + 1 } v :=
  ⟨hw.calm, hw.view⟩

/-- A directory of the view can be opened. -/
theorem exec_openDir (hw : w.Shows v) (hd : v d = some Core.dir) :
    exec (.openDir d) w = (.ok (), w) :=
  Prod.ext (Tree.openDir_ok.mpr (hw.isDir.mpr hd)) rfl

/-- A sync changes nothing that can be seen. -/
theorem exec_sync (hw : w.Shows v) :
    exec (.sync d) w = (.ok (), { w with tick := w.tick + 1 }) := by
  show w.attempt (fun w => pure ((), w)) = _
  exact hw.attempt_ok rfl

/-- A directory is made where there is nothing, in a directory. -/
theorem exec_mkdir (hw : w.Shows v) (hn : NameOk n) (hd : v d = some Core.dir)
    (hnone : v (join d n) = none) : ∃ w', exec (.mkdir d n) w = (.ok (), w') ∧
      w'.Shows (Function.update v (join d n) (some Core.dir)) ∧ w'.temp = w.temp := by
  have hclean : CleanPath (join d n) := (hw.rooted hd).join_name hn
  have hfits : w.tree.Fits (join d n)
      ⟨.directory, ({ w with tick := w.tick + 1 } : Disk).now, w.tick + 1⟩ :=
    ⟨hclean, by rw [dirName_join_name hn]; exact hw.isDir.mpr hd, Or.inl rfl⟩
  refine ⟨_, hw.attempt_ok (Disk.mkdir_ok.mpr
    ⟨hw.isDir.mpr hd, hw.get_none hnone, hfits, rfl⟩), ?_, rfl⟩
  -- the time of the parent changes, and the parent is not the new directory
  have hne : d ≠ join d n := fun he => by
    rw [← he, hd] at hnone
    cases hnone
  refine hw.tick.touchDir ?_ ?_ _
  · rw [view_put, hw.view]
    rfl
  · rw [Function.update_of_ne hne]
    exact hd

/-- Where there is something, no directory is made. -/
theorem exec_mkdir_exist (hw : w.Shows v) {c : Core} (hd : v d = some Core.dir)
    (h : v (join d n) = some c) :
    exec (.mkdir d n) w = (.error .exist, { w with tick := w.tick + 1 }) := by
  obtain ⟨m, hm, -⟩ := hw.get h
  have ho : w.tree.openDir d = .ok () := Tree.openDir_ok.mpr (hw.isDir.mpr hd)
  show w.attempt (Disk.mkdir d n) = _
  unfold Disk.attempt Disk.mkdir
  simp only [hw.calm w.tick, Bool.false_eq_true, if_false, ho, hm]
  rfl

/-- What the calls that remove an object need of it. -/
structure Removable (v : View) (p : Path) : Prop where
  ne_nil : p ≠ []
  parent : v (dirName p) = some Core.dir
  leaf : ∀ q, q ≠ [] → dirName q = p → v q = none

/-- An empty directory is removed, unless a file is staged in it. -/
theorem exec_rmdir (hw : w.Shows v) (hp : Removable v p) (h : v p = some Core.dir)
    (htemp : w.temp.map Temp.dir ≠ some p) :
    ∃ w', exec (.rmdir (dirName p) (baseName p)) w = (.ok (), w') ∧
      w'.Shows (Function.update v p none) ∧ w'.temp = w.temp := by
  obtain ⟨m, hm, -⟩ := hw.get h
  have hjoin := (Tree.cleanPath hp.ne_nil hm).join_dirName
  have hleaf : p ≠ [] ∧ w.tree.Leaf p := ⟨hp.ne_nil, hw.leaf hp.leaf⟩
  have hok := fun w' => @Disk.rmdir_ok { w with tick := w.tick + 1 } w' () (dirName p) (baseName p)
  simp only [hjoin] at hok
  refine ⟨_, hw.attempt_ok ((hok _).mpr ⟨hw.isDir.mpr hp.parent, hw.isDir.mpr h, htemp, hleaf, rfl⟩),
    ?_, rfl⟩
  refine hw.tick.touchDir ?_ ?_ _
  · rw [view_remove, hw.view]
  · rw [Function.update_of_ne (SepPath.dirName_ne hp.ne_nil)]
    exact hp.parent

/-- An object that is no directory is removed. -/
theorem exec_unlink (hw : w.Shows v) (hp : Removable v p) {c : Core} (h : v p = some c)
    (hc : c ≠ Core.dir) : ∃ w', exec (.unlink (dirName p) (baseName p)) w = (.ok (), w') ∧
      w'.Shows (Function.update v p none) ∧ w'.temp = w.temp := by
  obtain ⟨m, hm, rfl⟩ := hw.get h
  have hjoin := (Tree.cleanPath hp.ne_nil hm).join_dirName
  have hleaf : p ≠ [] ∧ w.tree.Leaf p := ⟨hp.ne_nil, hw.leaf hp.leaf⟩
  have hok := fun w' => @Disk.unlink_ok { w with tick := w.tick + 1 } w' () (dirName p) (baseName p)
  simp only [hjoin] at hok
  refine ⟨_, hw.attempt_ok ((hok _).mpr ⟨hw.isDir.mpr hp.parent,
    ⟨m, hm, fun hb => hc (Node.core_eq_dir.mpr hb)⟩, hleaf, rfl⟩), ?_, rfl⟩
  refine hw.tick.touchDir ?_ ?_ _
  · rw [view_remove, hw.view]
  · rw [Function.update_of_ne (SepPath.dirName_ne hp.ne_nil)]
    exact hp.parent

/-- A temporary file is created beside the objects of the view. -/
theorem exec_createTemp (hw : w.Shows v) (hd : v d = some Core.dir) :
    ∃ w' time, exec (.createTemp d) w = (.ok (), w') ∧ w'.Shows v ∧
      w'.temp = some ⟨d, [], time⟩ := by
  refine ⟨_, _, hw.attempt_ok (Disk.createTemp_ok.mpr ⟨hw.isDir.mpr hd, rfl⟩), ?_, rfl⟩
  exact hw.tick.touchDir hw.view hd _

/-- What is written goes to the end of the temporary file. -/
theorem exec_write (hw : w.Shows v) {data block : Bytes} {time : Time}
    (ht : w.temp = some ⟨d, data, time⟩) : ∃ w' time', exec (.write block) w = (.ok (), w') ∧
      w'.Shows v ∧ w'.temp = some ⟨d, data ++ block, time'⟩ :=
  ⟨_, _, hw.attempt_ok (Disk.write_ok.mpr ⟨_, ht, rfl⟩), ⟨hw.calm, hw.view⟩, rfl⟩

/-- The temporary file gets its time before it is renamed. -/
theorem exec_setTempTime (hw : w.Shows v) {data : Bytes} {time time' : Time}
    (ht : w.temp = some ⟨d, data, time⟩) : ∃ w', exec (.setTempTime time') w = (.ok (), w') ∧
      w'.Shows v ∧ w'.temp = some ⟨d, data, time'⟩ :=
  ⟨_, hw.attempt_ok (Disk.setTempTime_ok.mpr ⟨_, ht, rfl⟩), ⟨hw.calm, hw.view⟩, rfl⟩

/-- A sync of the temporary file changes nothing that can be seen. -/
theorem exec_syncTemp (hw : w.Shows v) :
    exec .syncTemp w = (.ok (), { w with tick := w.tick + 1 }) := by
  show w.attempt (fun w => pure ((), w)) = _
  exact hw.attempt_ok rfl

/-- Renaming puts the staged file in the place of a leaf that is no directory. -/
theorem exec_rename (hw : w.Shows v) (hp : CleanPath p) (hd : v (dirName p) = some Core.dir)
    (h : v p ≠ some Core.dir) {data : Bytes} {time : Time}
    (ht : w.temp = some ⟨dirName p, data, time⟩) :
    ∃ w', exec (.rename (dirName p) (baseName p)) w = (.ok (), w') ∧
      w'.Shows (Function.update v p (some (Core.file data time))) ∧ w'.temp = none := by
  have hnot : ¬ w.tree.IsDir p := fun hdir => h (hw.isDir.mp hdir)
  have hok := fun w' => @Disk.rename_ok { w with tick := w.tick + 1 } w' () (dirName p) (baseName p)
  simp only [hp.join_dirName] at hok
  -- the staged file fits below its parent, since no directory is in its place
  have hfits : w.tree.Fits p ⟨.file data, time, w.tick + 1⟩ :=
    ⟨hp, hw.isDir.mpr hd, Or.inr (Tree.leaf_of_not_isDir hnot)⟩
  refine ⟨_, hw.attempt_ok ((hok _).mpr ⟨_, ht, rfl, hw.isDir.mpr hd, hnot, hfits, rfl⟩), ?_, rfl⟩
  refine hw.tick.touchDir ?_ ?_ _
  · rw [view_put, hw.view]
    rfl
  · rw [Function.update_of_ne (SepPath.dirName_ne hp.ne_nil)]
    exact hd

/-- There is nothing to drop after a rename. -/
theorem exec_dropTemp_none (ht : w.temp = none) : exec (.dropTemp d) w = (.ok (), w) := by
  show ((.ok () : Except Errno Unit), w.dropTemp d) = _
  unfold Disk.dropTemp
  split
  · rfl
  · next h =>
    rw [ht] at h
    cases h

end

end RrSync

import RrSync.Lib.Except
import RrSync.Model.Disk

/-!
# `RrSync.Proofs.Disk`: what a system call does

For each call that changes the tree, one equivalence says when it succeeds and what the disk
is afterwards (`Disk.mkdir_ok` and so on). Everything else follows from these.

`FsCall.May` lists what a call can do to the object at a path, and `exec_may` says that
nothing else happens. A relation between the old and the new object that all calls of a
program respect therefore holds at every moment of its run (`Issues.frame`).
-/

set_option autoImplicit false

namespace RrSync

open Lib

namespace Disk

variable {w w' : Disk} {u : Unit}

/-- When `mkdirat` succeeds, there was a directory with room for the name. -/
theorem mkdir_ok {d n : Path} : mkdir d n w = .ok (u, w') ↔
    w.tree.IsDir d ∧ w.tree.get (join d n) = none ∧
      ∃ h : w.tree.Fits (join d n) ⟨.directory, w.now, w.tick⟩,
        w.touchDir (w.tree.put (join d n) ⟨.directory, w.now, w.tick⟩ h) d = w' := by
  simp only [mkdir, bind_eq_ok, Tree.openDir_ok, exists_and_left, exists_const,
    ite_throw_bind_eq_ok, dite_pure_eq_ok, Bool.not_eq_true, Option.isSome_eq_false_iff,
    Option.isNone_iff_eq_none, Prod.mk.injEq, true_and]

/-- When `unlinkat` succeeds without `REMOVEDIR`, no directory has gone away. -/
theorem unlink_ok {d n : Path} : unlink d n w = .ok (u, w') ↔
    w.tree.IsDir d ∧ (∃ m, w.tree.get (join d n) = some m ∧ m.body ≠ .directory) ∧
      ∃ h : join d n ≠ [] ∧ w.tree.Leaf (join d n),
        w.touchDir (w.tree.remove (join d n) h) d = w' := by
  simp only [unlink, bind_eq_ok, Tree.openDir_ok, Tree.find_ok, exists_and_left, exists_const,
    ite_throw_bind_eq_ok, dite_pure_eq_ok, Prod.mk.injEq, true_and]
  tauto

/-- When `unlinkat` succeeds with `REMOVEDIR`, an empty directory has gone away. -/
theorem rmdir_ok {d n : Path} : rmdir d n w = .ok (u, w') ↔
    w.tree.IsDir d ∧ w.tree.IsDir (join d n) ∧ w.temp.map Temp.dir ≠ some (join d n) ∧
      ∃ h : join d n ≠ [] ∧ w.tree.Leaf (join d n),
        w.touchDir (w.tree.remove (join d n) h) d = w' := by
  simp only [rmdir, bind_eq_ok, Tree.openDir_ok, Tree.find_ok, exists_and_left, exists_const,
    ite_throw_bind_eq_ok, dite_pure_eq_ok, Prod.mk.injEq, true_and, Tree.IsDir, ne_eq, not_not]
  tauto

/-- A temporary file can be created in any directory. -/
theorem createTemp_ok {d : Path} : createTemp d w = .ok (u, w') ↔
    w.tree.IsDir d ∧ { w.touchDir w.tree d with temp := some ⟨d, [], w.now⟩ } = w' := by
  simp only [createTemp, bind_eq_ok, Tree.openDir_ok, exists_and_left, exists_const, pure_eq_ok,
    Prod.mk.injEq, true_and]

/-- Only a staged file is written to. -/
theorem write_ok {data : Bytes} : write data w = .ok (u, w') ↔
    ∃ temp, w.temp = some temp ∧
      { w with temp := some { temp with data := temp.data ++ data, mtime := w.now } } = w' := by
  unfold write
  cases w.temp <;> simp [throw_eq_ok, pure_eq_ok]

/-- Only a staged file gets a time before it is installed. -/
theorem setTempTime_ok {time : Time} : setTempTime time w = .ok (u, w') ↔
    ∃ temp, w.temp = some temp ∧ { w with temp := some { temp with mtime := time } } = w' := by
  unfold setTempTime
  cases w.temp <;> simp [throw_eq_ok, pure_eq_ok]

/-- When a rename succeeds, the staged file is in a place where no directory was. -/
theorem rename_ok {d n : Path} : rename d n w = .ok (u, w') ↔
    ∃ temp, w.temp = some temp ∧ temp.dir = d ∧ w.tree.IsDir d ∧ ¬ w.tree.IsDir (join d n) ∧
      ∃ h : w.tree.Fits (join d n) ⟨.file temp.data, temp.mtime, w.tick⟩,
        { w.touchDir (w.tree.put (join d n) ⟨.file temp.data, temp.mtime, w.tick⟩ h) d with
          temp := none } = w' := by
  unfold rename
  cases w.temp with
  | none => simp [throw_eq_ok]
  | some temp =>
    simp only [bind_eq_ok, Tree.openDir_ok, exists_and_left, exists_const, ite_throw_bind_eq_ok,
      dite_pure_eq_ok, Prod.mk.injEq, true_and, ne_eq, not_not, Option.some.injEq,
      exists_eq_left']
    tauto

/-- Anything but a symbolic link gets the time. -/
theorem utimens_ok {p : Path} {time : Time} : utimens p time w = .ok (u, w') ↔
    (∃ m, w.tree.get p = some m ∧ m.body ≠ .symlink) ∧
      { w with tree := w.tree.stamp p time w.tick } = w' := by
  simp only [utimens, bind_eq_ok, Tree.find_ok, ite_throw_bind_eq_ok, pure_eq_ok, Prod.mk.injEq,
    true_and]
  tauto

/-- A lock is opened when it is there, and made when nothing is. -/
theorem openLock_ok {p : Path} {m : Metadata} : openLock p w = .ok (m, w') ↔
    (∃ n, w.tree.get p = some n ∧ (n.body ≠ .symlink ∧ n.body ≠ .directory) ∧
      n.metadata = m ∧ w = w') ∨
    w.tree.get p = none ∧ Node.metadata ⟨.file [], w.now, w.tick⟩ = m ∧
      ∃ h : w.tree.Fits p ⟨.file [], w.now, w.tick⟩,
        w.touchDir (w.tree.put p ⟨.file [], w.now, w.tick⟩ h) (dirName p) = w' := by
  unfold openLock
  cases hp : w.tree.get p with
  | none =>
    simp only [dite_pure_eq_ok, Prod.mk.injEq]
    simp
  | some n => simp [ite_throw_eq_ok, pure_eq_ok, and_assoc]

/-- A call that fails, or that the environment makes fail, leaves the tree as it is. -/
theorem attempt_tree {α : Type} {f : Disk → Except Errno (α × Disk)} {P : Tree → Prop}
    (h0 : P w.tree)
    (h : ∀ a w', f { w with tick := w.tick + 1 } = .ok (a, w') → P w'.tree) :
    P (w.attempt f).2.tree := by
  unfold attempt
  simp only []
  split
  · exact h0
  · split
    · next a w' hf => exact h a w' hf
    · exact h0

end Disk

/-! ### The inversion of `exec` -/

/-- Only the time and the tag of the object have changed. -/
def Restamped (old new : Option Node) : Prop :=
  ∃ n n', old = some n ∧ new = some n' ∧ n'.body = n.body

/-- What a call can do to the object at the path `q`. -/
def FsCall.May (q : Path) (old new : Option Node) : FsCall → Prop
  | .mkdir d n => q = d ∧ Restamped old new ∨
      q = join d n ∧ old = none ∧ ∃ m, new = some m ∧ m.body = .directory
  | .unlink d n => q = d ∧ Restamped old new ∨
      q = join d n ∧ new = none ∧ ∃ m, old = some m ∧ m.body ≠ .directory
  | .rmdir d n => q = d ∧ Restamped old new ∨
      q = join d n ∧ new = none ∧ ∃ m, old = some m ∧ m.body = .directory
  | .createTemp d => q = d ∧ Restamped old new
  | .dropTemp d => q = d ∧ Restamped old new
  | .rename d n => q = d ∧ Restamped old new ∨
      q = join d n ∧ (∀ m, old = some m → m.body ≠ .directory) ∧
        ∃ m data, new = some m ∧ m.body = .file data
  | .utimens p _ => q = p ∧ Restamped old new
  | .openLock p => q = dirName p ∧ Restamped old new ∨
      q = p ∧ old = none ∧ ∃ m, new = some m ∧ m.body = .file []
  | _ => False

section
variable {w : Disk} {t t' : Tree} {d p q : Path}

/-- A change of times changes the times of one object only. -/
theorem restamped_stamp {time : Time} {tag : Nat} : (t.stamp p time tag).get q = t.get q ∨
    q = p ∧ Restamped (t.get q) ((t.stamp p time tag).get q) := by
  rw [Tree.get_stamp]
  by_cases hq : q = p
  · subst hq
    cases h : t.get q with
    | none => exact Or.inl (by simp)
    | some n => exact Or.inr ⟨rfl, n, ⟨n.body, time, tag⟩, rfl, by simp, rfl⟩
  · exact Or.inl (if_neg hq)

/-- A change at `p` and a new time for the directory `d`, seen at the path `q`. -/
theorem get_touchDir {x : Option Node} (ht : ∀ q, t'.get q = if q = p then x else t.get q)
    (hne : p = d → x = none) : (w.touchDir t' d).tree.get q = t.get q ∨
      q = d ∧ Restamped (t.get q) ((w.touchDir t' d).tree.get q) ∨
      q = p ∧ (w.touchDir t' d).tree.get q = x := by
  unfold Disk.touchDir
  by_cases hq : q = p
  · refine Or.inr (Or.inr ⟨hq, ?_⟩)
    rw [Tree.get_stamp]
    by_cases hd : q = d
    · have hpd : p = d := hq.symm.trans hd
      rw [if_pos hd, ht, if_pos hpd.symm, hne hpd]
      rfl
    · rw [if_neg hd, ht, if_pos hq]
  · have h1 : t'.get q = t.get q := (ht q).trans (if_neg hq)
    rcases restamped_stamp (p := d) with h | ⟨hd, h⟩
    · exact Or.inl (h.trans h1)
    · exact Or.inr (Or.inl ⟨hd, h1 ▸ h⟩)

end

/-- What `Disk.attempt` needs of the change it attempts. -/
theorem attempt_may {α : Type} {c : FsCall} {w : Disk} {q : Path}
    {f : Disk → Except Errno (α × Disk)}
    (h : ∀ a w', f { w with tick := w.tick + 1 } = .ok (a, w') →
      w'.tree.get q = w.tree.get q ∨ c.May q (w.tree.get q) (w'.tree.get q)) :
    (w.attempt f).2.tree.get q = w.tree.get q ∨
      c.May q (w.tree.get q) ((w.attempt f).2.tree.get q) :=
  Disk.attempt_tree (P := fun t => t.get q = w.tree.get q ∨ c.May q (w.tree.get q) (t.get q))
    (Or.inl rfl) h

/-- A call leaves the object at a path alone, or does to it what `FsCall.May` lists. -/
theorem exec_may (c : FsCall) (w : Disk) (q : Path) :
    (exec c w).2.tree.get q = w.tree.get q ∨
      c.May q (w.tree.get q) ((exec c w).2.tree.get q) := by
  cases c with
  | stat | openDir | openFile | readDir | seconds | mark => exact Or.inl rfl
  | sync | syncTemp | flock =>
    refine attempt_may fun a w' h => Or.inl ?_
    cases h
    rfl
  | write data =>
    refine attempt_may fun a w' h => Or.inl ?_
    obtain ⟨temp, -, rfl⟩ := Disk.write_ok.mp h
    rfl
  | setTempTime time =>
    refine attempt_may fun a w' h => Or.inl ?_
    obtain ⟨temp, -, rfl⟩ := Disk.setTempTime_ok.mp h
    rfl
  | mkdir d n =>
    refine attempt_may fun a w' h => ?_
    obtain ⟨hd, hnone, hf, rfl⟩ := Disk.mkdir_ok.mp h
    -- the new directory is not its own parent, so the two changes do not meet
    have hne : join d n ≠ d := by
      intro he
      obtain ⟨m, hm, -⟩ := hd
      rw [he] at hnone
      exact absurd (hm.symm.trans hnone) (by simp)
    rcases get_touchDir (q := q) (Tree.get_put _ hf) (fun he => absurd he hne) with
      h | h | ⟨rfl, h⟩
    · exact Or.inl h
    · exact Or.inr (Or.inl h)
    · exact Or.inr (Or.inr ⟨rfl, hnone, _, h, rfl⟩)
  | unlink d n =>
    refine attempt_may fun a w' h => ?_
    obtain ⟨-, hm, hl, rfl⟩ := Disk.unlink_ok.mp h
    rcases get_touchDir (q := q) (Tree.get_remove _ hl) (fun _ => rfl) with h | h | ⟨rfl, h⟩
    · exact Or.inl h
    · exact Or.inr (Or.inl h)
    · exact Or.inr (Or.inr ⟨rfl, h, hm⟩)
  | rmdir d n =>
    refine attempt_may fun a w' h => ?_
    obtain ⟨-, hm, -, hl, rfl⟩ := Disk.rmdir_ok.mp h
    rcases get_touchDir (q := q) (Tree.get_remove _ hl) (fun _ => rfl) with h | h | ⟨rfl, h⟩
    · exact Or.inl h
    · exact Or.inr (Or.inl h)
    · exact Or.inr (Or.inr ⟨rfl, h, hm⟩)
  | createTemp d =>
    refine attempt_may fun a w' h => ?_
    obtain ⟨-, rfl⟩ := Disk.createTemp_ok.mp h
    exact restamped_stamp
  | rename d n =>
    refine attempt_may fun a w' h => ?_
    obtain ⟨temp, -, -, hd, hn, hf, rfl⟩ := Disk.rename_ok.mp h
    -- as for `mkdir`: the file is not in its own place
    have hne : join d n ≠ d := fun he => hn (he.symm ▸ hd)
    rcases get_touchDir (q := q) (Tree.get_put _ hf) (fun he => absurd he hne) with
      h | h | ⟨rfl, h⟩
    · exact Or.inl h
    · exact Or.inr (Or.inl h)
    · exact Or.inr (Or.inr ⟨rfl, fun m hm hb => hn ⟨m, hm, hb⟩, _, _, h, rfl⟩)
  | dropTemp d =>
    show (w.dropTemp d).tree.get q = w.tree.get q ∨
      q = d ∧ Restamped (w.tree.get q) ((w.dropTemp d).tree.get q)
    unfold Disk.dropTemp
    split
    · exact Or.inl rfl
    · exact restamped_stamp
  | utimens p time =>
    refine attempt_may fun a w' h => ?_
    obtain ⟨-, rfl⟩ := Disk.utimens_ok.mp h
    exact restamped_stamp
  | openLock p =>
    refine attempt_may fun a w' h => ?_
    rcases Disk.openLock_ok.mp h with ⟨n, -, -, -, rfl⟩ | ⟨hnone, -, hf, rfl⟩
    · exact Or.inl rfl
    · have hne : p ≠ dirName p := fun he => SepPath.dirName_ne hf.1.ne_nil he.symm
      rcases get_touchDir (q := q) (Tree.get_put _ hf) (fun he => absurd he hne) with
        h | h | ⟨rfl, h⟩
      · exact Or.inl h
      · exact Or.inr (Or.inl h)
      · exact Or.inr (Or.inr ⟨rfl, hnone, _, h, rfl⟩)

/-! ### What no call changes -/

/-- The steps of the synchronization that the call records. -/
def FsCall.marks : FsCall → List Mark
  | .mark m => [m]
  | _ => []

/-- The environment and the journal are the same. -/
def Disk.Alike (w w' : Disk) : Prop := w'.env = w.env ∧ w'.journal = w.journal

/-- A call that fails leaves the environment and the journal as one that succeeds does. -/
theorem Disk.attempt_alike {α : Type} {w : Disk} {f : Disk → Except Errno (α × Disk)}
    (h : ∀ a w', f { w with tick := w.tick + 1 } = .ok (a, w') → w.Alike w') :
    w.Alike (w.attempt f).2 := by
  unfold attempt
  simp only []
  split
  · exact ⟨rfl, rfl⟩
  · split
    · next a w' hf => exact h a w' hf
    · exact ⟨rfl, rfl⟩

/-- The environment stays, and the journal grows by the marks of the call. -/
theorem exec_env_journal (c : FsCall) (w : Disk) :
    (exec c w).2.env = w.env ∧ (exec c w).2.journal = w.journal ++ c.marks := by
  -- only a mark changes the journal, so the rest is about the other calls
  suffices h : c.marks = [] → w.Alike (exec c w).2 by
    cases c with
    | mark m => exact ⟨rfl, rfl⟩
    | _ =>
      obtain ⟨h1, h2⟩ := h rfl
      exact ⟨h1, h2.trans (List.append_nil _).symm⟩
  intro hmarks
  cases c with
  | mark m => cases hmarks
  | stat | openDir | openFile | readDir | seconds => exact ⟨rfl, rfl⟩
  | sync | syncTemp | flock =>
    refine Disk.attempt_alike fun a w' h => ?_
    cases h
    exact ⟨rfl, rfl⟩
  | write data =>
    refine Disk.attempt_alike fun a w' h => ?_
    obtain ⟨temp, -, rfl⟩ := Disk.write_ok.mp h
    exact ⟨rfl, rfl⟩
  | setTempTime time =>
    refine Disk.attempt_alike fun a w' h => ?_
    obtain ⟨temp, -, rfl⟩ := Disk.setTempTime_ok.mp h
    exact ⟨rfl, rfl⟩
  | mkdir d n =>
    refine Disk.attempt_alike fun a w' h => ?_
    obtain ⟨-, -, -, rfl⟩ := Disk.mkdir_ok.mp h
    exact ⟨rfl, rfl⟩
  | unlink d n =>
    refine Disk.attempt_alike fun a w' h => ?_
    obtain ⟨-, -, -, rfl⟩ := Disk.unlink_ok.mp h
    exact ⟨rfl, rfl⟩
  | rmdir d n =>
    refine Disk.attempt_alike fun a w' h => ?_
    obtain ⟨-, -, -, -, rfl⟩ := Disk.rmdir_ok.mp h
    exact ⟨rfl, rfl⟩
  | createTemp d =>
    refine Disk.attempt_alike fun a w' h => ?_
    obtain ⟨-, rfl⟩ := Disk.createTemp_ok.mp h
    exact ⟨rfl, rfl⟩
  | rename d n =>
    refine Disk.attempt_alike fun a w' h => ?_
    obtain ⟨temp, -, -, -, -, -, rfl⟩ := Disk.rename_ok.mp h
    exact ⟨rfl, rfl⟩
  | dropTemp d =>
    show w.Alike (w.dropTemp d)
    unfold Disk.dropTemp
    split <;> exact ⟨rfl, rfl⟩
  | utimens p time =>
    refine Disk.attempt_alike fun a w' h => ?_
    obtain ⟨-, rfl⟩ := Disk.utimens_ok.mp h
    exact ⟨rfl, rfl⟩
  | openLock p =>
    refine Disk.attempt_alike fun a w' h => ?_
    rcases Disk.openLock_ok.mp h with ⟨n, -, -, -, rfl⟩ | ⟨-, -, -, rfl⟩ <;> exact ⟨rfl, rfl⟩

/-- A reflexive and transitive relation between the old and the new object that every call
of a program respects holds between the start and every moment of its run. -/
theorem frame_of_issues {ε α : Type} {m : Prog FsSig ε α} {P : FsCall → Prop}
    {R : Path → Option Node → Option Node → Prop} (hm : Prog.Issues (P : FsSig.Call → Prop) m)
    (refl : ∀ q x, R q x x) (trans : ∀ q x y z, R q x y → R q y z → R q x z)
    (hP : ∀ c, P c → ∀ q old new, c.May q old new → R q old new) {w w' : Disk}
    (hw : m.Moment exec w w') (q : Path) : R q (w.tree.get q) (w'.tree.get q) := by
  refine Prog.Spec.moment (I := fun w' => R q (w.tree.get q) (w'.tree.get q))
    (hm.spec (fun c v hc hv => ?_) (refl _ _)) (refl _ _) hw
  rcases exec_may c v q with h | h
  · rw [h]
    exact hv
  · exact trans _ _ _ _ hv (hP c hc q _ _ h)

end RrSync

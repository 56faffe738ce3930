import RrSync.Proofs.Ops

/-!
# `RrSync.Proofs.Install`: a file that was staged and committed is in its place

No assumption is made about the disk, and calls may fail at any time: the lemmas speak of
runs that succeed. `install_run` says what the disk holds after `install`.
-/

set_option autoImplicit false

namespace RrSync

open Lib

/-! ### Runs that succeed -/

section
variable {α : Type} {w w' w'' : Disk} {a : α}

/-- A call that succeeded has done what it says. -/
theorem Disk.attempt_eq_ok {f : Disk → Except Errno (α × Disk)}
    (h : w.attempt f = (.ok a, w')) : f { w with tick := w.tick + 1 } = .ok (a, w') := by
  unfold Disk.attempt at h
  simp only [] at h
  split at h
  · cases h
  · split at h
    · next hf =>
      cases h
      exact hf
    · cases h

/-- The staged file is kept by a call that keeps it when it succeeds. -/
theorem Disk.attempt_keeps {f : Disk → Except Errno (α × Disk)}
    (h : ∀ a w', f { w with tick := w.tick + 1 } = .ok (a, w') → w'.temp = w.temp) :
    (w.attempt f).2.temp = w.temp := by
  unfold Disk.attempt
  simp only []
  split
  · rfl
  · split
    · next hf => exact h _ _ hf
    · rfl

/-- A sync does nothing that can be seen. -/
theorem Disk.attempt_pure :
    (w.attempt fun w => pure ((), w)).2 = { w with tick := w.tick + 1 } := by
  unfold Disk.attempt
  simp only []
  split <;> rfl

/-- A run that starts with a call and succeeds. -/
theorem run_call {β : Type} {c : FsCall} {k : c.Reply → FsM β} {b : β}
    (h : (sys c >>= k).run exec w = (.ok b, w')) :
    ∃ r w₁, exec c w = (r, w₁) ∧ (k r).run exec w₁ = (.ok b, w') := ⟨_, _, rfl, h⟩

/-- A reply that is used without an error. -/
theorem run_ok {r : Except Errno α} (h : (ok r).run exec w = (.ok a, w')) :
    r = .ok a ∧ w = w' := by
  cases r with
  | ok b =>
    cases h
    exact ⟨rfl, rfl⟩
  | error e => cases h

/-- The same with what follows. -/
theorem run_ok_bind {β : Type} {r : Except Errno α} {k : α → FsM β} {b : β}
    (h : (ok r >>= k).run exec w = (.ok b, w')) :
    ∃ a, r = .ok a ∧ (k a).run exec w = (.ok b, w') := by
  obtain ⟨a, _, h1, h2⟩ := Prog.run_bind_eq_ok.mp h
  obtain ⟨rfl, rfl⟩ := run_ok h1
  exact ⟨a, rfl, h2⟩

end

section
variable {w w' : Disk} {root : Root} {path : String}

/-- A program that only reads leaves the disk. -/
theorem run_quiet {α : Type} {m : FsM α} {a : α} (hm : Calls FsCall.Reads m)
    (h : m.run exec w = (.ok a, w')) : w' = w := by
  rw [← (quiet_of_reads hm).run_snd w, h]

/-- What `parent` has returned. -/
theorem parent_run {dir name : Path} (h : (root.parent path).run exec w = (.ok (dir, name), w')) :
    CleanPath (root.pathOf path) ∧ dir = dirName (root.pathOf path) ∧
      name = baseName (root.pathOf path) ∧ w = w' := by
  obtain ⟨hclean, hr⟩ := (calls_parent (E := fun _ _ _ => True)).2.run (congrArg Prod.fst h)
  refine ⟨hclean, congrArg Prod.fst hr, congrArg Prod.snd hr, ?_⟩
  obtain ⟨_, _, hvalid, h⟩ := Prog.run_bind_eq_ok.mp h
  obtain ⟨-, rfl⟩ := Prog.run_lift_eq_ok.mp hvalid
  obtain ⟨full, _, hlift, h⟩ := Prog.run_bind_eq_ok.mp h
  obtain ⟨-, rfl⟩ := Prog.run_lift_eq_ok.mp hlift
  obtain ⟨_, _, hc, h⟩ := run_call h
  obtain ⟨_, rfl, h⟩ := run_ok_bind h
  obtain ⟨-, rfl⟩ := Prog.run_pure_eq_ok.mp h
  exact congrArg Prod.snd hc

/-- The loop that fills a staged file has appended what it read, and left the tree. -/
theorem stageLoop_run {size : Nat} {d : Path} {time : Time} {seen all : Bytes}
    {reader : List Bytes} (ht : w.temp = some ⟨d, seen, time⟩)
    (h : (stageLoop path size seen reader).run exec w = (.ok all, w')) :
    all = seen ++ reader.flatten ∧ w'.tree = w.tree ∧ ∃ time', w'.temp = some ⟨d, all, time'⟩ := by
  induction reader generalizing seen w time with
  | nil =>
    cases h
    exact ⟨by simp, rfl, time, ht⟩
  | cons block rest ih =>
    obtain ⟨-, h⟩ := Prog.run_check_bind_eq_ok.mp h
    obtain ⟨_, w₁, hc, h⟩ := run_call h
    obtain ⟨_, rfl, h⟩ := run_ok_bind h
    obtain ⟨temp, ht', rfl⟩ := Disk.write_ok.mp (Disk.attempt_eq_ok hc)
    obtain rfl := Option.some.inj (ht.symm.trans ht')
    obtain ⟨rfl, htree, htemp⟩ := ih rfl h
    exact ⟨by simp, htree, htemp⟩

/-- The staged file has its time, and its content as before. -/
theorem stampTemp_run {d : Path} {data : Bytes} {time : Time} {mtime : Option (Int64 × UInt32)}
    (ht : w.temp = some ⟨d, data, time⟩)
    (h : (stampTemp mtime).run exec w = (.ok (), w')) :
    w'.tree = w.tree ∧ ∃ time', w'.temp = some ⟨d, data, time'⟩ ∧
      ∀ sec ns, mtime = some (sec, ns) → time'.sec = sec ∧ time'.ns = ns := by
  cases mtime with
  | none =>
    cases h
    exact ⟨rfl, time, ht, nofun⟩
  | some t =>
    obtain ⟨sec, ns⟩ := t
    obtain ⟨time', _, hlift, h⟩ := Prog.run_bind_eq_ok.mp h
    obtain ⟨htime, rfl⟩ := Prog.run_lift_eq_ok.mp hlift
    obtain ⟨_, _, hc, h⟩ := run_call h
    obtain ⟨rfl, rfl⟩ := run_ok h
    obtain ⟨temp, ht', rfl⟩ := Disk.setTempTime_ok.mp (Disk.attempt_eq_ok hc)
    obtain rfl := Option.some.inj (ht.symm.trans ht')
    refine ⟨rfl, time', rfl, ?_⟩
    intro _ _ h
    cases h
    -- The time of the entry is one that can be set.
    unfold Root.timeOf at htime
    split at htime
    · cases htime
      exact ⟨rfl, rfl⟩
    · cases htime

/-- What is staged has the size and the hash that were asked for. -/
theorem fillTemp_run [Sha256] {reader : List Bytes} {size : Nat} {hash : Option Hash}
    {mtime : Option (Int64 × UInt32)} {d : Path} {time : Time} (ht : w.temp = some ⟨d, [], time⟩)
    (h : (fillTemp path reader size hash mtime).run exec w = (.ok (), w')) :
    reader.flatten.length = size ∧ (∀ x ∈ hash, x = digest reader.flatten) ∧ w'.tree = w.tree ∧
      ∃ time', w'.temp = some ⟨d, reader.flatten, time'⟩ ∧
        ∀ sec ns, mtime = some (sec, ns) → time'.sec = sec ∧ time'.ns = ns := by
  simp only [fillTemp, Prog.run_bind_eq_ok, Prog.run_check_bind_eq_ok] at h
  obtain ⟨seen, w₁, hloop, hsize, hhash, _, w₂, hstamp, _, w₃, hc, h⟩ := h
  obtain ⟨rfl, htree, time₁, ht₁⟩ := stageLoop_run ht hloop
  obtain ⟨htree₂, time₂, ht₂, hm⟩ := stampTemp_run ht₁ hstamp
  obtain ⟨rfl, rfl⟩ := run_ok h
  have hw : w₃ = { w₂ with tick := w₂.tick + 1 } :=
    (congrArg Prod.snd (Prog.run_perform_eq_ok.mp hc)).symm.trans Disk.attempt_pure
  subst hw
  refine ⟨by simpa using hsize, ?_, htree₂.trans htree, time₂, ht₂, hm⟩
  intro x hx
  rw [Option.mem_def.mp hx] at hhash
  simpa using hhash

/-- What a staged temporary holds once `stage_inner` has succeeded. -/
theorem stageInner_run [Sha256] {reader : List Bytes} {size : Nat} {hash : Option Hash}
    {mtime : Option (Int64 × UInt32)} {staged : Staged}
    (h : (root.stageInner path reader size hash mtime).run exec w = (.ok staged, w')) :
    CleanPath (root.pathOf path) ∧
      staged = ⟨dirName (root.pathOf path), baseName (root.pathOf path)⟩ ∧
      reader.flatten.length = size ∧ (∀ x ∈ hash, x = digest reader.flatten) ∧
      ∃ time, w'.temp = some ⟨dirName (root.pathOf path), reader.flatten, time⟩ ∧
        ∀ sec ns, mtime = some (sec, ns) → time.sec = sec ∧ time.ns = ns := by
  unfold Root.stageInner at h
  obtain ⟨⟨dir, name⟩, w₁, hparent, h⟩ := Prog.run_bind_eq_ok.mp h
  obtain ⟨hclean, rfl, rfl, rfl⟩ := parent_run hparent
  obtain ⟨_, _, hc, h⟩ := run_call h
  obtain ⟨_, rfl, hrest⟩ := run_ok_bind h
  obtain ⟨-, rfl⟩ := Disk.createTemp_ok.mp (Disk.attempt_eq_ok hc)
  obtain ⟨_, _, hfill, hpure⟩ := Prog.run_bind_eq_ok.mp hrest
  obtain ⟨rfl, rfl⟩ := Prog.run_pure_eq_ok.mp hpure
  obtain ⟨h1, h2, -, h3⟩ := fillTemp_run rfl (Prog.run_onError_eq_ok.mp hfill)
  exact ⟨hclean, rfl, h1, h2, h3⟩

/-- A staged file that is committed is in its place. -/
theorem commit_run {p : Path} (hp : CleanPath p) {data : Bytes} {time : Time} {d : Path}
    (ht : w.temp = some ⟨d, data, time⟩)
    (h : (Staged.commit ⟨dirName p, baseName p⟩).run exec w = (.ok (), w')) :
    w'.temp = none ∧ ∃ n, w'.tree.get p = some n ∧ n.body = .file data ∧ n.mtime = time := by
  obtain ⟨_, w₁, hc, h⟩ := run_call h
  obtain ⟨_, rfl, h⟩ := run_ok_bind h
  obtain ⟨_, w₂, hsync, h⟩ := run_call h
  obtain ⟨rfl, rfl⟩ := run_ok h
  obtain ⟨temp, ht', -, -, -, hfits, hw₁⟩ := Disk.rename_ok.mp (Disk.attempt_eq_ok hc)
  obtain rfl := Option.some.inj (ht.symm.trans ht')
  have hw : w₂ = { w₁ with tick := w₁.tick + 1 } :=
    (congrArg Prod.snd hsync).symm.trans Disk.attempt_pure
  subst hw
  cases hw₁
  refine ⟨rfl, ?_⟩
  show ∃ n, (Tree.stamp _ (dirName p) _ _).get p = some n ∧ _
  rw [Tree.get_stamp, if_neg (SepPath.dirName_ne hp.ne_nil).symm, Tree.get_put,
    if_pos hp.join_dirName.symm]
  exact ⟨_, rfl, rfl, rfl⟩

/-! ### What is removed before a file is put in its place -/

/-- A call that looks, removes or syncs. -/
def FsCall.Clears : FsCall → Prop
  | .stat _ | .openDir _ | .openFile _ | .readDir _ | .unlink _ _ | .rmdir _ _ | .sync _ => True
  | _ => False

/-- A call that reads puts no file. -/
theorem FsCall.Reads.clears {c : FsCall} (h : c.Reads) : c.Clears := by
  cases c <;> trivial

/-- A call that removes leaves the staged file. -/
theorem FsCall.Clears.exec_temp {c : FsCall} (h : c.Clears) (w : Disk) :
    (exec c w).2.temp = w.temp := by
  cases c with
  | stat p | openDir p | openFile p | readDir p => rfl
  | unlink d n =>
    refine Disk.attempt_keeps fun _ _ h => ?_
    obtain ⟨-, -, -, rfl⟩ := Disk.unlink_ok.mp h
    rfl
  | rmdir d n =>
    refine Disk.attempt_keeps fun _ _ h => ?_
    obtain ⟨-, -, -, -, rfl⟩ := Disk.rmdir_ok.mp h
    rfl
  | sync p =>
    show (w.attempt fun w => pure ((), w)).2.temp = w.temp
    rw [Disk.attempt_pure]
  | _ => exact h.elim

/-- `parent` puts no file. -/
theorem clears_parent : Calls FsCall.Clears (root.parent path) :=
  calls_lift fun _ _ => calls_lift fun _ _ => calls_sys trivial fun _ =>
    Prog.issues_bind (calls_ok _) fun _ => trivial

/-- Neither does `remove`. -/
theorem clears_remove {directory : Bool} :
    Calls FsCall.Clears (root.remove path directory) := by
  refine Prog.issues_bind clears_parent fun p => Prog.issues_bind ?_ fun _ =>
    calls_sys trivial fun _ => calls_ok _
  unfold Root.unlinkat
  split <;> exact calls_sys trivial fun _ => calls_ok _

/-- Neither does clearing a conflict. -/
theorem clears_clearConflict {plan : Plan} :
    Calls FsCall.Clears (clearConflict root plan path) := by
  unfold clearConflict
  split
  · exact Prog.issues_forM fun _ _ =>
      Prog.issues_bind (calls_checkEntry.mono fun _ h => h.clears) fun _ => clears_remove
  · trivial

/-- So clearing a conflict leaves the staged file. -/
theorem clearConflict_run {plan : Plan} {u : Unit}
    (h : (clearConflict root plan path).run exec w = (.ok u, w')) : w'.temp = w.temp := by
  have hkept := (Prog.Issues.spec (h := exec) (I := fun v => v.temp = w.temp)
    (@clears_clearConflict root path plan)
    (fun c v hc hv => (FsCall.Clears.exec_temp hc v).trans hv) rfl).run
  rwa [h] at hkept

/-- After an installation the file is in its place, with the size, the hash and the time of
the entry. -/
theorem install_run [Sha256] {e : Entry} {destination : Manifest} {plan : Plan} {file : Bytes}
    (h : (install root e destination plan file).run exec w = (.ok (), w')) :
    file.length = e.size ∧ (∀ x ∈ e.hash, x = digest file) ∧ w'.temp = none ∧
      ∃ n, w'.tree.get (root.pathOf e.path) = some n ∧ n.body = .file file ∧
        n.mtime.sec = e.mtime ∧ n.mtime.ns = e.ns := by
  obtain ⟨staged, w₁, hstage, h⟩ := Prog.run_bind_eq_ok.mp h
  obtain ⟨hclean, rfl, hsize, hhash, time, ht, hm⟩ := stageInner_run hstage
  rw [reads_flatten] at hsize hhash ht
  obtain ⟨w₂, hput, hdrop⟩ := Prog.run_ensuring_eq_ok.mp h
  -- The rename puts the staged file in its place.
  have hcommit {w : Disk} (ht : w.temp = some ⟨dirName (root.pathOf e.path), file, time⟩)
      (h : (do
        clearConflict root plan e.path
        Staged.commit ⟨dirName (root.pathOf e.path), baseName (root.pathOf e.path)⟩).run exec w
          = (.ok (), w₂)) :
      w₂.temp = none ∧ ∃ n, w₂.tree.get (root.pathOf e.path) = some n ∧ n.body = .file file ∧
        n.mtime = time := by
    obtain ⟨_, w₃, hclear, h⟩ := Prog.run_bind_eq_ok.mp h
    exact commit_run hclean ((clearConflict_run hclear).trans ht) h
  have hplace : w₂.temp = none ∧ ∃ n, w₂.tree.get (root.pathOf e.path) = some n ∧
      n.body = .file file ∧ n.mtime = time := by
    split at hput
    · obtain ⟨_, w₃, hcheck, hrest⟩ := Prog.run_bind_eq_ok.mp hput
      obtain rfl := run_quiet calls_checkEntry hcheck
      exact hcommit ht hrest
    · obtain ⟨found, w₃, hcheck, hrest⟩ := Prog.run_bind_eq_ok.mp hput
      obtain rfl := run_quiet calls_exists hcheck
      exact hcommit ht (Prog.run_check_bind_eq_ok.mp hrest).2
  obtain ⟨ht₂, n, hn, hb, rfl⟩ := hplace
  -- Nothing is staged any more, so dropping it does nothing.
  have hw : w₂ = w' := by
    obtain ⟨_, _, hc, hpure⟩ := run_call hdrop
    obtain ⟨-, rfl⟩ := Prog.run_pure_eq_ok.mp hpure
    exact (congrArg Prod.snd ((exec_dropTemp_none ht₂).symm.trans hc))
  subst hw
  exact ⟨hsize, hhash, ht₂, n, hn, hb, hm _ _ rfl⟩

end

end RrSync

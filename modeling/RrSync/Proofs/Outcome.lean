import RrSync.Proofs.Faultless
import RrSync.Proofs.Rescan

/-!
# `RrSync.Proofs.Outcome`: what a run that succeeds leaves

`runPlan_outcome` takes a run for its word. When it has succeeded, on a disk on which any call might
have failed, with the files in any order, then it has accepted every path of its plan and every
content (`start_of_run`), it has met no fault, and so the tree is at the goal of the plan. A scan of
it leaves nothing to do.
-/

set_option autoImplicit false

namespace RrSync

open Lib

section
variable [Sha256] {root : Root} {source destination : Manifest} {options : Options} {p : Plan}
  {contents : Entry → Bytes} {is : List Nat} {w w' : Disk} {e x : Entry}

/-! ### What a run has accepted -/

omit [Sha256] in
/-- A conflict was cleared only if the root accepts all paths below it. -/
theorem clearConflict_takes {path : String} {entries : List Entry}
    (hc : p.conflict? path = some entries) (hx : x ∈ entries)
    (h : (clearConflict root p path).run exec w = (.ok (), w')) : root.Takes x.path := by
  unfold clearConflict at h
  rw [hc] at h
  obtain ⟨_, _, hturn⟩ := Prog.run_forM_turns h x hx
  obtain ⟨_, _, -, hremove⟩ := Prog.run_bind_eq_ok.mp hturn
  obtain ⟨_, _, hparent, -⟩ := Prog.run_bind_eq_ok.mp hremove
  exact parent_takes hparent

/-- The same for the conflict of an installed file. -/
theorem install_takes {file : Bytes} {entries : List Entry} (hc : p.conflict? e.path = some entries)
    (hx : x ∈ entries) (h : (install root e destination p file).run exec w = (.ok (), w')) :
    root.Takes x.path := by
  obtain ⟨staged, w₁, -, h⟩ := Prog.run_bind_eq_ok.mp h
  obtain ⟨w₂, hput, -⟩ := Prog.run_ensuring_eq_ok.mp h
  have hclear {w : Disk} (h : (do
      clearConflict root p e.path
      staged.commit).run exec w = (.ok (), w₂)) : root.Takes x.path := by
    obtain ⟨_, w₃, hclear, -⟩ := Prog.run_bind_eq_ok.mp h
    exact clearConflict_takes hc hx hclear
  split at hput
  · obtain ⟨_, w₃, -, hrest⟩ := Prog.run_bind_eq_ok.mp hput
    exact hclear hrest
  · obtain ⟨found, w₃, -, hrest⟩ := Prog.run_bind_eq_ok.mp hput
    exact hclear (Prog.run_check_bind_eq_ok.mp hrest).2

section
variable (hp : plan source destination options = .ok p) (his : is.Perm p.files)
  (h : (runPlan root source destination p is contents).run exec w = (.ok (), w'))
include hp h

/-- A directory of the plan was made. -/
theorem made_of_run (he : e ∈ source.entries)
    (hm : makes (guardedPaths source destination) e = true) :
    ∃ v v', (do clearConflict root p e.path; root.mkdir e.path).run exec v = (.ok (), v') := by
  obtain ⟨_, w₁, hprepare, -⟩ := Prog.run_bind_eq_ok.mp h
  obtain ⟨_, _, -, hdirs⟩ := Prog.run_bind_eq_ok.mp hprepare
  obtain ⟨i, hi⟩ := List.getElem?_of_mem he
  obtain ⟨_, _, hturn⟩ := Prog.run_forM_turns hdirs i ((mem_directories hp).mpr ⟨e, hi, hm⟩)
  obtain ⟨e', he', hturn⟩ := index_run hturn
  obtain rfl := Option.some.inj (hi.symm.trans he')
  exact ⟨_, _, hturn⟩

include his in
/-- A file of the plan was installed. -/
theorem installed_of_run (he : e ∈ source.entries)
    (ht : transfers destination options (guardedPaths source destination) e = true) :
    ∃ v v', (install root e destination p (contents e)).run exec v = (.ok (), v') := by
  obtain ⟨_, w₁, -, h⟩ := Prog.run_bind_eq_ok.mp h
  obtain ⟨_, w₂, hinstalls, -⟩ := Prog.run_bind_eq_ok.mp h
  obtain ⟨i, hi⟩ := List.getElem?_of_mem he
  have hmem : i ∈ is := his.mem_iff.mpr ((mem_files hp).mpr ⟨e, hi, ht⟩)
  obtain ⟨_, _, hturn⟩ := Prog.run_forM_turns hinstalls i hmem
  obtain ⟨e', he', hturn⟩ := index_run hturn
  obtain rfl := Option.some.inj (hi.symm.trans he')
  exact ⟨_, _, hturn⟩

include his in
/-- What a run that succeeds has started from. -/
theorem start_of_run (hmirrors : Mirrors options.checksum root destination w.tree)
    (hclear : root.Clear w.tree) (hbase : root.base.utf8.length ≤ maxPath) :
    Start root source destination options p contents w.tree := by
  have hsrc := (plan_ok.mp hp).1
  refine ⟨hp, hmirrors, hclear, hbase, fun e he hm => ?_, fun e he ht => ?_, fun x hx hdrop => ?_,
    fun e he ht => ?_⟩
  -- The directory was made, so its path was accepted.
  · obtain ⟨_, _, hturn⟩ := made_of_run hp h he hm
    obtain ⟨_, _, -, hmkdir⟩ := Prog.run_bind_eq_ok.mp hturn
    obtain ⟨s, hs⟩ := mkdir_full hmkdir
    exact ⟨(hsrc.entry e he).path, (root.full_ok.mp hs).2.1⟩
  -- The file was installed, so its path was accepted.
  · obtain ⟨_, _, hinstall⟩ := installed_of_run hp his h he ht
    obtain ⟨_, _, hstage, -⟩ := Prog.run_bind_eq_ok.mp hinstall
    obtain ⟨_, _, hparent, -⟩ := Prog.run_bind_eq_ok.mp hstage
    exact parent_takes hparent
  · rcases dropsEntry_iff.mp hdrop with ⟨hdel, hr⟩ | ⟨c, hc, hclash, hb⟩
    · -- The object is removed at the end.
      obtain ⟨_, w₁, -, hrest⟩ := Prog.run_bind_eq_ok.mp h
      obtain ⟨_, w₂, -, hfinish⟩ := Prog.run_bind_eq_ok.mp hrest
      obtain ⟨_, w₃, -, hfinish⟩ := Prog.run_bind_eq_ok.mp hfinish
      obtain ⟨_, w₄, hremovals, -⟩ := Prog.run_bind_eq_ok.mp hfinish
      obtain ⟨_, _, hturn⟩ := Prog.run_forM_turns hremovals x ((mem_removals hp).mpr ⟨hdel, hx, hr⟩)
      obtain ⟨_, _, hparent, -⟩ := Prog.run_bind_eq_ok.mp hturn
      exact parent_takes hparent
    · -- It makes place for a directory or a file.
      have hconflict : p.conflict? c.path = some (conflictEntries destination c.path) := by
        rw [conflict?_eq hp hc, if_pos hclash]
      have hmem : x ∈ conflictEntries destination c.path := mem_conflictEntries.mpr ⟨hx, hb⟩
      cases hk : c.kind with
      | guarded => exact absurd hk (kind_of_live hc (live_of_clashes hclash))
      | directory =>
        have hm : makes (guardedPaths source destination) c = true := by
          simp [makes, live_of_clashes hclash, hk]
        obtain ⟨_, _, hturn⟩ := made_of_run hp h hc hm
        obtain ⟨_, _, hclear, -⟩ := Prog.run_bind_eq_ok.mp hturn
        exact clearConflict_takes hconflict hmem hclear
      | file =>
        obtain ⟨_, _, hinstall⟩ := installed_of_run hp his h hc (transfers_of_clashes hp hc hk hclash)
        exact install_takes hconflict hmem hinstall
  · obtain ⟨_, _, hinstall⟩ := installed_of_run hp his h he ht
    obtain ⟨hsize, hhash, -⟩ := install_run hinstall
    exact ⟨hsize, hhash⟩

end

/-! ### What it leaves -/

/-- The contents of the files of the plan have the sizes and the hashes of their entries. -/
def Verified (source destination : Manifest) (options : Options) (contents : Entry → Bytes) : Prop :=
  ∀ e ∈ source.entries, transfers destination options (guardedPaths source destination) e = true →
    (contents e).length = e.size ∧ ∀ h ∈ e.hash, h = digest (contents e)

/-- The tree `t'` is what the plan is to make of the tree `t`. -/
structure Outcome (root : Root) (source destination : Manifest) (options : Options) (t : Tree)
    (w' : Disk) : Prop where
  /-- Every path is as the goal says, with contents that fit the entries. -/
  goal : ∃ contents, Verified source destination options contents ∧
    w'.tree.view = goal root source destination options contents t.view
  /-- The directories of the plan have their times. -/
  times : ∀ e ∈ source.entries, makes (guardedPaths source destination) e = true →
    Timed root w'.tree e
  /-- Planned again from a scan, there is nothing to do; and if extras are deleted and nothing is
  guarded, the scan is the source. -/
  settled : ∀ s, (scan root options.checksum).run exec w' = (.ok s, w') →
    ∃ p', plan source s.manifest options = .ok p' ∧ p'.Idle ∧
      (options.delete = true → (∀ e ∈ source.entries ++ destination.entries, e.kind ≠ .guarded) →
        s.manifest.entries.map (Entry.upTo options.checksum)
          = source.entries.map (Entry.upTo options.checksum))

/-- A disk with the view of the goal and the times of the directories is the outcome. -/
theorem Start.outcome {t : Tree} (hs : Start root source destination options p contents t)
    (hview : w'.tree.view = goal root source destination options contents t.view)
    (htimed : ∀ e ∈ source.entries, makes (guardedPaths source destination) e = true →
      Timed root w'.tree e) : Outcome root source destination options t w' := by
  refine ⟨⟨contents, hs.bytes, hview⟩, htimed, fun s' hscan => ?_⟩
  have hof := scan_sound (congrArg Prod.fst hscan)
  have hcut : hs.Cut w'.tree s'.manifest := by
    refine ⟨?_, hof.valid, hof.mirrors⟩
    rw [hview, ← hs.after_all]
    exact reach_progress fun _ h => h
  refine ⟨_, hcut.start.plan, hcut.planOf_settled hview, fun hdel hnone => ?_⟩
  refine hcut.entries_settled hview hdel ?_ htimed
  rw [guardedPaths, List.filter_eq_nil_iff.mpr fun e he => by simpa using hnone e he]
  rfl

/-- A run that succeeds, on the tree that was scanned for its plan, reaches the goal. -/
theorem runPlan_outcome {s : Scan} (hscan : (scan root options.checksum).run exec w = (.ok s, w))
    (hp : plan source s.manifest options = .ok p) (his : is.Perm p.files) (htemp : w.temp = none)
    (h : (runPlan root source s.manifest p is contents).run exec w.plain = (.ok (), w'.plain)) :
    Outcome root source s.manifest options w.tree w' := by
  have hok : ((scan root options.checksum).run exec w).1 = .ok s := by rw [hscan]
  obtain ⟨hclear, hbase⟩ := scan_clear hok
  have hs : Start root source s.manifest options p contents w.tree :=
    start_of_run (w := w.plain) hp his h (scan_sound hok).mirrors hclear hbase
  -- The same run without faults is the one that reaches the goal.
  have hcalm := runPlan_calm h
  have hdoes := (hs.does_runPlan_perm his (w := w.calm) ⟨fun _ => rfl, rfl⟩ htemp).run
  rw [Disk.calm_plain, Disk.calm_plain] at hcalm
  obtain ⟨⟨⟩, v, hrun, hshows, -, htimed⟩ := hdoes
  obtain rfl : w'.calm = v := congrArg Prod.snd (hcalm.symm.trans hrun)
  exact hs.outcome hshows.view htimed

end

end RrSync

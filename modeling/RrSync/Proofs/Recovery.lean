import RrSync.Proofs.Scannable
import RrSync.Proofs.Settled

/-!
# `RrSync.Proofs.Recovery`: complete runs and runs after a cut

The two results about whole runs. `runPlan_converges`: a complete run succeeds, and after it
the planner has nothing left to do. `rerun_recovers`: whenever a run is cut, a fresh scan,
plan and run lead to the tree of the run that was not cut.
-/

set_option autoImplicit false

namespace RrSync

open Lib

section
variable [Sha256] {root : Root} {source destination : Manifest} {options : Options} {p : Plan}
  {contents : Entry → Bytes} {t t' : Tree} {D' : Manifest} {e x y : Entry} {q : Path}

/-- The bytes of every file of the plan are as its entry says. -/
def Delivers (source : Manifest) (p : Plan) (contents : Entry → Bytes) : Prop :=
  ∀ i ∈ p.files, ∀ e, source.entries[i]? = some e →
    (contents e).length = e.size ∧ ∀ h, e.hash = some h → h = digest (contents e)

/-- Every entry has a joined path that the operations of the root accept. -/
def Root.Holds (root : Root) (m : Manifest) : Prop :=
  ∀ e ∈ m.entries, (root.pathOf e.path).length ≤ maxPath

/-- What the results about a run assume, from a successful plan and disks that match the
manifests. -/
theorem Start.of (hp : RrSync.plan source destination options = .ok p)
    (hmirrors : Mirrors options.checksum root destination t) (hclear : root.Clear t)
    (hbase : root.base.utf8.length ≤ maxPath) (hsource : root.Holds source)
    (hdestination : root.Holds destination) (hbytes : Delivers source p contents) :
    Start root source destination options p contents t := by
  obtain ⟨hsrc, hdst, -⟩ := plan_ok.mp hp
  refine ⟨hp, hmirrors, hclear, hbase, fun e he _ => hsrc.takes he (hsource e he),
    fun e he _ => hsrc.takes he (hsource e he), fun x hx _ => hdst.takes hx (hdestination x hx),
    fun e he ht => ?_⟩
  obtain ⟨i, hi⟩ := List.getElem?_of_mem he
  exact hbytes i ((mem_files hp).mpr ⟨e, hi, ht⟩) e hi

omit [Sha256] in
/-- At the top of the disk every path of a valid manifest fits. -/
theorem opened_holds {m : Manifest} {checksum : Bool} (hm : m.Valid checksum) :
    Root.opened.Holds m := fun e he => by
  rw [opened_pathOf]
  exact length_of_validate (hm.entry e he).path

omit [Sha256] in
/-- Nothing is above the top of the disk. -/
theorem opened_clear : Root.opened.Clear t := fun q hq hb => by
  rw [opened_pathOf] at hb
  exact absurd (SepPath.below_nil hb) hq

omit [Sha256] in
/-- The root of the scan is not below itself. -/
theorem not_base_join (hq : q ≠ []) :
    ¬ (join root.base.utf8 q ≠ [] ∧ Below (root.pathOf "") (join root.base.utf8 q)) := by
  rintro ⟨h0, hb⟩
  rw [pathOf_empty] at hb
  have hbase : root.base.utf8 ≠ [] := fun h => by
    rw [h] at hb h0
    exact h0 (SepPath.below_nil hb)
  exact hq (SepPath.join_injective _
    (((SepPath.below_join_left hbase).antisymm hb).trans SepPath.join_nil_right.symm))

/-! ### Scanning what a run has left -/

/-- A tree that a run has left can be scanned. -/
theorem Start.scannable (hs : Start root source destination options p contents t)
    (hdestination : root.Holds destination)
    (hreach : hs.Before ⟨p.directories, p.files, p.removals⟩ t'.view)
    (hbounded : root.Bounded t') : Scannable options.checksum root t' := by
  refine ⟨fun q n hq hn hvis => ?_, hbounded⟩
  have hv' : t'.view (join root.base.utf8 q) = some n.core := by simp [Tree.view, hn]
  -- What was there at the start was scanned then.
  have hold : t.view (join root.base.utf8 q) = some n.core → ∃ path : String, path.utf8 = q ∧
      validate path = .ok () ∧ (Opens options.checksum (kindOf path n.metadata) → root.Takes path) ∧
      (kindOf path n.metadata = .file → n.body.len ≤ maxFile) := by
    intro hv
    obtain ⟨m, hm, hcore⟩ := Option.map_eq_some_iff.mp hv
    obtain ⟨x, hx, rfl⟩ := hs.mirrors.object q m hq hm hvis
    obtain ⟨m', hm', hd⟩ := hs.mirrors.entry x hx
    obtain rfl := Option.some.inj (hm.symm.trans hm')
    have hbody : m.body = n.body := (Prod.mk.inj hcore).1
    have htakes := hs.destination_valid.takes hx (hdestination x hx)
    refine ⟨x.path, rfl, htakes.valid, fun _ => htakes, fun hk => ?_⟩
    have hxk : x.kind = .file := by
      rw [hd.kind, ← hk]
      exact kindOf_congr (congrArg Body.type hbody)
    have hsize := hd.size
    rw [if_pos hxk, hbody] at hsize
    rw [← hsize]
    exact (hs.destination_valid.entry x hx).size hxk
  -- An object is old, or it is put there by the goal, or it is not there.
  rcases hreach (join root.base.utf8 q) with h | ⟨-, h⟩ | ⟨-, h⟩
  · exact hold (h.symm.trans hv')
  · rcases goal_cases (h.symm.trans hv') with hv | hb | ⟨e, he, hm, hep, hcore⟩ | ⟨e, he, ht, hep, hcore⟩
    · exact hold hv
    · exact absurd hb (not_base_join hq)
    · have htakes := hs.takesMade e he hm
      refine ⟨e.path, SepPath.join_injective _ hep, htakes.valid, fun _ => htakes, fun hk => ?_⟩
      have := kindOf_eq_file hk
      rw [show n.metadata.type = n.body.type from rfl, Node.core_eq_dir.mp hcore] at this
      cases this
    · have htakes := hs.takesFile e he ht
      refine ⟨e.path, SepPath.join_injective _ hep, htakes.valid, fun _ => htakes, fun _ => ?_⟩
      rw [(Prod.mk.inj hcore).1]
      show (contents e).length ≤ maxFile
      rw [(hs.bytes e he ht).1]
      exact (hs.source_valid.entry e he).size (live_of_transfers ht).2
  · rw [hv'] at h
    cases h

/-- The scan of a tree that a run has left. -/
theorem Start.rescan (hs : Start root source destination options p contents t)
    (hdestination : root.Holds destination) {w : Disk}
    (hreach : hs.Before ⟨p.directories, p.files, p.removals⟩ w.tree.view)
    (hclear : root.Clear w.tree) (hbounded : root.Bounded w.tree) :
    ∃ s, (scan root options.checksum).run exec w = (.ok s, w) ∧ hs.Cut w.tree s.manifest ∧
      s.Of options.checksum root w.tree := by
  obtain ⟨s, hscan⟩ := scan_complete options.checksum
    (hs.scannable hdestination hreach hbounded) hclear hs.base
  have hof := scan_sound hscan
  exact ⟨s, Prod.ext hscan ((quiet_of_reads calls_scan).run_snd w),
    ⟨hreach, hof.valid, hof.mirrors⟩, hof⟩

/-- On the way to the root there are directories at every moment of a run. -/
theorem Start.clear_of_reach (hs : Start root source destination options p contents t)
    (hreach : hs.Before ⟨p.directories, p.files, p.removals⟩ t'.view) : root.Clear t' := by
  intro q hq hb
  rcases hreach q with h | ⟨-, h⟩ | ⟨⟨e, he, -, hep⟩, -⟩
  · rcases hs.clear q hq hb with h0 | h0
    · exact Or.inl (Tree.view_eq_none.mp (h.trans (Tree.view_eq_none.mpr h0)))
    · exact Or.inr (Tree.isDir_iff.mpr (h.trans (Tree.isDir_iff.mp h0)))
  · exact Or.inr (Tree.isDir_iff.mpr (h.trans (if_pos ⟨hq, hb⟩)))
  · rw [← hep] at hq hb
    exact absurd ⟨hq, hb⟩ (not_base (hs.source_valid.path_ne_empty he))

/-! ### The complete run -/

/-- A complete run on the tree of the destination manifest succeeds. Planned again from a
scan of the tree it leaves, there is nothing to do; and if extras are deleted and nothing is
protected, the scan is the source manifest. -/
theorem runPlan_converges {w : Disk} (hp : plan source destination options = .ok p)
    (hmirrors : Mirrors options.checksum Root.opened destination w.tree)
    (hcalm : ∀ k, w.env.fault k = false) (htemp : w.temp = none)
    (hbytes : Delivers source p contents) :
    ∃ w', (runPlan Root.opened source destination p p.files contents).run exec w = (.ok (), w') ∧
      (Root.opened.Bounded w'.tree → ∃ s p',
        (scan Root.opened options.checksum).run exec w' = (.ok s, w') ∧
        plan source s.manifest options = .ok p' ∧ p'.Idle ∧
        (options.delete = true → (∀ e ∈ source.entries ++ destination.entries, e.kind ≠ .guarded) →
          s.manifest.entries.map (Entry.upTo options.checksum)
            = source.entries.map (Entry.upTo options.checksum))) := by
  obtain ⟨hsrc, hdst, -⟩ := plan_ok.mp hp
  have hholds := opened_holds hdst
  have hs := Start.of hp hmirrors opened_clear (Nat.zero_le _) (opened_holds hsrc) hholds hbytes
  have hdoes := hs.does_runPlan (w := w) ⟨hcalm, rfl⟩ htemp
  obtain ⟨⟨⟩, w', hrun, hshows, -, htimed⟩ := hdoes.run
  refine ⟨w', hrun, fun hbounded => ?_⟩
  have hreach : hs.Before ⟨p.directories, p.files, p.removals⟩ w'.tree.view := by
    rw [hshows.view, ← hs.after_all]
    exact reach_progress fun _ h => h
  -- The goal is a moment of the run, so it can be scanned and planned again.
  obtain ⟨s, hscan, hcut, -⟩ := hs.rescan hholds hreach opened_clear hbounded
  refine ⟨s, _, hscan, hcut.start.plan, hcut.planOf_settled hshows.view, fun hdel hnone => ?_⟩
  refine hcut.entries_settled hshows.view hdel ?_ htimed
  rw [guardedPaths, List.filter_eq_nil_iff.mpr fun e he => by simpa using hnone e he]
  rfl

omit [Sha256] in
/-- The scan of the small disk succeeds and finds what is on it. -/
theorem small_scan : ∃ s, (@scan emptySha Root.opened true).run exec smallDisk = (.ok s, smallDisk) ∧
    s.manifest = smallDestination := by
  let := emptySha
  have h : ((scan Root.opened true).run exec smallDisk).1.map Scan.manifest
      = .ok smallDestination := by decide +kernel
  cases hs : ((scan Root.opened true).run exec smallDisk).1 with
  | error e =>
    rw [hs] at h
    cases h
  | ok s =>
    rw [hs] at h
    exact ⟨s, Prod.ext hs ((quiet_of_reads calls_scan).run_snd _), Except.ok.inj h⟩

omit [Sha256] in
/-- The small run has nothing to deliver but an empty file. -/
theorem small_delivers : @Delivers emptySha smallSource smallPlan fun _ => [] := by
  intro i hi e he
  have hfiles : i = 1 ∨ i = 2 := by simpa [smallPlan] using hi
  rcases hfiles with rfl | rfl
  · obtain rfl := Option.some.inj he
    exact ⟨rfl, fun h hh => (Option.some.inj hh).symm⟩
  · obtain rfl := Option.some.inj he
    exact ⟨rfl, fun h hh => (Option.some.inj hh).symm⟩

omit [Sha256] in
/-- The small run ends with a disk that a new scan and a new plan find complete. -/
theorem runPlan_converges_small : ∃ w', (smallRun smallDestination).run exec smallDisk = (.ok (), w') ∧
    (Root.opened.Bounded w'.tree → ∃ s p',
      (@scan emptySha Root.opened true).run exec w' = (.ok s, w') ∧
      plan smallSource s.manifest smallOptions = .ok p' ∧ p'.Idle ∧
      s.manifest.entries.map (Entry.upTo true) = smallSource.entries) := by
  let := emptySha
  obtain ⟨s, hs, hm⟩ := small_scan
  have hmirrors := (scan_sound (congrArg Prod.fst hs)).mirrors
  rw [hm] at hmirrors
  obtain ⟨w', hrun, hconv⟩ := runPlan_converges small_plan hmirrors (fun _ => rfl) rfl small_delivers
  refine ⟨w', hrun, fun hb => ?_⟩
  obtain ⟨s', p', hscan, hplan, hidle, hsame⟩ := hconv hb
  exact ⟨s', p', hscan, hplan, hidle, hsame rfl (by decide +kernel)⟩

/-! ### Runs that are cut -/

/-- The trees are the same, up to the times of directories that the source does not have. -/
structure SameTree (root : Root) (source : Manifest) (t t' : Tree) : Prop where
  view : t'.view = t.view
  time : ∀ e ∈ source.entries, e.kind = .directory →
    (t'.get (root.pathOf e.path)).map Node.mtime = (t.get (root.pathOf e.path)).map Node.mtime

/-- After a cut at any moment, a fresh scan, plan and run succeed and lead to the tree of
the run that was not cut. -/
theorem rerun_recovers {w : Disk} {s : Scan}
    (hscan : (scan root options.checksum).run exec w = (.ok s, w))
    (hp : plan source s.manifest options = .ok p)
    (hcalm : ∀ k, w.env.fault k = false) (htemp : w.temp = none)
    (hsource : root.Holds source) (hdestination : root.Holds s.manifest)
    (hbytes : Delivers source p contents) :
    ∃ w₁, (runPlan root source s.manifest p p.files contents).run exec w = (.ok (), w₁) ∧
      ∀ w₂, (runPlan root source s.manifest p p.files contents).Moment exec w w₂ →
        root.Bounded w₂.tree → ∃ s' p' w₃,
          (scan root options.checksum).run exec { w₂ with temp := none }
            = (.ok s', { w₂ with temp := none }) ∧
          plan source s'.manifest options = .ok p' ∧ p'.files ⊆ p.files ∧
          (runPlan root source s'.manifest p' p'.files contents).run exec { w₂ with temp := none }
            = (.ok (), w₃) ∧
          SameTree root source w₁.tree w₃.tree := by
  have hok : ((scan root options.checksum).run exec w).1 = .ok s := by rw [hscan]
  have hof := scan_sound hok
  obtain ⟨hclear, hbase⟩ := scan_clear hok
  have hs := Start.of hp hof.mirrors hclear hbase hsource hdestination hbytes
  have hdoes := hs.does_runPlan (w := w) ⟨hcalm, rfl⟩ htemp
  obtain ⟨⟨⟩, w₁, hrun, hw₁, -, htimed₁⟩ := hdoes.run
  refine ⟨w₁, hrun, fun w₂ hw₂ hbounded => ?_⟩
  have hreach : hs.Before ⟨p.directories, p.files, p.removals⟩ w₂.tree.view :=
    Prog.Spec.moment hdoes (fun _ => Or.inl rfl) hw₂
  have henv : w₂.env = w.env := hw₂.invariant (I := fun w' => w'.env = w.env) rfl
    fun c w' h => (exec_env_journal c w').1.trans h
  have hcalm₂ : ∀ k, w₂.env.fault k = false := henv ▸ hcalm
  obtain ⟨s', hscan', hcut, -⟩ := hs.rescan (w := { w₂ with temp := none }) hdestination hreach
    (hs.clear_of_reach hreach) hbounded
  have hs' := hcut.start
  obtain ⟨⟨⟩, w₃, hrun', hw₃, -, htimed₃⟩ :=
    (hs'.does_runPlan (w := { w₂ with temp := none }) ⟨hcalm₂, rfl⟩ rfl).run
  refine ⟨s', _, w₃, hscan', hs'.plan, hcut.files_subset, hrun', ?_, fun e he hk => ?_⟩
  · rw [hw₁.view, hw₃.view]
    exact hcut.goal_eq
  · cases hlive : live (guardedPaths source s.manifest) e with
    | true =>
      have hm : makes (guardedPaths source s.manifest) e = true := by simp [makes, hlive, hk]
      obtain ⟨n₁, hn₁, ht₁⟩ := htimed₁ e he hm
      obtain ⟨n₃, hn₃, ht₃⟩ := htimed₃ e he (by rwa [hcut.makes_eq])
      simp [hn₁, hn₃, ht₁, ht₃]
    | false =>
      -- The directory is protected, so no run has touched it.
      obtain ⟨g, hg, hb⟩ : ∃ g ∈ guardedPaths source s.manifest, below e.path g = true := by
        simpa [live] using hlive
      have hbelow : Below (root.pathOf e.path) (root.pathOf g) := (below_pathOf
        (hs.source_valid.path_ne_empty he) (guarded_ne_empty hp hg)).mpr hb
      have h₁ := (runPlan_spares_guarded hp (fun _ h => h) (hrun ▸ Prog.moment_run exec _ w)).1
        g hg _ hbelow
      have h₂ := (runPlan_spares_guarded hp (fun _ h => h) hw₂).1 g hg _ hbelow
      have h₃ := (runPlan_spares_guarded hs'.plan (fun _ h => h)
        (hrun' ▸ Prog.moment_run exec _ { w₂ with temp := none })).1
        g ((hcut.mem_guardedPaths g).mpr hg) _ hbelow
      exact congrArg _ (h₃.trans (h₂.trans h₁.symm))

omit [Sha256] in
/-- The small run may be cut at any moment and run again, with the same tree in the end. -/
theorem rerun_recovers_small : ∃ w₁, (smallRun smallDestination).run exec smallDisk = (.ok (), w₁) ∧
    ∀ w₂, (smallRun smallDestination).Moment exec smallDisk w₂ → Root.opened.Bounded w₂.tree →
      ∃ s' p' w₃, (@scan emptySha Root.opened true).run exec { w₂ with temp := none }
          = (.ok s', { w₂ with temp := none }) ∧
        plan smallSource s'.manifest smallOptions = .ok p' ∧ p'.files ⊆ smallPlan.files ∧
        (@runPlan emptySha Root.opened smallSource s'.manifest p' p'.files fun _ => []).run exec
          { w₂ with temp := none } = (.ok (), w₃) ∧
        SameTree Root.opened smallSource w₁.tree w₃.tree := by
  let := emptySha
  obtain ⟨s, hs, hm⟩ := small_scan
  have hp : plan smallSource s.manifest smallOptions = .ok smallPlan := hm ▸ small_plan
  obtain ⟨hsrc, hdst, -⟩ := plan_ok.mp hp
  have h := @rerun_recovers emptySha _ _ smallOptions _ _ _ _ hs hp (fun _ => rfl) rfl (opened_holds hsrc)
    (opened_holds hdst) small_delivers
  rwa [hm] at h

end

end RrSync

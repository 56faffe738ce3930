import RrSync.Model.Run
import RrSync.Proofs.Convergence

/-!
# `RrSync.Proofs.Run`: the three parts of a run, one after the other

`does_prepare`, `does_install` and `does_finish` say that a part succeeds on the view the
part before it has left, and which view it leaves. They are stated apart because a client
and a server run them in separate requests. `does_runPlan` is the complete run.
-/

set_option autoImplicit false

namespace RrSync

open Lib

section
variable [Sha256] {root : Root} {source destination : Manifest} {options : Options} {p : Plan}
  {contents : Entry → Bytes} {t : Tree} {e d x : Entry} {i : Nat} {q : Path} {s : Steps} {w : Disk}
  (hs : Start root source destination options p contents t)
include hs

/-! ### Making directories -/

/-- What is cleared for a path that is made lies at this very path, and the path is a conflict. -/
theorem Start.cleared_of_makes (he : e ∈ source.entries)
    (hm : makes (guardedPaths source destination) e = true)
    (hx : x ∈ clearedBy destination (guardedPaths source destination) e) :
    x.path = e.path ∧ clashes destination (guardedPaths source destination) e = true := by
  unfold clearedBy at hx
  split at hx
  · next hc =>
    obtain ⟨hxd, hxe⟩ := mem_conflictEntries.mp hx
    exact ⟨(eq_of_zone_of_makes hs.plan he hm hc hxd hxe).1, hc⟩
  · cases hx

/-- The next directory and everything below it are as at the start. -/
theorem Start.not_done_of_makes {pre post : List Nat} (hpre : p.directories = pre ++ i :: post)
    (hi : source.entries[i]? = some e) (hq : Below q (root.pathOf e.path)) :
    ¬ Done root source ⟨pre, [], []⟩ q := by
  have hsrc := hs.source_valid
  have he := List.mem_of_getElem? hi
  rintro (⟨h0, hb⟩ | ⟨j, hj, d, hd, rfl⟩ | ⟨j, hj, -⟩ | ⟨x, hx, -⟩)
  · exact not_below_base (hsrc.path_ne_empty he) h0 hb hq
  · have hlt : j < i := by
      have hord := directories_sorted hs.plan
      rw [hpre] at hord
      exact (List.pairwise_append.mp hord).2.2 j hj i (by simp)
    have hb := (hsrc.below_of_pathOf (List.mem_of_getElem? hd) hsrc he).mp hq
    by_cases heq : d.path.utf8 = e.path.utf8
    · obtain rfl := hsrc.eq_of_path (List.mem_of_getElem? hd) he (String.utf8_injective heq)
      exact absurd (hsrc.index_inj hd hi) (Nat.ne_of_lt hlt)
    · exact absurd (hsrc.index_lt hi hd (hb.lt heq)) (Nat.not_lt_of_gt hlt)
  · cases hj
  · cases hx

/-- The view after the steps `s` without what is in the place of the entry. -/
noncomputable def Start.cleared (hs : Start root source destination options p contents t)
    (s : Steps) (e : Entry) : View :=
  dropAll root (hs.after s) (clearedBy destination (guardedPaths source destination) e)

/-- Clearing a conflict shows at no other path. -/
theorem Start.cleared_of_ne (he : e ∈ source.entries)
    (hm : makes (guardedPaths source destination) e = true) (hne : q ≠ root.pathOf e.path) :
    hs.cleared s e q = hs.after s q :=
  dropAll_of_forall_ne fun x hx h => hne (by rw [← h, (hs.cleared_of_makes he hm hx).1])

/-- Where a directory is made there is nothing, or a directory, or what the conflict
removes. -/
theorem Start.cleared_top (he : e ∈ source.entries)
    (hm : makes (guardedPaths source destination) e = true)
    (hfresh : ¬ Done root source s (root.pathOf e.path)) :
    hs.cleared s e (root.pathOf e.path) = none ∨
      hs.cleared s e (root.pathOf e.path) = some Core.dir := by
  obtain ⟨hlive, hk⟩ := live_of_makes hm
  unfold Start.cleared clearedBy
  -- A conflict is cleared. Otherwise nothing is there, or what is there is a directory already.
  by_cases hc : clashes destination (guardedPaths source destination) e = true
  · obtain ⟨old, hold, -, hop, -⟩ := old_of_clashes hs.plan he hc
    rw [if_pos hc]
    exact Or.inl (if_pos ⟨old, mem_conflictEntries.mpr ⟨hold, hop ▸ SepPath.Below.refl⟩, by rw [hop]⟩)
  · rw [if_neg hc, dropAll_nil, hs.after_start hfresh]
    have h := hs.view_live he hlive
    cases hget : destination.get? e.path with
    | none =>
      rw [hget] at h
      exact Or.inl h
    | some old =>
      rw [hget] at h
      obtain ⟨-, co, hco, hiff⟩ := h
      have hkind : old.kind = e.kind := by
        simpa only [clashes, hlive, hget, Bool.true_and, Option.any_some, decide_eq_true_eq, ne_eq,
          not_not] using hc
      exact Or.inr (hco.trans (congrArg some (hiff.mp (hkind.trans hk))))

/-- The directories on the way to the next one, and itself once it is made. -/
theorem Start.goal_to (hi : source.entries[i]? = some e)
    (hm : makes (guardedPaths source destination) e = true) (his : i ∈ s.dirs)
    (hdirs : ∀ j ∈ p.directories, j < i → j ∈ s.dirs) (hq : q ≠ [])
    (hb : Below (root.pathOf e.path) q) : Done root source s q ∧
      goal root source destination options contents t.view q = some Core.dir := by
  by_cases hne : q = root.pathOf e.path
  · rw [hne]
    exact ⟨Or.inr (Or.inl ⟨i, his, e, hi, rfl⟩), goal_makes hs (List.mem_of_getElem? hi) hm⟩
  · exact hs.done_above hi (live_of_makes hm).1 hdirs hq hb hne

/-- The view after the next directory. -/
theorem Start.after_makes {pre : List Nat} (hi : source.entries[i]? = some e)
    (hm : makes (guardedPaths source destination) e = true)
    (hdirs : ∀ j ∈ p.directories, j < i → j ∈ pre) :
    makeTo (hs.cleared ⟨pre, [], []⟩ e) (root.pathOf e.path) = hs.after ⟨pre ++ [i], [], []⟩ := by
  have he := List.mem_of_getElem? hi
  funext q
  unfold makeTo
  split
  · next hq =>
    obtain ⟨hd, hg⟩ := hs.goal_to (s := ⟨pre ++ [i], [], []⟩) hi hm (by simp)
      (fun j hj hlt => List.mem_append_left _ (hdirs j hj hlt)) hq.1 hq.2
    rw [hs.after_done hd, hg]
  · next hq =>
    have hne : q ≠ root.pathOf e.path := fun h =>
      hq ⟨h ▸ (hs.takesMade e he hm).clean.ne_nil, h ▸ SepPath.Below.refl⟩
    rw [hs.cleared_of_ne he hm hne]
    exact hs.after_congr (done_snoc hi hne).symm

/-- One turn of `prepare`: the conflict at the path is cleared and the directory is made. -/
theorem Start.does_prepareNext {pre post : List Nat} (hpre : p.directories = pre ++ i :: post)
    (hi : source.entries[i]? = some e) (hw : w.Shows (hs.after ⟨pre, [], []⟩))
    (htemp : w.temp = none) :
    Does (hs.Before ⟨p.directories, [], []⟩) (do
        clearConflict root p e.path
        root.mkdir e.path) w fun _ w' =>
      w'.Shows (hs.after ⟨pre ++ [i], [], []⟩) ∧ w'.temp = none := by
  have he := List.mem_of_getElem? hi
  have hmem : i ∈ p.directories := by simp [hpre]
  have hsub : ∀ j ∈ pre, j ∈ p.directories := fun j hj => by simp [hpre, hj]
  have hm : makes (guardedPaths source destination) e = true := by
    obtain ⟨e', he', hm⟩ := (mem_directories hs.plan).mp hmem
    obtain rfl := Option.some.inj (he'.symm.trans hi)
    exact hm
  have hlive := (live_of_makes hm).1
  have hfresh := fun q hq => hs.not_done_of_makes hpre hi (q := q) hq
  -- The directories are made in order, so the parent is among those before.
  have hdirs : ∀ j ∈ p.directories, j < i → j ∈ pre := fun j hj hlt =>
    mem_of_lt_of_sorted (directories_sorted hs.plan) hpre hj hlt
  -- Each removal of a conflict leaves the disk at a moment of the run.
  have hJ : ∀ ys, ys <+: clearedBy destination (guardedPaths source destination) e →
      hs.Before ⟨p.directories, [], []⟩ (dropAll root (hs.after ⟨pre, [], []⟩) ys) := by
    intro ys hys
    refine hs.before_dropAll (hs.before_after fun q hq => hq.mono hsub (fun _ h => h)
      fun _ h => h) fun y hy => Or.inl ?_
    obtain ⟨hy', hc⟩ := hs.cleared_of_makes he hm (hys.subset hy)
    exact ⟨e, he, hc, by rw [hy']⟩
  refine Prog.Succeeds.bind (hs.does_clearConflict he (fun q hq => hs.after_start (hfresh q hq))
    (hs.after_parent hw hi hlive hdirs) hw (by simp [htemp]) hJ) ?_
  rintro _ w1 ⟨hw1, ht1⟩
  have hJ1 : hs.Before ⟨p.directories, [], []⟩ (hs.cleared ⟨pre, [], []⟩ e) :=
    hJ _ (List.prefix_refl _)
  refine (does_mkdir (v := hs.cleared ⟨pre, [], []⟩ e) (hs.takesMade e he hm).full hw1
    (fun q hq hb => ?_) hJ1 fun a _ hb => hs.before_makeTo hJ1 fun q hq hqb => ?_).imp ?_
  -- The path itself is free or a directory, and all above it are directories by now.
  · by_cases hne : q = root.pathOf e.path
    · rw [hne]
      exact hs.cleared_top he hm (hfresh _ SepPath.Below.refl)
    · obtain ⟨hd, hg⟩ := hs.done_above (s := ⟨pre, [], []⟩) hi hlive hdirs hq hb hne
      rw [hs.cleared_of_ne he hm hne, hs.after_done hd]
      exact Or.inr hg
  · exact hs.goal_to hi hm hmem (fun j hj _ => hj) hq (hb.trans hqb)
  · rintro _ w2 ⟨hw2, ht2⟩
    rw [hs.after_makes hi hm hdirs] at hw2
    exact ⟨hw2, ht2.trans (ht1.trans htemp)⟩

/-- `prepare` makes the way to the root and the directories of the plan. -/
theorem Start.does_prepare (hw : w.Shows t.view) (htemp : w.temp = none) :
    Does (hs.Before ⟨p.directories, [], []⟩) (prepare root source p) w fun _ w' =>
      w'.Shows (hs.after ⟨p.directories, [], []⟩) ∧ w'.temp = none := by
  have hJ0 : hs.Before ⟨p.directories, [], []⟩ t.view := fun q => Or.inl rfl
  -- Making the root and its parents is the state after no step.
  have hbase : makeTo t.view (root.pathOf "") = hs.after ⟨[], [], []⟩ := by
    funext q
    unfold makeTo
    split
    · next hq => exact ((hs.after_done (Or.inl hq)).trans (if_pos hq)).symm
    · next hq =>
      refine (hs.after_start ?_).symm
      rintro (h | ⟨j, hj, -⟩ | ⟨j, hj, -⟩ | ⟨x, hx, -⟩)
      · exact hq h
      · cases hj
      · cases hj
      · cases hx
  refine Prog.Succeeds.bind (does_mkdir (Root.full_base hs.base) hw (fun q hq hb => ?_) hJ0
    fun a _ hb => hs.before_makeTo hJ0 fun q hq hqb => ?_) ?_
  · exact (hs.clear q hq hb).imp Tree.view_eq_none.mpr Tree.isDir_iff.mp
  · exact ⟨Or.inl ⟨hq, hb.trans hqb⟩, if_pos ⟨hq, hb.trans hqb⟩⟩
  rintro _ w1 ⟨hw1, ht1⟩
  rw [hbase] at hw1
  -- The invariant of the loop is the state after the directories so far.
  refine Prog.succeeds_forM (J := fun pre w' => w'.Shows (hs.after ⟨pre, [], []⟩) ∧ w'.temp = none)
    ⟨hw1, ht1.trans htemp⟩ (fun pre i post w2 hpre hw2 => ?_) fun _ h => h
  obtain ⟨e, hi, -⟩ := (mem_directories hs.plan (i := i)).mp (by simp [hpre])
  refine Prog.Succeeds.bind (Q := fun e' w' => e = e' ∧ w2 = w')
    (Prog.succeeds_lift (by simp [index, hi]) ⟨rfl, rfl⟩) ?_
  rintro _ _ ⟨rfl, rfl⟩
  exact hs.does_prepareNext hpre hi hw2.1 hw2.2

/-! ### Installing files -/

/-- The next file and everything below it are as at the start. -/
theorem Start.not_done_of_transfers {is : List Nat} (his : ∀ j ∈ is, j ∈ p.files)
    (hi : source.entries[i]? = some e)
    (ht : transfers destination options (guardedPaths source destination) e = true) (hnew : i ∉ is)
    (hq : Below q (root.pathOf e.path)) :
    ¬ Done root source ⟨p.directories, is, []⟩ q := by
  have hsrc := hs.source_valid
  have he := List.mem_of_getElem? hi
  have hk : e.kind ≠ .directory := by
    rw [(live_of_transfers ht).2]
    simp
  rintro (⟨h0, hb⟩ | ⟨j, hj, d, hd, rfl⟩ | ⟨j, hj, d, hd, hqd⟩ | ⟨x, hx, -⟩)
  · exact not_below_base (hsrc.path_ne_empty he) h0 hb hq
  · have hde := (hsrc.below_of_pathOf (List.mem_of_getElem? hd) hsrc he).mp hq
    obtain rfl := hsrc.eq_of_below_file he hk (List.mem_of_getElem? hd) hde
    obtain ⟨d', hd', hm⟩ := (mem_directories hs.plan).mp hj
    obtain rfl := Option.some.inj (hd.symm.trans hd')
    exact hk (live_of_makes hm).2
  · obtain ⟨d', hd', htd⟩ := (mem_files hs.plan).mp (his j hj)
    obtain rfl := Option.some.inj (hd.symm.trans hd')
    have hdk : d.kind ≠ .directory := by
      rw [(live_of_transfers htd).2]
      simp
    have hdm := List.mem_of_getElem? hd
    -- Two files with a path below both are the same.
    have heq : d = e := by
      rcases hq.comparable hqd with h | h
      · exact (hsrc.eq_of_below_file hdm hdk he ((hsrc.below_of_pathOf he hsrc hdm).mp h)).symm
      · exact hsrc.eq_of_below_file he hk hdm ((hsrc.below_of_pathOf hdm hsrc he).mp h)
    subst heq
    exact hnew (hsrc.index_inj hi hd ▸ hj)
  · cases hx

/-- What is below a file of the plan is what the conflict removes. -/
theorem Start.cleared_below (he : e ∈ source.entries)
    (ht : transfers destination options (guardedPaths source destination) e = true)
    (hfresh : ¬ Done root source s q) (hb : Below q (root.pathOf e.path))
    (hne : q ≠ root.pathOf e.path) : hs.cleared s e q = none := by
  obtain ⟨hlive, hk⟩ := live_of_transfers ht
  by_cases hv : t.view q = none
  · unfold Start.cleared dropAll
    split
    · rfl
    · rw [hs.after_start hfresh, hv]
  · have hc := hs.clashes_of_view he hlive hk hb hne hv
    obtain ⟨x, hx, hxq⟩ := hs.zone he hc hb hv
    refine if_pos ⟨x, ?_, hxq⟩
    unfold clearedBy
    rwa [if_pos hc]

/-- Where a file is installed there is no directory any more. -/
theorem Start.cleared_file (he : e ∈ source.entries)
    (ht : transfers destination options (guardedPaths source destination) e = true)
    (hfresh : ¬ Done root source s (root.pathOf e.path)) :
    hs.cleared s e (root.pathOf e.path) ≠ some Core.dir := by
  obtain ⟨hlive, hk⟩ := live_of_transfers ht
  unfold Start.cleared clearedBy
  -- A conflict is cleared. Otherwise what is there is of the kind of the entry, a file.
  by_cases hc : clashes destination (guardedPaths source destination) e = true
  · obtain ⟨old, hold, -, hop, -⟩ := old_of_clashes hs.plan he hc
    rw [if_pos hc, show dropAll root (hs.after s) (conflictEntries destination e.path)
      (root.pathOf e.path) = none from if_pos
        ⟨old, mem_conflictEntries.mpr ⟨hold, hop ▸ SepPath.Below.refl⟩, by rw [hop]⟩]
    simp
  · rw [if_neg hc, dropAll_nil, hs.after_start hfresh]
    have h := hs.view_live he hlive
    cases hget : destination.get? e.path with
    | none =>
      rw [hget] at h
      rw [h]
      simp
    | some old =>
      rw [hget] at h
      obtain ⟨-, co, hco, hiff⟩ := h
      have hkind : old.kind = e.kind := by
        simpa only [clashes, hlive, hget, Bool.true_and, Option.any_some, decide_eq_true_eq, ne_eq,
          not_not] using hc
      rw [hco]
      intro hdir
      have := hiff.mpr (Option.some.inj hdir)
      rw [hkind, hk] at this
      cases this

/-- The paths that an install may drop are those it replaces. -/
theorem Start.cleared_zone (he : e ∈ source.entries)
    (hx : x ∈ clearedBy destination (guardedPaths source destination) e) :
    clashes destination (guardedPaths source destination) e = true ∧
      Below (root.pathOf x.path) (root.pathOf e.path) := by
  unfold clearedBy at hx
  split at hx
  · next hc =>
    obtain ⟨hxd, hxe⟩ := mem_conflictEntries.mp hx
    exact ⟨hc, (hs.destination_valid.below_of_pathOf hxd hs.source_valid he).mpr hxe⟩
  · cases hx

/-- The view after the next file. -/
theorem Start.after_installs {is : List Nat} (hi : source.entries[i]? = some e)
    (ht : transfers destination options (guardedPaths source destination) e = true)
    (hfresh : ∀ q, Below q (root.pathOf e.path) →
      ¬ Done root source ⟨p.directories, is, []⟩ q) :
    Function.update (hs.cleared ⟨p.directories, is, []⟩ e) (root.pathOf e.path)
        (some (Core.file (contents e) e.time))
      = hs.after ⟨p.directories, is ++ [i], []⟩ := by
  have he := List.mem_of_getElem? hi
  funext q
  -- At or below the file the goal is reached, and no other path has changed.
  by_cases hb : Below q (root.pathOf e.path)
  · have hd : Done root source ⟨p.directories, is ++ [i], []⟩ q :=
      Or.inr (Or.inr (Or.inl ⟨i, by simp, e, hi, hb⟩))
    rw [hs.after_done hd]
    by_cases hne : q = root.pathOf e.path
    · rw [hne, Function.update_self, goal_transfers hs he ht]
    · rw [Function.update_of_ne hne, hs.cleared_below he ht (hfresh q hb) hb hne,
        hs.goal_below he ht hb hne]
  · have hne : q ≠ root.pathOf e.path := fun h => hb (h ▸ SepPath.Below.refl)
    rw [Function.update_of_ne hne, hs.after_congr (done_file_snoc hi hb)]
    exact dropAll_of_forall_ne fun x hx h => hb (h ▸ (hs.cleared_zone he hx).2)

/-- While the conflict of a file is cleared, the disk is still at a moment before this file is
complete. -/
theorem Start.before_install {is : List Nat} (hi : source.entries[i]? = some e)
    (ht : transfers destination options (guardedPaths source destination) e = true)
    {ys : List Entry} (hys : ys <+: clearedBy destination (guardedPaths source destination) e) :
    hs.Before ⟨p.directories, is ++ [i], []⟩ (dropAll root (hs.after ⟨p.directories, is, []⟩) ys) := by
  have he := List.mem_of_getElem? hi
  refine hs.before_dropAll (hs.before_after fun q hq => hq.mono (fun _ h => h)
    (fun j hj => List.mem_append_left _ hj) fun _ h => h) fun y hy => ?_
  obtain ⟨hc, hb⟩ := hs.cleared_zone he (hys.subset hy)
  by_cases hye : root.pathOf y.path = root.pathOf e.path
  · exact Or.inl ⟨e, he, hc, hye.symm⟩
  · exact Or.inr ⟨Or.inr (Or.inr (Or.inl ⟨i, by simp, e, hi, hb⟩)), hs.goal_below he ht hb hye⟩

/-- The part of an installation after the check of the old object: what is in the place of the file
is cleared, and the file is put there. -/
theorem Start.does_replace {is : List Nat} (his : ∀ j ∈ is, j ∈ p.files)
    (hi : source.entries[i]? = some e) (hnew : i ∉ is)
    (ht : transfers destination options (guardedPaths source destination) e = true)
    (hw : w.Shows (hs.after ⟨p.directories, is, []⟩))
    (htemp : w.temp = some ⟨dirName (root.pathOf e.path), contents e, e.time⟩) :
    Does (hs.Before ⟨p.directories, is ++ [i], []⟩) (do
        clearConflict root p e.path
        Staged.commit ⟨dirName (root.pathOf e.path), baseName (root.pathOf e.path)⟩) w
      fun _ w' => w'.Shows (hs.after ⟨p.directories, is ++ [i], []⟩) ∧ w'.temp = none := by
  have he := List.mem_of_getElem? hi
  obtain ⟨hlive, -⟩ := live_of_transfers ht
  have htakes := hs.takesFile e he ht
  have hfresh := fun q hq => hs.not_done_of_transfers his hi ht hnew (q := q) hq
  have hparent := hs.after_parent hw hi hlive fun j hj _ => hj
  refine Prog.Succeeds.bind (hs.does_clearConflict he
    (fun q hq => hs.after_start (hfresh q hq)) hparent hw ?_
    fun ys hys => hs.before_install hi ht hys) ?_
  · rw [htemp]
    rintro d hd hb
    obtain rfl := Option.some.inj hd
    exact SepPath.not_below_dirName htakes.clean.ne_nil hb
  rintro _ w2 ⟨hw2, ht2⟩
  -- What was cleared is in the place of the file, so its directory is still there.
  have hcleared : hs.cleared ⟨p.directories, is, []⟩ e (dirName (root.pathOf e.path))
      = some Core.dir := by
    refine (dropAll_of_forall_ne fun x hx h => ?_).trans hparent
    have hb := (hs.cleared_zone he hx).2
    rw [h] at hb
    exact SepPath.not_below_dirName htakes.clean.ne_nil hb
  have hfinal := hs.after_installs hi ht hfresh
  refine (does_commit (v := hs.cleared ⟨p.directories, is, []⟩ e) htakes.clean hw2 hcleared
    (hs.cleared_file he ht (hfresh _ SepPath.Below.refl)) (ht2.trans htemp) ?_).imp ?_
  · rw [hfinal]
    exact hs.before_after fun _ h => h
  · rintro _ w3 ⟨hw3, ht3⟩
    rw [hfinal] at hw3
    exact ⟨hw3, ht3⟩

/-- `install` puts the next file in its place. -/
theorem Start.does_install {is : List Nat} (his : ∀ j ∈ is, j ∈ p.files)
    (hi : source.entries[i]? = some e) (hmem : i ∈ p.files) (hnew : i ∉ is)
    (hw : w.Shows (hs.after ⟨p.directories, is, []⟩)) :
    Does (hs.Before ⟨p.directories, is ++ [i], []⟩)
      (install root e destination p (contents e)) w fun _ w' =>
        w'.Shows (hs.after ⟨p.directories, is ++ [i], []⟩) ∧ w'.temp = none := by
  have he := List.mem_of_getElem? hi
  have ht : transfers destination options (guardedPaths source destination) e = true := by
    obtain ⟨e', he', ht⟩ := (mem_files hs.plan).mp hmem
    obtain rfl := Option.some.inj (he'.symm.trans hi)
    exact ht
  obtain ⟨hlive, hk⟩ := live_of_transfers ht
  have htakes := hs.takesFile e he ht
  obtain ⟨hlen, hhash⟩ := hs.bytes e he ht
  have hns := (hs.source_valid.entry e he).ns
  have htime : e.time = ⟨e.mtime, e.ns, hns⟩ := dif_pos hns
  have hfresh := fun q hq => hs.not_done_of_transfers his hi ht hnew (q := q) hq
  have hparent := hs.after_parent hw hi hlive fun j hj _ => hj
  have hJ0 : hs.Before ⟨p.directories, is ++ [i], []⟩ (hs.after ⟨p.directories, is, []⟩) := by
    have : hs.Before _ (dropAll root (hs.after ⟨p.directories, is, []⟩) []) :=
      hs.before_install hi ht List.nil_prefix
    rwa [dropAll_nil] at this
  refine Prog.Succeeds.bind (does_stage hns htakes hw hparent hJ0 hlen hhash) ?_
  rintro _ w1 ⟨rfl, hw1, ht1⟩
  rw [← htime] at ht1
  have hrest := hs.does_replace his hi hnew ht hw1 ht1
  refine Prog.Succeeds.ensuring (Q := fun _ w' =>
    w'.Shows (hs.after ⟨p.directories, is ++ [i], []⟩) ∧ w'.temp = none) ?_ ?_
  · have hv := hs.view_live he hlive
    cases hget : destination.get? e.path with
    | some old =>
      obtain ⟨hold, hop⟩ := Manifest.mem_of_get? hget
      rw [hget] at hv
      have hcur : hs.after ⟨p.directories, is, []⟩ (root.pathOf old.path)
          = t.view (root.pathOf old.path) :=
        hs.after_start (hop ▸ hfresh _ SepPath.Below.refl)
      refine Prog.Succeeds.bind (hs.does_checkEntry hold hv.1 (hop ▸ htakes) hw1 hcur hJ0) ?_
      rintro _ _ rfl
      exact hrest
    | none =>
      rw [hget] at hv
      have hcur : hs.after ⟨p.directories, is, []⟩ (root.pathOf e.path) = none :=
        (hs.after_start (hfresh _ SepPath.Below.refl)).trans hv
      refine Prog.Succeeds.bind (does_exists_false htakes hw1 hJ0 hparent hcur) ?_
      rintro _ _ ⟨rfl, rfl⟩
      exact hrest
  · rintro _ w2 ⟨hw2, ht2⟩
    refine (does_drop hw2 (hs.before_after fun _ h => h) ht2).imp ?_
    rintro _ _ rfl
    exact ⟨hw2, ht2⟩

/-! ### Removing and the times of directories -/

/-- What is removed, and everything below it, is as at the start. -/
theorem Start.not_done_of_removal (hx : x ∈ p.removals) (hq : Below q (root.pathOf x.path)) :
    ¬ Done root source ⟨p.directories, p.files, []⟩ q := by
  have hsrc := hs.source_valid
  have hdst := hs.destination_valid
  obtain ⟨hxd, hk, hdrop, hnone, hsub⟩ := removal_facts hs.plan hx
  -- Nothing that was done is at or above the removal: not the root, no directory of the plan, no
  -- file of it.
  rintro (⟨h0, hb⟩ | ⟨j, hj, d, hd, rfl⟩ | ⟨j, hj, d, hd, hqd⟩ | ⟨y, hy, -⟩)
  · exact not_below_base (hdst.path_ne_empty hxd) h0 hb hq
  · have hdm := List.mem_of_getElem? hd
    exact hsub d hdm ((hsrc.below_of_pathOf hdm hdst hxd).mp hq)
  · have hdm := List.mem_of_getElem? hd
    obtain ⟨d', hd', htd⟩ := (mem_files hs.plan).mp hj
    obtain rfl := Option.some.inj (hd.symm.trans hd')
    obtain ⟨hlive, hdk⟩ := live_of_transfers htd
    rcases hq.comparable hqd with h | h
    · -- The removal is below a file, which replaces a directory then.
      have hxd' := (hdst.below_of_pathOf hxd hsrc hdm).mp h
      have hne : x.path.utf8 ≠ d.path.utf8 := fun heq =>
        hsub d hdm (heq ▸ SepPath.Below.refl)
      obtain ⟨-, -, hr⟩ := (mem_removals hs.plan).mp hx
      exact (removes_iff.mp hr).2.2 d hdm (clashes_of_below hs.plan hlive hdk hxd hxd' hne) hxd'
    · exact hsub d hdm ((hsrc.below_of_pathOf hdm hdst hxd).mp h)
  · cases hy

/-- After the last file, the removals of the plan can be dropped in their order. -/
theorem Start.droppable_removals :
    Droppable root (hs.after ⟨p.directories, p.files, []⟩) p.removals := by
  have hdst := hs.destination_valid
  -- What is removed is as it was at the start.
  have hstart : ∀ x ∈ p.removals, ∀ q, Below q (root.pathOf x.path) →
      hs.after ⟨p.directories, p.files, []⟩ q = t.view q := fun x hx q hq =>
    hs.after_start (hs.not_done_of_removal hx hq)
  refine ⟨fun x hx => ?_, fun x hx => ?_, fun x hx => ?_, fun x hx q hq hdq huq => ?_,
    removals_sorted hs.plan⟩
  · obtain ⟨hxd, -, hdrop, -⟩ := removal_facts hs.plan hx
    exact hs.takesDropped x hxd hdrop
  · obtain ⟨hxd, hk, -⟩ := removal_facts hs.plan hx
    rw [hstart x hx _ SepPath.Below.refl]
    exact hs.dropped_core hxd hk
  · obtain ⟨hxd, hk, -⟩ := removal_facts hs.plan hx
    have hx0 : root.pathOf x.path ≠ [] := pathOf_ne_nil (hdst.path_ne_empty hxd)
    -- Its parent is a directory, whether the run has made it or found it.
    by_cases hd : Done root source ⟨p.directories, p.files, []⟩ (dirName (root.pathOf x.path))
    · rw [hs.after_done hd]
      rcases hd with hb | ⟨j, hj, d, hjd, hdp⟩ | ⟨j, hj, d, hjd, hb⟩ | ⟨y, hy, -⟩
      · exact if_pos hb
      · obtain ⟨d', hd', hm⟩ := (mem_directories hs.plan).mp hj
        obtain rfl := Option.some.inj (hjd.symm.trans hd')
        rw [← hdp]
        exact goal_makes hs (List.mem_of_getElem? hjd) hm
      · have hdm := List.mem_of_getElem? hjd
        have hb' := hb.of_dirName_ne_nil (pathOf_ne_nil (hs.source_valid.path_ne_empty hdm))
        exact absurd (Or.inr (Or.inr (Or.inl ⟨j, hj, d, hjd, hb'⟩)))
          (hs.not_done_of_removal hx SepPath.Below.refl)
      · cases hy
    · obtain ⟨n, hn, -⟩ := hs.described hxd
      rw [hs.after_start hd]
      exact Tree.isDir_iff.mp (Tree.isDir_dirName hx0 hn)
  · obtain ⟨hxd, hk, -⟩ := removal_facts hs.plan hx
    -- A child that is still there was listed, and is removed before.
    have hqx : Below q (root.pathOf x.path) := hdq ▸ SepPath.Below.of_dirName_ne_nil
      SepPath.Below.refl (hdq ▸ pathOf_ne_nil (hdst.path_ne_empty hxd))
    rw [hstart x hx q hqx] at huq
    obtain ⟨n, hn⟩ : ∃ n, t.get q = some n :=
      Option.ne_none_iff_exists'.mp (mt Tree.view_eq_none.mpr huq)
    obtain ⟨y, hy, hyq, hyd, hsl⟩ := hs.mirrors.child hdst hxd hk hq hdq hn
    exact ⟨y, removal_child hs.plan hx hy hyd hsl, hyq⟩

/-- Between two removals of `finish` the disk is at a moment before the end. -/
theorem Start.before_finish {ys : List Entry} (hys : ys <+: p.removals) :
    hs.Before ⟨p.directories, p.files, p.removals⟩
      (dropAll root (hs.after ⟨p.directories, p.files, []⟩) ys) := by
  refine hs.before_dropAll (hs.before_after fun q hq => hq.mono (fun _ h => h) (fun _ h => h)
    fun _ h => by cases h) fun y hy => Or.inr ?_
  obtain ⟨hyd, -, hdrop, hnone, -⟩ := removal_facts hs.plan (hys.subset hy)
  exact ⟨Or.inr (Or.inr (Or.inr ⟨y, hys.subset hy, rfl⟩)),
    goal_drops _ _ _ hs.destination_valid hyd hnone hdrop⟩

/-- After all removals the view is the goal. -/
theorem Start.after_removals :
    dropAll root (hs.after ⟨p.directories, p.files, []⟩) p.removals
      = goal root source destination options contents t.view := by
  rw [← hs.after_all]
  funext q
  unfold dropAll
  split
  · next hq =>
    obtain ⟨x, hx, rfl⟩ := hq
    obtain ⟨hxd, -, hdrop, hnone, -⟩ := removal_facts hs.plan hx
    rw [hs.after_done (Or.inr (Or.inr (Or.inr ⟨x, hx, rfl⟩))),
      goal_drops _ _ _ hs.destination_valid hxd hnone hdrop]
  · next hq =>
    refine hs.after_congr ⟨fun h => h.mono (fun _ h => h) (fun _ h => h) (by simp), ?_⟩
    rintro (h | h | h | h)
    · exact Or.inl h
    · exact Or.inr (Or.inl h)
    · exact Or.inr (Or.inr (Or.inl h))
    · exact absurd h hq

/-- The directory has the time of its source entry. -/
def Timed (root : Root) (t : Tree) (e : Entry) : Prop :=
  ∃ n, t.get (root.pathOf e.path) = some n ∧ n.mtime = e.time

/-- `finish` removes what the source does not have and sets the times of the directories. -/
theorem Start.does_finish (hw : w.Shows (hs.after ⟨p.directories, p.files, []⟩))
    (htemp : w.temp = none) :
    Does (hs.Before ⟨p.directories, p.files, p.removals⟩) (finish root source p) w fun _ w' =>
      w'.Shows (goal root source destination options contents t.view) ∧ w'.temp = none ∧
      ∀ e ∈ source.entries, makes (guardedPaths source destination) e = true →
        Timed root w'.tree e := by
  have hdrop := hs.droppable_removals
  have hJ : ∀ ys, ys <+: p.removals → hs.Before ⟨p.directories, p.files, p.removals⟩
      (dropAll root (hs.after ⟨p.directories, p.files, []⟩) ys) :=
    fun ys hys => hs.before_finish hys
  have hJ0 : hs.Before ⟨p.directories, p.files, p.removals⟩
      (hs.after ⟨p.directories, p.files, []⟩) := by
    have := hJ [] List.nil_prefix
    rwa [dropAll_nil] at this
  -- The preflight changes nothing.
  refine Prog.Succeeds.bind (Q := fun _ w' => w = w') ?_ ?_
  · refine Prog.succeeds_forM (J := fun _ w' => w = w') rfl (fun pre x post w1 hxs h1 => ?_)
      fun _ h => h
    subst h1
    have hx : x ∈ p.removals := by simp [hxs]
    obtain ⟨hxd, hk, -⟩ := removal_facts hs.plan hx
    exact hs.does_checkEntry hxd hk (hdrop.takes x hx) hw
      (hs.after_start (hs.not_done_of_removal hx SepPath.Below.refl)) hJ0
  rintro _ _ rfl
  refine Prog.Succeeds.bind (Q := fun _ w' =>
    w'.Shows (goal root source destination options contents t.view) ∧ w'.temp = none) ?_ ?_
  · refine Prog.succeeds_forM (J := fun pre w' =>
      w'.Shows (dropAll root (hs.after ⟨p.directories, p.files, []⟩) pre) ∧ w'.temp = none)
      ⟨dropAll_nil.symm ▸ hw, htemp⟩ (fun pre x post w1 hxs h1 => ?_) fun w1 h1 => ?_
    · refine (does_removeNext hdrop hxs h1.1 (by simp [h1.2]) hJ).imp fun _ w2 h2 => ?_
      exact ⟨h2.1, h2.2.trans h1.2⟩
    · rwa [hs.after_removals] at h1
  rintro _ w1 ⟨hw1, ht1⟩
  have hJg : hs.Before ⟨p.directories, p.files, p.removals⟩
      (goal root source destination options contents t.view) := by
    have := hJ _ (List.prefix_refl _)
    rwa [hs.after_removals] at this
  refine Prog.succeeds_forM (J := fun pre w' =>
      w'.Shows (goal root source destination options contents t.view) ∧ w'.temp = none ∧
      ∀ j ∈ pre, ∀ e, source.entries[j]? = some e → Timed root w'.tree e)
    ⟨hw1, ht1, fun j hj => by cases hj⟩ (fun pre i post w2 hpre h2 => ?_) fun w2 h2 => ?_
  · obtain ⟨hw2, ht2, htimed⟩ := h2
    obtain ⟨e, hi, hm⟩ := (mem_directories hs.plan (i := i)).mp (by
      rw [← List.mem_reverse, hpre]
      simp)
    have he := List.mem_of_getElem? hi
    have hns := (hs.source_valid.entry e he).ns
    have htime : e.time = ⟨e.mtime, e.ns, hns⟩ := dif_pos hns
    refine Prog.Succeeds.bind (Q := fun e' w' => e = e' ∧ w2 = w')
      (Prog.succeeds_lift (by simp [index, hi]) ⟨rfl, rfl⟩) ?_
    rintro _ _ ⟨rfl, rfl⟩
    refine (does_setMtime hns (hs.takesMade e he hm) hw2 (goal_makes hs he hm) hJg).imp ?_
    rintro _ w3 ⟨hw3, ht3, tag, hget⟩
    refine ⟨hw3, ht3.trans ht2, fun j hj d hd => ?_⟩
    -- The time just set, or one set before at another path.
    by_cases hde : root.pathOf d.path = root.pathOf e.path
    · obtain rfl := hs.source_valid.eq_of_path (List.mem_of_getElem? hd) he (pathOf_injective hde)
      obtain ⟨n, hn, -⟩ := hw2.get (goal_makes hs he hm)
      exact ⟨_, by rw [hget, if_pos rfl, hn]; rfl, htime.symm⟩
    · have hj' : j ∈ pre := by
        rcases List.mem_append.mp hj with hj | hj
        · exact hj
        · obtain rfl := List.mem_singleton.mp hj
          obtain rfl := Option.some.inj (hd.symm.trans hi)
          exact absurd rfl hde
      obtain ⟨n, hn, hnt⟩ := htimed j hj' d hd
      exact ⟨n, by rw [hget, if_neg hde]; exact hn, hnt⟩
  · obtain ⟨hw2, ht2, htimed⟩ := h2
    refine ⟨hw2, ht2, fun e he hm => ?_⟩
    obtain ⟨i, hi⟩ := List.getElem?_of_mem he
    exact htimed i (List.mem_reverse.mpr ((mem_directories hs.plan).mpr ⟨e, hi, hm⟩)) e hi

/-! ### The complete run -/

/-- A moment of an earlier part of the run is a moment of the whole run. -/
theorem Start.before_mono {u : View} (h : hs.Before s u) (hd : ∀ i ∈ s.dirs, i ∈ p.directories)
    (hf : ∀ i ∈ s.files, i ∈ p.files) (hg : ∀ x ∈ s.gone, x ∈ p.removals) :
    hs.Before ⟨p.directories, p.files, p.removals⟩ u :=
  Reach.mono h (fun _ hq => hq.mono hd hf hg) fun _ hq => hq

/-- A complete run succeeds and shows the goal, with the times of the directories, in whatever
order the files come. At every moment each path is as at the start, as in the goal, or about to be
replaced. -/
theorem Start.does_runPlan_perm {is : List Nat} (his : is.Perm p.files) (hw : w.Shows t.view)
    (htemp : w.temp = none) : Does (hs.Before ⟨p.directories, p.files, p.removals⟩)
      (runPlan root source destination p is contents) w fun _ w' =>
        w'.Shows (goal root source destination options contents t.view) ∧ w'.temp = none ∧
        ∀ e ∈ source.entries, makes (guardedPaths source destination) e = true →
          Timed root w'.tree e := by
  refine Prog.Succeeds.bind ((hs.does_prepare hw htemp).mono
    (fun w' h => hs.before_mono h (fun _ h => h) (by simp) (by simp)) fun _ _ h => h) ?_
  rintro _ w1 hw1
  refine Prog.Succeeds.bind (Q := fun _ w' =>
    w'.Shows (hs.after ⟨p.directories, p.files, []⟩) ∧ w'.temp = none) ?_ ?_
  -- The invariant of the loop is the state after the files so far, in whatever order.
  · refine Prog.succeeds_forM (J := fun pre w' =>
      w'.Shows (hs.after ⟨p.directories, pre, []⟩) ∧ w'.temp = none) hw1
      (fun pre i post w2 hpre h2 => ?_) fun w2 h2 => ?_
    · have hmem : i ∈ p.files := his.mem_iff.mp (by simp [hpre])
      have hsub : ∀ j ∈ pre, j ∈ p.files := fun j hj => his.mem_iff.mp (by simp [hpre, hj])
      obtain ⟨e, hi, -⟩ := (mem_files hs.plan).mp hmem
      have hnew : i ∉ pre := by
        have hnodup := his.nodup_iff.mpr ((files_sorted hs.plan).imp Nat.ne_of_lt)
        rw [hpre] at hnodup
        exact fun hj => (List.nodup_append.mp hnodup).2.2 i hj i (by simp) rfl
      refine Prog.Succeeds.bind (Q := fun e' w' => e = e' ∧ w2 = w')
        (Prog.succeeds_lift (by simp [index, hi]) ⟨rfl, rfl⟩) ?_
      rintro _ _ ⟨rfl, rfl⟩
      refine (hs.does_install hsub hi hmem hnew h2.1).mono (fun w' h => ?_) fun _ _ h => h
      refine hs.before_mono h (fun _ h => h) (fun j hj => ?_) (by simp)
      rcases List.mem_append.mp hj with hj | hj
      · exact hsub j hj
      · rwa [List.mem_singleton.mp hj]
    · -- The order of the files is forgotten.
      have hsame : hs.after ⟨p.directories, is, []⟩ = hs.after ⟨p.directories, p.files, []⟩ :=
        funext fun q => hs.after_congr ⟨fun h => h.mono (fun _ h => h) (fun _ => his.mem_iff.mp)
          fun _ h => h, fun h => h.mono (fun _ h => h) (fun _ => his.mem_iff.mpr) fun _ h => h⟩
      rwa [hsame] at h2
  rintro _ w2 ⟨hw2, ht2⟩
  exact hs.does_finish hw2 ht2

/-- The whole run: `prepare`, the installs and `finish` lead to the goal, and every moment on the
way is known. -/
theorem Start.does_runPlan (hw : w.Shows t.view) (htemp : w.temp = none) :
    Does (hs.Before ⟨p.directories, p.files, p.removals⟩)
      (runPlan root source destination p p.files contents) w fun _ w' =>
        w'.Shows (goal root source destination options contents t.view) ∧ w'.temp = none ∧
        ∀ e ∈ source.entries, makes (guardedPaths source destination) e = true →
          Timed root w'.tree e :=
  hs.does_runPlan_perm (List.Perm.refl _) hw htemp

end

end RrSync

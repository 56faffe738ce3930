import RrSync.Proofs.Phases

/-!
# `RrSync.Proofs.Convergence`: a run reaches its goal

From a tree that the destination manifest describes, each step of a run succeeds and brings
the view from one `progress` to the next. At every moment in between the view is at `Reach`
of the goal: each path is as at the start, as in the goal, or gone because another object is
about to replace it.
-/

set_option autoImplicit false

namespace RrSync

open Lib

section
variable [Sha256] {root : Root} {source destination : Manifest} {options : Options} {p : Plan}
  {contents : Entry → Bytes} {t : Tree} {e c d x : Entry} {i : Nat} {q : Path} {s s' : Steps}

/-! ### What is at the start -/

section
variable (hs : Start root source destination options p contents t)
include hs

/-- An entry of the destination describes what is in its place at the start. -/
theorem Start.described (hx : x ∈ destination.entries) :
    ∃ n, t.get (root.pathOf x.path) = some n ∧ t.view (root.pathOf x.path) = some n.core ∧
      x.Describes options.checksum n := by
  obtain ⟨n, hn, hd⟩ := hs.mirrors.entry x hx
  exact ⟨n, hn, by simp [Tree.view, hn], hd⟩

/-- What may be removed is there, and is a directory exactly when it is listed as one. -/
theorem Start.dropped_core (hx : x ∈ destination.entries) (hk : x.kind ≠ .guarded) :
    ∃ co, t.view (root.pathOf x.path) = some co ∧ (x.kind = .directory ↔ co = Core.dir) := by
  obtain ⟨n, -, hv, hd⟩ := hs.described hx
  refine ⟨n.core, hv, hd.directory, fun h => ?_⟩
  cases hkind : x.kind with
  | directory => rfl
  | guarded => exact absurd hkind hk
  | file =>
    obtain ⟨data, hcore, -, -⟩ := hd.file hkind
    rw [hcore] at h
    cases h

/-- At a live source entry that the destination does not list there is nothing. -/
theorem Start.get_none (he : e ∈ source.entries) (hk : e.kind ≠ .guarded)
    (h : destination.get? e.path = none) : t.get (root.pathOf e.path) = none := by
  cases hn : t.get (root.pathOf e.path) with
  | none => rfl
  | some n =>
    obtain ⟨x, hx, hxp⟩ := hs.mirrors.object _ n (hs.source_valid.path_ne_nil he) hn
      (hs.source_valid.visible he hk)
    exact absurd (String.utf8_injective hxp) (Manifest.get?_eq_none.mp h x hx)

/-- At a live source entry the destination has an object of the kind its manifest says. -/
theorem Start.view_live (he : e ∈ source.entries)
    (hlive : live (guardedPaths source destination) e = true) :
    match destination.get? e.path with
    | none => t.view (root.pathOf e.path) = none
    | some old => old.kind ≠ .guarded ∧
        ∃ co, t.view (root.pathOf e.path) = some co ∧ (old.kind = .directory ↔ co = Core.dir) := by
  cases hget : destination.get? e.path with
  | none => exact Tree.view_eq_none.mpr (hs.get_none he (kind_of_live he hlive) hget)
  | some old =>
    obtain ⟨hold, hop⟩ := Manifest.mem_of_get? hget
    have hk : old.kind ≠ .guarded := fun hk => not_below_of_live hlive
      (mem_guardedPaths.mpr ⟨old, Or.inr hold, hk, rfl⟩) (hop ▸ SepPath.Below.refl)
    refine ⟨hk, ?_⟩
    have h := hs.dropped_core hold hk
    rwa [hop] at h

/-- In the zone of a conflict there is nothing but the objects the conflict removes. -/
theorem Start.zone (he : e ∈ source.entries)
    (hc : clashes destination (guardedPaths source destination) e = true)
    (hb : Below q (root.pathOf e.path)) (hq : t.view q ≠ none) :
    ∃ x ∈ conflictEntries destination e.path, root.pathOf x.path = q := by
  obtain ⟨old, hold, -, hop, -⟩ := old_of_clashes hs.plan he hc
  rw [← hop] at hb
  obtain ⟨n, hn⟩ : ∃ n, t.get q = some n := Option.ne_none_iff_exists'.mp (mt Tree.view_eq_none.mpr hq)
  obtain ⟨y, hy, hyq, hyx⟩ := hs.mirrors.zone hs.destination_valid hold
    (fun y hy h => kind_of_clash_zone hs.plan he hc hy (hop ▸ h)) hb hn
  exact ⟨y, mem_conflictEntries.mpr ⟨hy, hop ▸ hyx⟩, hyq⟩

/-- There is something below a file of the plan only when it replaces a directory. -/
theorem Start.clashes_of_view (he : e ∈ source.entries)
    (hlive : live (guardedPaths source destination) e = true) (hk : e.kind = .file)
    (hb : Below q (root.pathOf e.path)) (hne : q ≠ root.pathOf e.path) (hq : t.view q ≠ none) :
    clashes destination (guardedPaths source destination) e = true := by
  obtain ⟨n, hn⟩ : ∃ n, t.get q = some n :=
    Option.ne_none_iff_exists'.mp (mt Tree.view_eq_none.mpr hq)
  have hdir : t.IsDir (root.pathOf e.path) := Tree.isDir_above hn hb hne
  have h := hs.view_live he hlive
  rw [Tree.isDir_iff.mp hdir] at h
  cases hget : destination.get? e.path with
  | none =>
    rw [hget] at h
    cases h
  | some old =>
    rw [hget] at h
    obtain ⟨-, co, hco, hiff⟩ := h
    have hold : old.kind = .directory := hiff.mpr (Option.some.inj hco).symm
    simp [clashes, hlive, hget, hold, hk]

/-- Below a file of the plan the goal has nothing. -/
theorem Start.goal_below (he : e ∈ source.entries)
    (ht : transfers destination options (guardedPaths source destination) e = true)
    (hb : Below q (root.pathOf e.path)) (hne : q ≠ root.pathOf e.path) :
    goal root source destination options contents t.view q = none := by
  obtain ⟨hlive, hk⟩ := live_of_transfers ht
  have hsrc := hs.source_valid
  -- The source has nothing below a file.
  have hnosrc : ∀ d ∈ source.entries, root.pathOf d.path ≠ q := by
    rintro d hd rfl
    have := (hsrc.below_of_pathOf hd hsrc he).mp hb
    rw [hsrc.eq_of_below_file he (by rw [hk]; simp) hd this] at hne
    exact hne rfl
  by_cases hv : t.view q = none
  · rw [goal_else (fun h => not_below_base (hsrc.path_ne_empty he) h.1 h.2 hb) hnosrc, hv]
    rintro x hx rfl
    obtain ⟨n, -, hsome, -⟩ := hs.described hx
    rw [hv] at hsome
    cases hsome
  -- What is there makes the file a conflict, so it is dropped.
  · have hc := hs.clashes_of_view he hlive hk hb hne hv
    obtain ⟨x, hx, rfl⟩ := hs.zone he hc hb hv
    obtain ⟨hxd, hxe⟩ := mem_conflictEntries.mp hx
    refine goal_drops _ _ _ hs.destination_valid hxd (Manifest.get?_eq_none.mpr fun d hd hdx => ?_) ?_
    · exact hnosrc d hd (by rw [hdx])
    · exact dropsEntry_iff.mpr (Or.inr ⟨e, he, hc, hxe⟩)

/-- The goal differs from the start at the paths of the steps only. -/
theorem Start.goal_of_not_done
    (hq : ¬ Done root source ⟨p.directories, p.files, p.removals⟩ q) :
    goal root source destination options contents t.view q = t.view q := by
  simp only [Done, not_or] at hq
  obtain ⟨hbase, hdirs, hfiles, hgone⟩ := hq
  -- An entry of the source that is neither made nor transferred stays.
  by_cases hsrc : ∃ e ∈ source.entries, root.pathOf e.path = q
  · obtain ⟨e, he, rfl⟩ := hsrc
    obtain ⟨i, hi⟩ := List.getElem?_of_mem he
    have hm : makes (guardedPaths source destination) e = false := by
      rw [← Bool.not_eq_true]
      exact fun hm => hdirs ⟨i, (mem_directories hs.plan).mpr ⟨e, hi, hm⟩, e, hi, rfl⟩
    have ht : transfers destination options (guardedPaths source destination) e = false := by
      rw [← Bool.not_eq_true]
      exact fun ht => hfiles ⟨i, (mem_files hs.plan).mpr ⟨e, hi, ht⟩, e, hi, SepPath.Below.refl⟩
    exact goal_same hs he hm ht
  · refine goal_else hbase (fun e he h => hsrc ⟨e, he, h⟩) fun x hx hxq => ?_
    rw [← Bool.not_eq_true]
    intro hdrop
    -- What is dropped is a removal, or it is below a file that is transferred.
    rcases dropsEntry_iff.mp hdrop with ⟨hdel, hr⟩ | ⟨c, hc, hcc, hxc⟩
    · exact hgone ⟨x, (mem_removals hs.plan).mpr ⟨hdel, hx, hr⟩, hxq⟩
    · have hne : x.path ≠ c.path := fun h => hsrc ⟨c, hc, h ▸ hxq⟩
      have hk : c.kind = .file := by
        cases hk : c.kind with
        | file => rfl
        | guarded => exact absurd hk (kind_of_live hc (live_of_clashes hcc))
        | directory =>
          have hm : makes (guardedPaths source destination) c = true := by
            simp [makes, live_of_clashes hcc, hk]
          exact absurd (eq_of_zone_of_makes hs.plan hc hm hcc hx hxc).1 hne
      obtain ⟨i, hi⟩ := List.getElem?_of_mem hc
      refine hfiles ⟨i, (mem_files hs.plan).mpr ⟨c, hi, transfers_of_clashes hs.plan hc hk hcc⟩,
        c, hi, ?_⟩
      rw [← hxq]
      exact (hs.destination_valid.below_of_pathOf hx hs.source_valid hc).mpr hxc

/-! ### The views on the way -/

/-- The view after the steps `s`. -/
noncomputable def Start.after (_ : Start root source destination options p contents t)
    (s : Steps) : View :=
  progress t.view (goal root source destination options contents t.view) (Done root source s)

/-- The views while a run is on the way to the view after the steps `s`. -/
def Start.Before (_ : Start root source destination options p contents t) (s : Steps) :
    View → Prop :=
  Reach t.view (goal root source destination options contents t.view) (Done root source s)
    (Clashing root source destination)

/-- Where the steps are done, the view is the goal. -/
theorem Start.after_done (h : Done root source s q) :
    hs.after s q = goal root source destination options contents t.view q := progress_done h

/-- Where they are not, it is the start. -/
theorem Start.after_start (h : ¬ Done root source s q) : hs.after s q = t.view q :=
  progress_start h

/-- Steps that have done the same at a path. -/
theorem Start.after_congr (h : Done root source s q ↔ Done root source s' q) :
    hs.after s q = hs.after s' q := by
  by_cases hq : Done root source s q
  · rw [hs.after_done hq, hs.after_done (h.mp hq)]
  · rw [hs.after_start hq, hs.after_start (mt h.mpr hq)]

/-- A run that has done all its steps shows the goal. -/
theorem Start.after_all : hs.after ⟨p.directories, p.files, p.removals⟩
    = goal root source destination options contents t.view := by
  funext q
  by_cases hq : Done root source ⟨p.directories, p.files, p.removals⟩ q
  · exact hs.after_done hq
  · rw [hs.after_start hq, hs.goal_of_not_done hq]

/-- Fewer steps are before more steps. -/
theorem Start.before_after (h : ∀ q, Done root source s q → Done root source s' q) :
    hs.Before s' (hs.after s) := reach_progress h

/-- Removing what is in conflict, or done, is on the way. -/
theorem Start.before_dropAll {u : View} {ys : List Entry} (hu : hs.Before s u)
    (h : ∀ x ∈ ys, Clashing root source destination (root.pathOf x.path) ∨
      Done root source s (root.pathOf x.path) ∧
      goal root source destination options contents t.view (root.pathOf x.path) = none) :
    hs.Before s (dropAll root u ys) := by
  intro q
  unfold dropAll
  split
  · next hq =>
    obtain ⟨x, hx, rfl⟩ := hq
    rcases h x hx with hm | ⟨hd, hg⟩
    · exact Or.inr (Or.inr ⟨hm, rfl⟩)
    · exact Or.inr (Or.inl ⟨hd, hg.symm⟩)
  · exact hu q

/-- So is making directories that are done. -/
theorem Start.before_makeTo {u : View} {a : Path} (hu : hs.Before s u)
    (h : ∀ q, q ≠ [] → Below a q → Done root source s q ∧
      goal root source destination options contents t.view q = some Core.dir) :
    hs.Before s (makeTo u a) := by
  intro q
  unfold makeTo
  split
  · next hq =>
    obtain ⟨hd, hg⟩ := h q hq.1 hq.2
    exact Or.inr (Or.inl ⟨hd, hg.symm⟩)
  · exact hu q

/-- Above a live entry there are directories, once those before it are made. -/
theorem Start.done_above (hi : source.entries[i]? = some e)
    (hlive : live (guardedPaths source destination) e = true)
    (hdirs : ∀ j ∈ p.directories, j < i → j ∈ s.dirs) (hq : q ≠ [])
    (hb : Below (root.pathOf e.path) q) (hne : q ≠ root.pathOf e.path) :
    Done root source s q ∧
      goal root source destination options contents t.view q = some Core.dir := by
  have he := List.mem_of_getElem? hi
  rcases hs.source_valid.above he hb with h | ⟨d, hd, rfl, hed, rfl | hk⟩
  · exact ⟨Or.inl ⟨hq, h⟩, if_pos ⟨hq, h⟩⟩
  · exact absurd rfl hne
  · have hm : makes (guardedPaths source destination) d = true := by
      simp [makes, live_of_below hlive hed, hk]
    obtain ⟨j, hj⟩ := List.getElem?_of_mem hd
    have hlt : j < i := hs.source_valid.index_lt hj hi
      (hed.lt fun h => hne (by rw [String.utf8_injective h]))
    exact ⟨Or.inr (Or.inl ⟨j, hdirs j ((mem_directories hs.plan).mpr ⟨d, hj, hm⟩) hlt, d, hj, rfl⟩),
      goal_makes hs hd hm⟩

/-- When its turn comes, the parent of an entry is a directory. -/
theorem Start.after_parent {w : Disk} (hw : w.Shows (hs.after s))
    (hi : source.entries[i]? = some e)
    (hlive : live (guardedPaths source destination) e = true)
    (hdirs : ∀ j ∈ p.directories, j < i → j ∈ s.dirs) :
    hs.after s (dirName (root.pathOf e.path)) = some Core.dir := by
  by_cases h0 : dirName (root.pathOf e.path) = []
  · rw [h0]
    exact hw.isDir_nil
  · have hne : root.pathOf e.path ≠ [] :=
      pathOf_ne_nil (hs.source_valid.path_ne_empty (List.mem_of_getElem? hi))
    obtain ⟨hd, hg⟩ := hs.done_above hi hlive hdirs h0
      (SepPath.Below.of_dirName_ne_nil SepPath.Below.refl h0) (SepPath.dirName_ne hne)
    rw [hs.after_done hd, hg]

end

/-! ### Type conflicts -/

/-- The objects that are removed to make place for the entry. -/
def clearedBy (destination : Manifest) (guarded : List String) (e : Entry) : List Entry :=
  if clashes destination guarded e then conflictEntries destination e.path else []

section
variable (hs : Start root source destination options p contents t) {u : View} {w : Disk}
  {J : View → Prop}
include hs

/-- What is in conflict with an entry can be removed, the deepest first. -/
theorem Start.droppable_zone (he : e ∈ source.entries)
    (hc : clashes destination (guardedPaths source destination) e = true)
    (hu : ∀ q, Below q (root.pathOf e.path) → u q = t.view q)
    (hparent : u (dirName (root.pathOf e.path)) = some Core.dir) :
    Droppable root u (conflictEntries destination e.path) := by
  have hsrc := hs.source_valid
  have hdst := hs.destination_valid
  -- All below a conflict were listed and none of them is guarded.
  have hzone : ∀ x ∈ conflictEntries destination e.path, x ∈ destination.entries ∧
      x.kind ≠ .guarded ∧ Below (root.pathOf x.path) (root.pathOf e.path) := by
    intro x hx
    obtain ⟨hxd, hxe⟩ := mem_conflictEntries.mp hx
    exact ⟨hxd, kind_of_clash_zone hs.plan he hc hxd hxe,
      (hdst.below_of_pathOf hxd hsrc he).mpr hxe⟩
  refine ⟨fun x hx => ?_, fun x hx => ?_, fun x hx => ?_, fun x hx q hq hdq huq => ?_,
    conflictEntries_sorted hs.plan⟩
  · obtain ⟨hxd, hxe⟩ := mem_conflictEntries.mp hx
    exact hs.takesDropped x hxd (dropsEntry_iff.mpr (Or.inr ⟨e, he, hc, hxe⟩))
  · obtain ⟨hxd, hk, hb⟩ := hzone x hx
    rw [hu _ hb]
    exact hs.dropped_core hxd hk
  · obtain ⟨hxd, hk, hb⟩ := hzone x hx
    by_cases hxe : root.pathOf x.path = root.pathOf e.path
    · rw [hxe]
      exact hparent
    -- The parent of an inner object is as it was, a directory.
    · have hb' : Below (dirName (root.pathOf x.path)) (root.pathOf e.path) := hb.dirName hxe
      obtain ⟨n, hn, -⟩ := hs.described hxd
      rw [hu _ hb']
      exact Tree.isDir_iff.mp (Tree.isDir_dirName (pathOf_ne_nil (hdst.path_ne_empty hxd)) hn)
  · obtain ⟨-, -, hb⟩ := hzone x hx
    have hqe : Below q (root.pathOf e.path) := by
      have hqx : Below q (dirName q) := SepPath.Below.of_dirName_ne_nil SepPath.Below.refl
        (hdq ▸ pathOf_ne_nil (hdst.path_ne_empty (hzone x hx).1))
      rw [hdq] at hqx
      exact hqx.trans hb
    rw [hu q hqe] at huq
    exact hs.zone he hc hqe huq

/-- `check_entry` passes on an object that is as it was at the start. -/
theorem Start.does_checkEntry (hx : x ∈ destination.entries) (hk : x.kind ≠ .guarded)
    (htakes : root.Takes x.path) (hw : w.Shows u)
    (hu : u (root.pathOf x.path) = t.view (root.pathOf x.path)) (hJ : J u) :
    Does J (checkEntry root x) w fun _ w' => w = w' := by
  obtain ⟨n, -, hv, hd⟩ := hs.described hx
  obtain ⟨n', hn', hcore⟩ := hw.get (hu.trans hv)
  exact RrSync.does_checkEntry htakes hw hJ hn' (hd.accepts hk hcore)

/-- Clearing a conflict succeeds and stays on the way. -/
theorem Start.does_clearConflict (he : e ∈ source.entries)
    (hu : ∀ q, Below q (root.pathOf e.path) → u q = t.view q)
    (hparent : u (dirName (root.pathOf e.path)) = some Core.dir) (hw : w.Shows u)
    (htemp : ∀ d, w.temp.map Temp.dir = some d → ¬ Below d (root.pathOf e.path))
    (hJ : ∀ ys, ys <+: clearedBy destination (guardedPaths source destination) e →
      J (dropAll root u ys)) :
    Does J (clearConflict root p e.path) w fun _ w' =>
      w'.Shows (dropAll root u (clearedBy destination (guardedPaths source destination) e)) ∧
        w'.temp = w.temp := by
  unfold clearConflict
  unfold clearedBy at hJ ⊢
  rw [conflict?_eq hs.plan he]
  by_cases hc : clashes destination (guardedPaths source destination) e = true
  · rw [if_pos hc] at hJ
    rw [if_pos hc, if_pos hc]
    have hdrop := hs.droppable_zone he hc hu hparent
    refine Prog.succeeds_forM (J := fun pre w' => w'.Shows (dropAll root u pre) ∧ w'.temp = w.temp)
      ⟨dropAll_nil.symm ▸ hw, rfl⟩ (fun pre x post w1 hxs hw1 => ?_) fun _ h => h
    have hx : x ∈ conflictEntries destination e.path := by simp [hxs]
    obtain ⟨hxd, hxe⟩ := mem_conflictEntries.mp hx
    have hb : Below (root.pathOf x.path) (root.pathOf e.path) :=
      (hs.destination_valid.below_of_pathOf hxd hs.source_valid he).mpr hxe
    -- The objects before it have other paths, so this one is as it was listed.
    have hpre : ∀ y ∈ pre, root.pathOf y.path ≠ root.pathOf x.path := by
      intro y hy heq
      have hord := hdrop.order
      rw [hxs] at hord
      have := (List.pairwise_append.mp hord).2.2 y hy x (by simp)
      rw [pathOf_injective heq] at this
      exact List.lt_irrefl _ this
    have hcheck : Does J (checkEntry root x) w1 fun _ w' => w1 = w' := by
      refine hs.does_checkEntry hxd (kind_of_clash_zone hs.plan he hc hxd hxe) (hdrop.takes x hx)
        hw1.1 ?_ (hJ pre ⟨x :: post, hxs.symm⟩)
      rw [dropAll_of_forall_ne hpre, hu _ hb]
    -- The check of the object passes, and then it is removed.
    refine hcheck.bind ?_
    rintro _ _ rfl
    refine (does_removeNext hdrop hxs hw1.1 ?_ hJ).imp fun _ w2 h2 => ⟨h2.1, h2.2.trans hw1.2⟩
    rw [hw1.2]
    exact fun h => htemp _ h hb
  · rw [if_neg hc, if_neg hc, dropAll_nil]
    exact Prog.succeeds_pure ⟨hw, rfl⟩

end

end

end RrSync

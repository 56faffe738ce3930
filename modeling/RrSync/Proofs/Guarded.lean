import RrSync.Model.Run
import RrSync.Proofs.Effects

/-!
# `RrSync.Proofs.Guarded`: protected objects

Whatever the tree is, a run of a plan leaves everything at or below a protected entry alone
and keeps the directories above the protected entries of the destination. The argument is
about the plan only: no path it makes, puts, drops or stamps is at or below a protected one
(`live`, `removes`), and no path it drops is above one of the destination's.
-/

set_option autoImplicit false

namespace RrSync

open Lib

/-! ### Paths under a root -/

section
variable {root : Root} {a b : String}

/-- Below any root, a path that is not empty is not empty. -/
theorem pathOf_ne_nil (ha : a ≠ "") : root.pathOf a ≠ [] := fun h =>
  ha (String.utf8_eq_nil.mp (SepPath.join_eq_nil.mp h).2)

/-- One path is below another one exactly when it is so below a root. -/
theorem below_pathOf (ha : a ≠ "") (hb : b ≠ "") :
    Below (root.pathOf a) (root.pathOf b) ↔ below a b = true := by
  unfold below
  rw [decide_eq_true_eq]
  exact SepPath.below_join (mt String.utf8_eq_nil.mp ha) (mt String.utf8_eq_nil.mp hb)

/-- Different paths are different below a root. -/
theorem pathOf_injective (h : root.pathOf a = root.pathOf b) : a = b :=
  String.utf8_injective (SepPath.join_injective root.base.utf8 h)

/-- Nothing above the root of the synchronization is below one of its objects. -/
theorem not_below_base (ha : a ≠ "") {q : Path} (hq : q ≠ []) (hb : Below (root.pathOf "") q) :
    ¬ Below q (root.pathOf a) := by
  intro h
  have hbase : root.pathOf "" = root.base.utf8 := SepPath.join_nil_right
  rw [hbase] at hb
  have h1 : Below root.base.utf8 (root.pathOf a) := hb.trans h
  have hne : root.base.utf8 ≠ [] := by
    intro h0
    rw [h0] at hb
    exact hq (SepPath.below_nil hb)
  have h2 : Below (root.pathOf a) root.base.utf8 := SepPath.below_join_left hne
  have h3 : root.pathOf a = root.pathOf "" := (h2.antisymm h1).trans hbase.symm
  exact ha (pathOf_injective h3)

end

/-! ### Protected zones -/

section
variable {source destination : Manifest} {options : Options} {p : Plan} {root : Root}

/-- The guarded paths are those of the guarded entries of both manifests. -/
theorem mem_guardedPaths {s : String} : s ∈ guardedPaths source destination ↔
    ∃ e, (e ∈ source.entries ∨ e ∈ destination.entries) ∧ e.kind = .guarded ∧ e.path = s := by
  simp only [guardedPaths, List.mem_map, List.mem_filter, List.mem_append, decide_eq_true_eq,
    and_assoc]

/-- The path is at or below a protected entry of one of the manifests. -/
def Guarded (root : Root) (source destination : Manifest) (q : Path) : Prop :=
  ∃ s ∈ guardedPaths source destination, Below q (root.pathOf s)

/-- The path is at or above a protected entry of the destination. -/
def Shields (root : Root) (destination : Manifest) (q : Path) : Prop :=
  ∃ e ∈ destination.entries, e.kind = .guarded ∧ Below (root.pathOf e.path) q

/-- The effects that leave protected objects alone. -/
def sparing (root : Root) (source destination : Manifest) : Effect := fun q old new =>
  (Guarded root source destination q → new = old) ∧
  (Shields root destination q → (∃ n, old = some n ∧ n.body = .directory) →
    ∃ n, new = some n ∧ n.body = .directory)

/-- Nothing at all spares what is guarded. -/
theorem sparing_refl (q : Path) (x : Option Node) : sparing root source destination q x x :=
  ⟨fun _ => rfl, fun _ h => h⟩

/-- Two effects that spare what is guarded, one after the other. -/
theorem sparing_trans (q : Path) (x y z : Option Node)
    (h : sparing root source destination q x y) (h' : sparing root source destination q y z) :
    sparing root source destination q x z :=
  ⟨fun hg => (h'.1 hg).trans (h.1 hg), fun hs hx => h'.2 hs (h.2 hs hx)⟩

/-- What is not guarded may get a new time. -/
theorem sparing_stamps {q : Path} (hq : ¬ Guarded root source destination q) :
    (sparing root source destination).Stamps q := by
  rintro _ _ ⟨n, n', rfl, rfl, hb⟩
  refine ⟨fun hg => absurd hg hq, fun _ ⟨m, hm, hd⟩ => ⟨n', rfl, ?_⟩⟩
  rw [hb, Option.some.inj hm, hd]

/-- A directory may be made where nothing is guarded. -/
theorem sparing_makes {q : Path} (hq : ¬ Guarded root source destination q) :
    (sparing root source destination).Makes q := by
  intro n _
  refine ⟨fun hg => absurd hg hq, ?_⟩
  rintro - ⟨m, hm, -⟩
  cases hm

/-- A file may be put where nothing is guarded. -/
theorem sparing_puts {q : Path} (hq : ¬ Guarded root source destination q) :
    (sparing root source destination).Puts q := by
  intro old n data hold _
  refine ⟨fun hg => absurd hg hq, ?_⟩
  rintro - ⟨m, hm, hd⟩
  exact absurd hd (hold m hm)

/-- What is neither guarded nor above something guarded may go away. -/
theorem sparing_drops {q : Path} (hq : ¬ Guarded root source destination q)
    (hs : ¬ Shields root destination q) : (sparing root source destination).Drops q :=
  fun _ => ⟨fun hg => absurd hg hq, fun h => absurd h hs⟩

/-- What is above a path that is not guarded is not guarded. -/
theorem not_guarded_of_below {q a : Path} (hq : ¬ Guarded root source destination q)
    (hb : Below q a) : ¬ Guarded root source destination a := by
  rintro ⟨s, hs, h⟩
  exact hq ⟨s, hs, hb.trans h⟩

variable (hp : plan source destination options = .ok p)
include hp

/-- The root is not guarded: no entry has the empty path. -/
theorem guarded_ne_empty {s : String} (hs : s ∈ guardedPaths source destination) : s ≠ "" := by
  obtain ⟨h1, h2, -⟩ := plan_ok.mp hp
  obtain ⟨e, he | he, -, rfl⟩ := mem_guardedPaths.mp hs
  · exact h1.path_ne_empty he
  · exact h2.path_ne_empty he

/-- The parent of a path outside the protected zones is outside of them. -/
theorem not_guarded_dirName {q : Path} (hq : ¬ Guarded root source destination q) :
    ¬ Guarded root source destination (dirName q) := by
  rintro ⟨s, hs, hb⟩
  exact hq ⟨s, hs, hb.of_dirName_ne_nil (pathOf_ne_nil (guarded_ne_empty hp hs))⟩

/-- An entry that the plan does not leave alone is not guarded. -/
theorem not_guarded_of_live {e : Entry} (he : e.path ≠ "")
    (hlive : live (guardedPaths source destination) e = true) :
    ¬ Guarded root source destination (root.pathOf e.path) := by
  rintro ⟨s, hs, hb⟩
  have h1 := (below_pathOf he (guarded_ne_empty hp hs)).mp hb
  have h2 : (guardedPaths source destination).any (fun s => below e.path s) = true :=
    List.any_eq_true.mpr ⟨s, hs, h1⟩
  rw [live, h2] at hlive
  exact absurd hlive (by simp)

/-- The root itself may be made. -/
theorem sparing_makesTo_base :
    (sparing root source destination).MakesTo (root.pathOf "") := by
  intro q hq hb
  have hnot : ¬ Guarded root source destination q := fun ⟨s, hs, h⟩ =>
    not_below_base (guarded_ne_empty hp hs) hq hb h
  exact ⟨sparing_makes hnot, sparing_stamps (not_guarded_dirName hp hnot)⟩

/-- An entry that is not left alone may be made, with what is above it. -/
theorem sparing_makesTo {e : Entry} (he : e.path ≠ "")
    (hlive : live (guardedPaths source destination) e = true) :
    (sparing root source destination).MakesTo (root.pathOf e.path) := by
  intro q _ hb
  have hnot := not_guarded_of_below (not_guarded_of_live hp he hlive) hb
  exact ⟨sparing_makes hnot, sparing_stamps (not_guarded_dirName hp hnot)⟩

/-- What a type conflict removes spares the protected objects. -/
theorem sparing_conflict {e : Entry} (he : e ∈ source.entries) {entries : List Entry}
    (hc : p.conflict? e.path = some entries) :
    (sparing root source destination).DropsAll root entries := by
  obtain ⟨hsrc, hdst, hall, -⟩ := plan_ok.mp hp
  rw [conflict?_eq hp he] at hc
  split at hc
  · next hcl =>
    obtain rfl := Option.some.inj hc
    intro x hx
    simp only [conflictEntries, List.mem_reverse, List.mem_filter] at hx
    have hlive : live (guardedPaths source destination) e = true := by
      simp only [clashes, Bool.and_eq_true] at hcl
      exact hcl.1
    have he0 := hsrc.path_ne_empty he
    have hx0 := hdst.path_ne_empty hx.1
    have hxe : Below (root.pathOf x.path) (root.pathOf e.path) := (below_pathOf hx0 he0).mpr hx.2
    -- No protected path is below `e`, so none is above or below `x`.
    have hno : ∀ s ∈ guardedPaths source destination, ¬ Below (root.pathOf s) (root.pathOf e.path) := by
      intro s hs hb
      have h1 := (hall e he hcl).2
      rw [List.any_eq_false] at h1
      exact h1 s hs ((below_pathOf (guarded_ne_empty hp hs) he0).mp hb)
    have hg : ¬ Guarded root source destination (root.pathOf x.path) := by
      rintro ⟨s, hs, hb⟩
      rcases hxe.comparable hb with h | h
      · exact not_guarded_of_live hp he0 hlive ⟨s, hs, h⟩
      · exact hno s hs h
    have hsh : ¬ Shields root destination (root.pathOf x.path) := by
      rintro ⟨d, hd, hk, hb⟩
      exact hno d.path (mem_guardedPaths.mpr ⟨d, Or.inr hd, hk, rfl⟩) (hb.trans hxe)
    exact ⟨sparing_stamps (not_guarded_dirName hp hg), sparing_drops hg hsh⟩
  · exact absurd hc (by simp)

/-- What the plan removes is neither guarded nor above something guarded. -/
theorem sparing_removals : (sparing root source destination).DropsAll root p.removals := by
  obtain ⟨-, hdst, -, -⟩ := plan_ok.mp hp
  intro x hx
  obtain ⟨-, hxd, hr⟩ := (mem_removals hp).mp hx
  have hx0 := hdst.path_ne_empty hxd
  -- a removal is unrelated to every guarded path, in both directions
  have hno : ∀ s ∈ guardedPaths source destination,
      below x.path s = false ∧ below s x.path = false := by
    intro s hs
    simp only [removes, Bool.and_eq_true, Bool.not_eq_true', List.any_eq_false,
      Bool.or_eq_true, not_or] at hr
    simpa using hr.1.2 s hs
  have hg : ¬ Guarded root source destination (root.pathOf x.path) := by
    rintro ⟨s, hs, hb⟩
    have := (below_pathOf hx0 (guarded_ne_empty hp hs)).mp hb
    rw [(hno s hs).1] at this
    cases this
  have hsh : ¬ Shields root destination (root.pathOf x.path) := by
    rintro ⟨d, hd, hk, hb⟩
    have := (below_pathOf (hdst.path_ne_empty hd) hx0).mp hb
    rw [(hno d.path (mem_guardedPaths.mpr ⟨d, Or.inr hd, hk, rfl⟩)).2] at this
    cases this
  exact ⟨sparing_stamps (not_guarded_dirName hp hg), sparing_drops hg hsh⟩

/-- The effects of a run are those of the entries that its lists come from. -/
structure Permits (E : Effect) (root : Root) (source destination : Manifest) (options : Options)
    (p : Plan) : Prop where
  base : E.MakesTo (root.pathOf "")
  directory : ∀ e ∈ source.entries, makes (guardedPaths source destination) e = true →
    E.MakesTo (root.pathOf e.path) ∧ E.Stamps (root.pathOf e.path)
  file : ∀ e ∈ source.entries,
    transfers destination options (guardedPaths source destination) e = true →
    E.Stamps (dirName (root.pathOf e.path)) ∧ E.Puts (root.pathOf e.path)
  conflict : ∀ e ∈ source.entries, ∀ entries, p.conflict? e.path = some entries →
    E.DropsAll root entries
  removal : E.DropsAll root p.removals

section
variable {E : Effect} (hE : Permits E root source destination options p)
include hE

omit hE in
/-- The directories of a plan are entries that it makes. -/
theorem makes_of_directory {i : Nat} (hi : i ∈ p.directories) {e : Entry}
    (he : source.entries[i]? = some e) : makes (guardedPaths source destination) e = true := by
  obtain ⟨e', he', hm⟩ := (mem_directories hp).mp hi
  obtain rfl := Option.some.inj (he.symm.trans he')
  exact hm

/-- `prepare` has only effects that are permitted. -/
theorem Permits.prepare : Calls (FsCall.Safe E) (prepare root source p) := by
  refine calls_prepare hE.base fun i hi e he => ?_
  have hmem := List.mem_of_getElem? he
  exact ⟨(hE.directory e hmem (makes_of_directory hp hi he)).1, hE.conflict e hmem⟩

/-- The entry that is installed may carry another hash than that of the source. -/
theorem Permits.install [Sha256] {i : Nat} (hi : i ∈ p.files) {e e' : Entry}
    (he : source.entries[i]? = some e) (hpath : e'.path = e.path) {file : Bytes} :
    Calls (FsCall.Safe E) (install root e' destination p file) := by
  obtain ⟨x, hx, ht⟩ := (mem_files hp).mp hi
  obtain rfl := Option.some.inj (he.symm.trans hx)
  have hmem := List.mem_of_getElem? he
  obtain ⟨h1, h2⟩ := hE.file e hmem ht
  rw [← hpath] at h1 h2
  refine calls_install h1 h2 fun entries hc => hE.conflict e hmem entries ?_
  rwa [← hpath]

/-- `finish` has only effects that are permitted. -/
theorem Permits.finish : Calls (FsCall.Safe E) (finish root source p) :=
  calls_finish hE.removal fun _ hi e he =>
    (hE.directory e (List.mem_of_getElem? he) (makes_of_directory hp hi he)).2

/-- A whole run has only effects that are permitted. -/
theorem calls_runPlan [Sha256] {is : List Nat} (his : ∀ i ∈ is, i ∈ p.files)
    {contents : Entry → Bytes} :
    Calls (FsCall.Safe E) (runPlan root source destination p is contents) := by
  refine Prog.issues_bind (hE.prepare hp) fun _ => Prog.issues_bind ?_ fun _ => hE.finish hp
  exact Prog.issues_forM fun i hi => calls_index fun e he => hE.install hp (his i hi) he rfl

end

/-- A plan permits itself only what spares the guarded entries. -/
theorem permits_sparing :
    Permits (sparing root source destination) root source destination options p := by
  obtain ⟨hsrc, -, -, -⟩ := plan_ok.mp hp
  refine ⟨sparing_makesTo_base hp, fun e he hm => ?_, fun e he ht => ?_,
    fun e he entries hc => sparing_conflict hp he hc, sparing_removals hp⟩
  · simp only [makes, Bool.and_eq_true] at hm
    exact ⟨sparing_makesTo hp (hsrc.path_ne_empty he) hm.1,
      sparing_stamps (not_guarded_of_live hp (hsrc.path_ne_empty he) hm.1)⟩
  · simp only [transfers, Bool.and_eq_true] at ht
    have hnot : ¬ Guarded root source destination (root.pathOf e.path) :=
      not_guarded_of_live hp (hsrc.path_ne_empty he) ht.1.1
    exact ⟨sparing_stamps (not_guarded_dirName hp hnot), sparing_puts hnot⟩

end

/-! ### Without deletion -/

/-- Every object of the first tree is still there, and of the same kind. -/
def KeepsKinds (t t' : Tree) : Prop := ∀ q n, t.get q = some n →
  ∃ n', t'.get q = some n' ∧ n'.body.type = n.body.type

/-- A tree keeps its own objects. -/
theorem KeepsKinds.refl {t : Tree} : KeepsKinds t t := fun _ n h => ⟨n, h, rfl⟩

/-- Objects that are kept twice are kept. -/
theorem KeepsKinds.trans {t t' t'' : Tree} (h : KeepsKinds t t') (h' : KeepsKinds t' t'') :
    KeepsKinds t t'' := by
  intro q n hn
  obtain ⟨n', hn', hk⟩ := h q n hn
  obtain ⟨n'', hn'', hk'⟩ := h' q n' hn'
  exact ⟨n'', hn'', hk'.trans hk⟩

/-- The effects that keep every object and its kind. -/
def kindKeeping : Effect := fun _ old new => ∀ n, old = some n →
  ∃ n', new = some n' ∧ n'.body.type = n.body.type

/-- A new time keeps the object. -/
theorem kindKeeping_stamps (q : Path) : kindKeeping.Stamps q := by
  rintro _ _ ⟨n, n', rfl, rfl, hb⟩ m hm
  exact ⟨n', rfl, by rw [hb, Option.some.inj hm]⟩

/-- Where a directory is made, nothing was. -/
theorem kindKeeping_makes (q : Path) : kindKeeping.Makes q := fun _ _ _ hn => by cases hn

/-- A call with only such effects keeps every object and its kind. -/
theorem keepsKinds_exec {c : FsCall} {w : Disk}
    (h : ∀ q, c.May q (w.tree.get q) ((exec c w).2.tree.get q) →
      kindKeeping q (w.tree.get q) ((exec c w).2.tree.get q)) :
    KeepsKinds w.tree (exec c w).2.tree := by
  intro q n hn
  rcases exec_may c w q with hq | hq
  · exact ⟨n, hq.trans hn, rfl⟩
  · exact h q hq n hn

/-- A program of such calls keeps every object and its kind at every moment. -/
theorem spec_kindKeeping {α : Type} {m : FsM α} (hm : Calls (FsCall.Within kindKeeping) m)
    {w₀ w : Disk} (hw : KeepsKinds w₀.tree w.tree) :
    Prog.Spec exec (fun w' => KeepsKinds w₀.tree w'.tree) m w
      fun _ w' => KeepsKinds w₀.tree w'.tree :=
  hm.spec (fun _ _ hc hv => hv.trans (keepsKinds_exec fun q hq => hc q _ _ hq)) hw

/-- The effects of a safe call. -/
theorem within_of_safe {α : Type} {E : Effect} {m : FsM α} (hm : Calls (FsCall.Safe E) m) :
    Calls (FsCall.Within E) m := hm.mono fun _ h => h.2

/-- Renaming over a file or over nothing keeps kinds. -/
theorem spec_commit_keepsKinds {dir name : Path} {w₀ w : Disk} (hw : KeepsKinds w₀.tree w.tree)
    (hold : ∀ n, w.tree.get (join dir name) = some n → n.body.type = .file) :
    Prog.Spec exec (fun w' => KeepsKinds w₀.tree w'.tree) (Staged.commit ⟨dir, name⟩) w
      fun _ w' => KeepsKinds w₀.tree w'.tree := by
  have h1 : KeepsKinds w.tree (exec (.rename dir name) w).2.tree := by
    refine keepsKinds_exec fun q hq => ?_
    rcases hq with ⟨rfl, h⟩ | ⟨rfl, -, m, data, hnew, hb⟩
    · exact kindKeeping_stamps _ _ _ h
    · intro n hn
      exact ⟨m, hnew, by rw [hb, hold n hn]; rfl⟩
  refine Prog.spec_bind.mpr ⟨hw.trans h1, ?_⟩
  refine spec_kindKeeping (Prog.issues_bind (calls_ok _) fun _ => ?_) (hw.trans h1)
  exact calls_sys (c := .sync dir) (fun _ _ _ h => h.elim) fun _ => calls_ok _

section
variable {source destination : Manifest} {options : Options} {p : Plan} {root : Root}
  (hp : plan source destination options = .ok p) (hdelete : options.delete = false)
include hp hdelete

/-- Without deletion no entry clashes, because the planner refuses the first that does. -/
theorem not_clashes {e : Entry} (he : e ∈ source.entries) :
    clashes destination (guardedPaths source destination) e = false := by
  cases hc : clashes destination (guardedPaths source destination) e with
  | false => rfl
  | true =>
    have := ((plan_ok.mp hp).2.2.1 e he hc).1
    rw [hdelete] at this
    cases this

/-- Without deletion a plan has no conflicts. -/
theorem conflict?_none {e : Entry} (he : e ∈ source.entries) : p.conflict? e.path = none := by
  rw [conflict?_eq hp he, not_clashes hp hdelete he]
  rfl

/-- Without deletion a plan removes nothing. -/
theorem removals_nil : p.removals = [] := by
  refine List.eq_nil_iff_forall_not_mem.mpr fun x hx => ?_
  have := ((mem_removals hp).mp hx).1
  rw [hdelete] at this
  cases this

/-- The old object at the path of a file of the plan, when the check of `install` passes. -/
theorem file_of_check {e old : Entry} (he : e ∈ source.entries)
    (hlive : live (guardedPaths source destination) e = true) (hk : e.kind = .file)
    (hold : destination.get? e.path = some old) : old.kind = .file := by
  have hc := not_clashes hp hdelete he
  simp only [clashes, hlive, hold, Option.any_some, Bool.true_and, decide_eq_false_iff_not,
    ne_eq, not_not] at hc
  rw [hc, hk]

/-- Without deletion, `install` replaces a file by a file or nothing by a file. -/
theorem spec_install_keepsKinds [Sha256] {i : Nat} (hi : i ∈ p.files) {e : Entry}
    (he : source.entries[i]? = some e) {file : Bytes} {w₀ w : Disk}
    (hw : KeepsKinds w₀.tree w.tree) :
    Prog.Spec exec (fun w' => KeepsKinds w₀.tree w'.tree)
      (install root e destination p file) w fun _ w' => KeepsKinds w₀.tree w'.tree := by
  obtain ⟨e', he', ht⟩ := (mem_files hp).mp hi
  obtain rfl := Option.some.inj (he.symm.trans he')
  simp only [transfers, Bool.and_eq_true, decide_eq_true_eq] at ht
  obtain ⟨⟨hlive, hk⟩, -⟩ := ht
  have hmem := List.mem_of_getElem? he
  obtain ⟨hstage, hstaged⟩ := calls_stageInner (E := kindKeeping) (kindKeeping_stamps _)
  refine Prog.spec_bind.mpr
    (((spec_kindKeeping (within_of_safe hstage) hw).returns hstaged).imp ?_)
  rintro (err | staged) w1 ⟨hw1, hret⟩
  · exact hw1
  obtain ⟨hc, rfl⟩ := hret staged rfl
  have hdrop : Calls (FsCall.Within kindKeeping)
      (Staged.drop ⟨dirName (root.pathOf e.path), baseName (root.pathOf e.path)⟩) :=
    within_of_safe (calls_drop hc.rooted_dirName (kindKeeping_stamps _))
  -- The renaming is reached only when the check has found a file or nothing.
  have hcommit : (∀ n, w1.tree.get (root.pathOf e.path) = some n → n.body.type = .file) →
      Prog.Spec exec (fun w' => KeepsKinds w₀.tree w'.tree) (do
          clearConflict root p e.path
          Staged.commit ⟨dirName (root.pathOf e.path), baseName (root.pathOf e.path)⟩) w1
        fun _ w' => KeepsKinds w₀.tree w'.tree := by
    intro hold
    unfold clearConflict
    rw [conflict?_none hp hdelete hmem]
    refine spec_commit_keepsKinds hw1 ?_
    rwa [hc.join_dirName]
  refine Prog.spec_ensuring.mpr (Prog.Spec.imp (Q := fun _ w' => KeepsKinds w₀.tree w'.tree) ?_ ?_)
  · cases hold : destination.get? e.path with
    | some old =>
      have hkind := file_of_check hp hdelete hmem hlive hk hold
      have hpath := (Manifest.mem_of_get? hold).2
      refine Prog.spec_bind.mpr ((quiet_of_reads calls_checkEntry).spec hw1 ?_)
      cases hr : ((checkEntry root old).run exec w1).1 with
      | error err => exact hw1
      | ok u =>
        obtain ⟨-, n, hn, hacc⟩ := checkEntry_ok.mp hr
        rw [hpath] at hn
        refine hcommit fun m hm => ?_
        obtain rfl := Option.some.inj (hn.symm.trans hm)
        simp only [Entry.accepts, hkind, Bool.and_eq_true] at hacc
        exact of_decide_eq_true hacc.1.1.1
    | none =>
      refine Prog.spec_bind.mpr ((quiet_of_reads calls_exists).spec hw1 ?_)
      cases hr : ((root.exists? e.path).run exec w1).1 with
      | error err => exact hw1
      | ok found =>
        cases found with
        | true => exact hw1
        | false =>
          refine hcommit fun m hm => ?_
          have := exists_ok hr
          rw [hm] at this
          cases this
  · intro r w2 hw2
    refine (spec_kindKeeping hdrop hw2).imp ?_
    rintro (err | u) w3 hw3 <;> exact hw3

/-- Without deletion, `prepare` only makes directories. -/
theorem calls_prepare_keeping : Calls (FsCall.Within kindKeeping) (prepare root source p) := by
  refine within_of_safe (calls_prepare ?_ fun i _ e he => ⟨?_, fun entries hc => ?_⟩)
  · exact fun q _ _ => ⟨kindKeeping_makes q, kindKeeping_stamps _⟩
  · exact fun q _ _ => ⟨kindKeeping_makes q, kindKeeping_stamps _⟩
  · rw [conflict?_none hp hdelete (List.mem_of_getElem? he)] at hc
    cases hc

/-- Without deletion, `finish` only sets times. -/
theorem calls_finish_keeping : Calls (FsCall.Within kindKeeping) (finish root source p) := by
  refine within_of_safe (calls_finish ?_ fun i _ e _ => kindKeeping_stamps _)
  rw [removals_nil hp hdelete]
  exact fun x hx => absurd hx List.not_mem_nil

/-- Without deletion, a whole run keeps every object and its kind at every moment. -/
theorem spec_runPlan_keepsKinds [Sha256] {is : List Nat} (his : ∀ i ∈ is, i ∈ p.files)
    {contents : Entry → Bytes} {w : Disk} :
    Prog.Spec exec (fun w' => KeepsKinds w.tree w'.tree)
      (runPlan root source destination p is contents) w
      fun _ w' => KeepsKinds w.tree w'.tree := by
  refine Prog.spec_bind.mpr ((spec_kindKeeping (calls_prepare_keeping hp hdelete)
    KeepsKinds.refl).imp ?_)
  rintro (err | u) w1 hw1
  · exact hw1
  refine Prog.spec_bind.mpr (Prog.Spec.imp (Q := fun _ w' => KeepsKinds w.tree w'.tree) ?_ ?_)
  · refine Prog.spec_forM_inv hw1 fun i hi w2 hw2 => ?_
    unfold index
    cases he : source.entries[i]? with
    | none => exact hw2
    | some e => exact spec_install_keepsKinds hp hdelete (his i hi) he hw2
  · rintro (err | u) w2 hw2
    · exact hw2
    · exact spec_kindKeeping (calls_finish_keeping hp hdelete) hw2

end

/-! ### The run -/

/-- The call leaves something wherever there was something. -/
def FsCall.Lasting (c : FsCall) : Prop := ∀ (w : Disk) (q : Path) (n : Node),
  w.tree.get q = some n → ∃ n', (exec c w).2.tree.get q = some n'

/-- The effects that remove nothing. -/
def lasting : Effect := fun _ old new => ∀ n, old = some n → ∃ n', new = some n'

/-- A call with lasting effects lets no object go away. -/
theorem lasting_of_within {c : FsCall} (h : c.Within lasting) : c.Lasting := by
  intro w q n hn
  rcases exec_may c w q with hq | hq
  · exact ⟨n, hq.trans hn⟩
  · exact h q _ _ hq n hn

/-- A new time lets no object go away. -/
theorem lasting_stamps (q : Path) : lasting.Stamps q := by
  rintro _ _ ⟨n, n', rfl, rfl, -⟩ m -
  exact ⟨n', rfl⟩

/-- A new directory lets no object go away. -/
theorem lasting_makes (q : Path) : lasting.Makes q := fun _ _ _ hn => by cases hn

/-- A new file lets no object go away. -/
theorem lasting_puts (q : Path) : lasting.Puts q := fun _ n _ _ _ _ _ => ⟨n, rfl⟩

section
variable [Sha256] {source destination : Manifest} {options : Options} {p : Plan} {root : Root}
  {is : List Nat} {contents : Entry → Bytes}

/-- Without deletion a run has no call that removes something. -/
theorem calls_runPlan_lasting (hp : plan source destination options = .ok p)
    (his : ∀ i ∈ is, i ∈ p.files) (hdelete : options.delete = false) :
    Calls FsCall.Lasting (runPlan root source destination p is contents) := by
  refine Prog.Issues.mono (P := FsCall.Safe lasting) ?_ fun c hc => lasting_of_within hc.2
  refine calls_runPlan hp ⟨fun q _ _ => ⟨lasting_makes q, lasting_stamps _⟩,
    fun e _ _ => ⟨fun q _ _ => ⟨lasting_makes q, lasting_stamps _⟩, lasting_stamps _⟩,
    fun e _ _ => ⟨lasting_stamps _, lasting_puts _⟩, fun e he entries hc => ?_, ?_⟩ his
  · rw [conflict?_none hp hdelete he] at hc
    cases hc
  · rw [removals_nil hp hdelete]
    exact fun x hx => absurd hx List.not_mem_nil

/-- At every moment of a run of a plan, on any tree: everything at or below a protected entry
of either manifest is as it was, and so is every directory at or above a protected entry of
the destination. Without `delete` no call of the run removes anything, and every object that
was there is still there, with its kind. -/
theorem runPlan_spares_guarded (hp : plan source destination options = .ok p)
    (his : ∀ i ∈ is, i ∈ p.files) {w w' : Disk}
    (hw : (runPlan root source destination p is contents).Moment exec w w') :
    (∀ s ∈ guardedPaths source destination, ∀ q, Below q (root.pathOf s) →
      w'.tree.get q = w.tree.get q) ∧
    (∀ e ∈ destination.entries, e.kind = .guarded → ∀ q, Below (root.pathOf e.path) q →
      w.tree.IsDir q → w'.tree.IsDir q) ∧
    (options.delete = false →
      Calls FsCall.Lasting (runPlan root source destination p is contents) ∧
      KeepsKinds w.tree w'.tree) := by
  have hframe := frame_of_issues (calls_runPlan hp (permits_sparing hp) his) sparing_refl sparing_trans
    (fun c hc q old new hm => hc.2 q old new hm) hw
  refine ⟨fun s hs q hb => (hframe q).1 ⟨s, hs, hb⟩,
    fun e he hk q hb hd => (hframe q).2 ⟨e, he, hk, hb⟩ hd, fun hdelete => ?_⟩
  exact ⟨calls_runPlan_lasting hp his hdelete,
    (spec_runPlan_keepsKinds hp hdelete his).moment KeepsKinds.refl hw⟩

end

/-- The symbolic link outlives the run, which replaces and removes files next to it. -/
theorem runPlan_spares_guarded_small : ((smallRun linkedDestination).run exec linkedDisk).2.tree.get
    "z".utf8 = linkedDisk.tree.get "z".utf8 :=
  let := emptySha
  (runPlan_spares_guarded linked_plan (fun _ h => h) (Prog.moment_run exec _ linkedDisk)).1 "z"
    (by decide +kernel) _ SepPath.Below.refl

end RrSync

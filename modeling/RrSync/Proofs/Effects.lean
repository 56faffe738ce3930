import RrSync.Proofs.Fs
import RrSync.Proofs.Plan

/-!
# `RrSync.Proofs.Effects`: what a run of a plan can change

The three parts of a run, each with the effects it needs. The hypotheses speak of the
manifests only: which paths the plan makes, puts, drops and stamps. No assumption is made
about the tree, so the results hold when the tree has nothing to do with the manifests.
-/

set_option autoImplicit false

namespace RrSync

open Lib

section
variable {E : Effect} {root : Root} {path : String}

/-- A call that may only stamp a directory is allowed where that is. -/
theorem safe_stamps {c : FsCall} {d : Path} (hc : c.Rooted) (hd : E.Stamps d)
    (h : ∀ q old new, c.May q old new → q = d ∧ Restamped old new) : c.Safe E := by
  refine ⟨hc, fun q old new hm => ?_⟩
  obtain ⟨rfl, hs⟩ := h q old new hm
  exact hd old new hs

/-- A call that may change nothing is allowed. -/
theorem safe_quiet {c : FsCall} (hc : c.Rooted) (h : ∀ q old new, ¬ c.May q old new) :
    c.Safe E := ⟨hc, fun q old new hm => absurd hm (h q old new)⟩

/-- Dropping a staged file stamps its directory. -/
theorem calls_drop {staged : Staged} (hdir : Rooted staged.dir) (hd : E.Stamps staged.dir) :
    Calls (FsCall.Safe E) staged.drop :=
  calls_sys (c := .dropTemp _) (safe_stamps hdir hd fun _ _ _ h => h) fun _ => trivial

/-- Filling a staged file changes nothing of the tree. -/
theorem calls_stageLoop {size : Nat} {seen : Bytes} {reader : List Bytes} :
    Calls (FsCall.Safe E) (stageLoop path size seen reader) := by
  induction reader generalizing seen with
  | nil => trivial
  | cons block rest ih =>
    refine calls_check_bind (calls_sys (c := .write block) ?_ fun _ => ?_)
    · exact safe_quiet trivial fun _ _ _ h => h
    · exact Prog.issues_bind (calls_ok _) fun _ => ih

/-- Neither does giving it its time. -/
theorem calls_stampTemp {mtime : Option (Int64 × UInt32)} :
    Calls (FsCall.Safe E) (stampTemp mtime) := by
  cases mtime with
  | none => trivial
  | some time =>
    refine Prog.issues_bind trivial fun t => calls_sys (c := .setTempTime t) ?_ fun _ => calls_ok _
    exact safe_quiet trivial fun _ _ _ h => h

/-- Staging changes nothing but the time of the directory. -/
theorem calls_stageInner [Sha256] {reader : List Bytes} {size : Nat} {hash : Option Hash}
    {mtime : Option (Int64 × UInt32)} (hd : E.Stamps (dirName (root.pathOf path))) :
    Calls (FsCall.Safe E) (root.stageInner path reader size hash mtime) ∧
    (root.stageInner path reader size hash mtime).Returns fun staged =>
      CleanPath (root.pathOf path) ∧
        staged = ⟨dirName (root.pathOf path), baseName (root.pathOf path)⟩ := by
  -- while the file is filled, nothing of the tree is touched
  have hfill : Calls (FsCall.Safe E) (fillTemp path reader size hash mtime) := by
    refine Prog.issues_bind calls_stageLoop fun seen => calls_check_bind (calls_check_bind ?_)
    refine Prog.issues_bind calls_stampTemp fun _ => ?_
    exact calls_sys (c := .syncTemp) (safe_quiet trivial fun _ _ _ h => h) fun _ => calls_ok _
  constructor
  · refine Prog.issues_bind_returns calls_parent.1 (calls_parent (E := E)).2 ?_
    rintro _ ⟨hc, rfl⟩
    have hdir := hc.rooted_dirName
    refine calls_sys (c := .createTemp _) (safe_stamps hdir hd fun _ _ _ h => h) fun _ =>
      Prog.issues_bind (calls_ok _) fun _ => ?_
    exact Prog.issues_bind (Prog.issues_onError hfill (calls_drop hdir hd)) fun _ => trivial
  · refine Prog.returns_bind_returns (calls_parent (E := E)).2 ?_
    rintro _ ⟨hc, rfl⟩
    exact Prog.returns_bind fun _ => Prog.returns_bind fun _ => Prog.returns_bind fun _ => ⟨hc, rfl⟩

/-- A commit puts the file into its place and stamps the directory. -/
theorem calls_commit {dir name : Path} (hc : CleanPath (join dir name)) (hdir : Rooted dir)
    (hname : NameOk name) (hd : E.Stamps dir) (hp : E.Puts (join dir name)) :
    Calls (FsCall.Safe E) (Staged.commit ⟨dir, name⟩) := by
  refine calls_sys (c := .rename dir name) ⟨⟨hdir, hname⟩, ?_⟩ fun _ =>
    Prog.issues_bind (calls_ok _) fun _ => calls_sys (safe_sync hdir) fun _ => calls_ok _
  rintro q old new (⟨rfl, h⟩ | ⟨rfl, hold, m, data, rfl, hb⟩)
  · exact hd old new h
  · exact hp old m data hold hb

/-! ### The parts of a run -/

variable {source destination : Manifest} {plan : Plan}

/-- The effects of removing the objects `entries`. -/
def Effect.DropsAll (E : Effect) (root : Root) (entries : List Entry) : Prop :=
  ∀ x ∈ entries, E.Stamps (dirName (root.pathOf x.path)) ∧ E.Drops (root.pathOf x.path)

/-- Clearing a conflict removes what the plan lists for the path. -/
theorem calls_clearConflict
    (hE : ∀ entries, plan.conflict? path = some entries → E.DropsAll root entries) :
    Calls (FsCall.Safe E) (clearConflict root plan path) := by
  unfold clearConflict
  split
  · next entries h =>
    refine Prog.issues_forM fun old hold => ?_
    obtain ⟨h1, h2⟩ := hE entries h old hold
    exact Prog.issues_bind (calls_checkEntry.mono fun _ hc => hc.safe) fun _ => calls_remove h1 h2
  · trivial

/-- The effects of making the directories that lead to `p`. -/
def Effect.MakesTo (E : Effect) (p : Path) : Prop :=
  ∀ q, q ≠ [] → Below p q → E.Makes q ∧ E.Stamps (dirName q)

/-- `prepare` makes the directories of the plan and clears the conflicts in their places. -/
theorem calls_prepare (hbase : E.MakesTo (root.pathOf ""))
    (hE : ∀ i ∈ plan.directories, ∀ e, source.entries[i]? = some e →
      E.MakesTo (root.pathOf e.path) ∧
      ∀ entries, plan.conflict? e.path = some entries → E.DropsAll root entries) :
    Calls (FsCall.Safe E) (prepare root source plan) := by
  refine Prog.issues_bind (calls_mkdir hbase) fun _ => Prog.issues_forM fun i hi =>
    calls_index fun e h => ?_
  obtain ⟨h1, h2⟩ := hE i hi e h
  exact Prog.issues_bind (calls_clearConflict h2) fun _ => calls_mkdir h1

/-- `install` puts one file into its place and clears the conflict there. -/
theorem calls_install [Sha256] {e : Entry} {file : Bytes}
    (hd : E.Stamps (dirName (root.pathOf e.path))) (hp : E.Puts (root.pathOf e.path))
    (hE : ∀ entries, plan.conflict? e.path = some entries → E.DropsAll root entries) :
    Calls (FsCall.Safe E) (install root e destination plan file) := by
  obtain ⟨h1, h2⟩ := calls_stageInner hd
  refine Prog.issues_bind_returns h1 h2 ?_
  rintro _ ⟨hc, rfl⟩
  refine Prog.issues_ensuring ?_ (calls_drop hc.rooted_dirName hd)
  have hcommit : Calls (FsCall.Safe E) (do
      clearConflict root plan e.path
      Staged.commit ⟨dirName (root.pathOf e.path), baseName (root.pathOf e.path)⟩) := by
    refine Prog.issues_bind (calls_clearConflict hE) fun _ => ?_
    have hj := hc.join_dirName
    exact calls_commit (by rwa [hj]) hc.rooted_dirName (SepPath.Clean.baseName hc) hd (by rwa [hj])
  split
  · exact Prog.issues_bind (calls_checkEntry.mono fun _ hr => hr.safe) fun _ => hcommit
  · refine Prog.issues_bind (calls_exists.mono fun _ hr => hr.safe) fun found => ?_
    exact calls_check_bind hcommit

/-- `finish` removes what the plan removes and stamps the directories. -/
theorem calls_finish
    (hdrop : E.DropsAll root plan.removals)
    (htime : ∀ i ∈ plan.directories, ∀ e, source.entries[i]? = some e →
      E.Stamps (root.pathOf e.path)) :
    Calls (FsCall.Safe E) (finish root source plan) := by
  refine Prog.issues_bind (Prog.issues_forM fun old _ =>
    calls_checkEntry.mono fun _ hc => hc.safe) fun _ => ?_
  refine Prog.issues_bind (Prog.issues_forM fun old hold => ?_) fun _ => ?_
  · exact calls_remove (hdrop old hold).1 (hdrop old hold).2
  · refine Prog.issues_forM fun i hi => calls_index fun e h => ?_
    exact calls_setMtime (htime i (by simpa using hi) e h)

end

end RrSync

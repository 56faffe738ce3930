import RrSync.Lib.Strict
import RrSync.Proofs.Replay

/-!
# `RrSync.Proofs.Faultless`: a run that succeeds has met no fault

Where the environment lets a call fail, the reply is the errno `EIO`, and no step of a plan goes on
after it. So a run of a plan that succeeds on a disk on which calls can fail is a run on the same
disk without faults (`runPlan_calm`). What is proved about disks without faults then holds of every
run that succeeds.
-/

set_option autoImplicit false

namespace RrSync

open Lib

/-- The disk without its journal and its faults. -/
def Disk.calm (w : Disk) : Disk := w.over fun _ _ => false

/-- The marks are no part of what can fail. -/
theorem Disk.calm_plain {w : Disk} : w.plain.calm = w.calm := rfl

/-- The reply is that of a call that the environment lets fail. -/
def FsCall.Faulty : (c : FsCall) → c.Reply → Prop
  | .mkdir _ _, r => r = .error .io
  | .unlink _ _, r => r = .error .io
  | .rmdir _ _, r => r = .error .io
  | .sync _, r => r = .error .io
  | .createTemp _, r => r = .error .io
  | .write _, r => r = .error .io
  | .setTempTime _, r => r = .error .io
  | .syncTemp, r => r = .error .io
  | .rename _ _, r => r = .error .io
  | .utimens _ _, r => r = .error .io
  | .openLock _, r => r = .error .io
  | .flock _ _, r => r = .error .io
  | _, _ => False

/-- A call that has not failed by a fault does the same without faults. -/
theorem exec_calm {c : FsCall} (hc : c.Unmarked) (w : Disk) (h : ¬ c.Faulty (exec c w).1) :
    exec c w.calm = ((exec c w).1, (exec c w).2.calm) := by
  by_cases hw : w.env.fault w.tick = true
  · have hattempt {α : Type} {f : Disk → Except Errno (α × Disk)} :
        (w.attempt f).1 = .error .io := by
      unfold Disk.attempt
      rw [if_pos hw]
    cases c with
    | mark m => cases hc
    | stat | openDir | openFile | readDir | seconds => rfl
    | dropTemp d =>
      obtain ⟨tree, temp, tick, env, journal⟩ := w
      cases temp <;> rfl
    | _ => exact absurd hattempt h
  · exact exec_over hc w (by simp [hw])

/-! ### The steps of a plan are strict -/

/-- A program that gives up when a call fails by a fault. -/
abbrev GivesUp {α : Type} (m : FsM α) : Prop := Prog.Strict (S := FsSig) FsCall.Faulty m

section
variable {α β : Type}

/-- A program that only reads meets no failing call. -/
theorem givesUp_reads {m : FsM α} (hm : Calls FsCall.Reads m) : GivesUp m := by
  refine Prog.strict_of_issues (hm.mono fun c hc r hr => ?_)
  cases c <;> first | exact hr | exact hc

/-- What follows a computed value. -/
theorem givesUp_lift {x : Except Error β} {f : β → FsM α} (hf : ∀ b, GivesUp (f b)) :
    GivesUp (liftM x >>= f) := Prog.strict_bind (Prog.strict_lift x) hf

/-- A system call whose failure ends the program. -/
theorem givesUp_sys {c : FsCall} {f : c.Reply → FsM α}
    (hfaulty : ∀ r, c.Faulty r → (f r).Returns fun _ => False) (hf : ∀ r, GivesUp (f r)) :
    GivesUp (sys c >>= f) := fun r => ⟨hfaulty r, hf r⟩

/-- The use of a reply. -/
theorem givesUp_ok (r : Except Errno α) : GivesUp (ok r) := by
  cases r <;> trivial

/-- A failed reply ends the program. -/
theorem fails_ok {r : Except Errno α} (h : r = .error .io) :
    (ok r : FsM α).Returns fun _ => False := by
  rw [h]
  trivial

/-- Whatever follows. -/
theorem fails_ok_bind {r : Except Errno β} {f : β → FsM α} (h : r = .error .io) :
    (ok r >>= f : FsM α).Returns fun _ => False := by
  rw [h]
  trivial

end

section
variable {root : Root} {path : String}

/-- The loop of `mkdir` gives up when a call fails. -/
theorem givesUp_mkdirFrom {parent : Path} {names : List Path} :
    GivesUp (Root.mkdirFrom parent names) := by
  induction names generalizing parent with
  | nil => trivial
  | cons name names ih =>
    have hrest : GivesUp (do
        ok (← sys (.openDir (join parent name)))
        Root.mkdirFrom (join parent name) names) :=
      givesUp_sys (fun _ h => h.elim) fun _ => Prog.strict_bind (givesUp_ok _) fun _ => ih
    refine givesUp_sys (fun _ h => h.elim) fun _ => Prog.strict_bind (givesUp_ok _) fun _ =>
      givesUp_sys ?_ fun r => ?_
    · intro r hr
      rw [show r = .error .io from hr]
      trivial
    -- A directory that exists is no fault.
    split
    · exact givesUp_sys (fun _ hr => fails_ok_bind hr) fun _ =>
        Prog.strict_bind (givesUp_ok _) fun _ => hrest
    · exact hrest
    · trivial

/-- So does `mkdir`. -/
theorem givesUp_mkdir : GivesUp (root.mkdir path) := givesUp_lift fun _ => givesUp_mkdirFrom

/-- So does `set_mtime`. -/
theorem givesUp_setMtime {sec : Int64} {ns : UInt32} : GivesUp (root.setMtime path sec ns) :=
  givesUp_lift fun _ => givesUp_sys (fun _ h => h.elim) fun _ =>
    Prog.strict_bind (givesUp_ok _) fun _ => givesUp_lift fun _ =>
      givesUp_sys (fun _ hr => fails_ok hr) fun _ => givesUp_ok _

/-- So does `parent`. -/
theorem givesUp_parent : GivesUp (root.parent path) :=
  givesUp_lift fun _ => givesUp_lift fun _ => givesUp_sys (fun _ h => h.elim) fun _ =>
    Prog.strict_bind (givesUp_ok _) fun _ => trivial

/-- So does `remove`. -/
theorem givesUp_remove {directory : Bool} : GivesUp (root.remove path directory) := by
  refine Prog.strict_bind givesUp_parent fun d => ?_
  have hsync : GivesUp (do ok (← sys (.sync d.1))) :=
    givesUp_sys (fun _ hr => fails_ok hr) fun _ => givesUp_ok _
  refine Prog.strict_bind ?_ fun _ => hsync
  unfold Root.unlinkat
  split <;> exact givesUp_sys (fun _ hr => fails_ok hr) fun _ => givesUp_ok _

variable {source destination : Manifest} {plan : Plan}

/-- So does clearing a conflict. -/
theorem givesUp_clearConflict : GivesUp (clearConflict root plan path) := by
  unfold clearConflict
  split
  · exact Prog.strict_forM fun _ _ =>
      Prog.strict_bind (givesUp_reads calls_checkEntry) fun _ => givesUp_remove
  · trivial

/-- So does `prepare`. -/
theorem givesUp_prepare : GivesUp (prepare root source plan) :=
  Prog.strict_bind givesUp_mkdir fun _ => Prog.strict_forM fun _ _ => givesUp_lift fun _ =>
    Prog.strict_bind givesUp_clearConflict fun _ => givesUp_mkdir

/-- So does `finish`. -/
theorem givesUp_finish : GivesUp (finish root source plan) :=
  Prog.strict_bind (Prog.strict_forM fun _ _ => givesUp_reads calls_checkEntry) fun _ =>
    Prog.strict_bind (Prog.strict_forM fun _ _ => givesUp_remove) fun _ =>
      Prog.strict_forM fun _ _ => givesUp_lift fun _ => givesUp_setMtime

/-- So does the loop that fills a staged file. -/
theorem givesUp_stageLoop {size : Nat} {seen : Bytes} {reader : List Bytes} :
    GivesUp (stageLoop path size seen reader) := by
  induction reader generalizing seen with
  | nil => trivial
  | cons block rest ih =>
    exact Prog.strict_check (givesUp_sys (fun _ hr => fails_ok_bind hr) fun _ =>
      Prog.strict_bind (givesUp_ok _) fun _ => ih)

/-- The staged file is dropped without a call that can fail. -/
theorem safe_drop {staged : Staged} : Calls (Prog.Safe (S := FsSig) FsCall.Faulty) staged.drop :=
  calls_sys (fun _ h => h) fun _ => trivial

/-- So does `stage_inner`: the clean-up does not make up for the error. -/
theorem givesUp_stageInner [Sha256] {reader : List Bytes} {size : Nat} {hash : Option Hash}
    {mtime : Option (Int64 × UInt32)} : GivesUp (root.stageInner path reader size hash mtime) := by
  have hstamp : GivesUp (stampTemp mtime) := by
    cases mtime with
    | none => trivial
    | some t => exact givesUp_lift fun _ => givesUp_sys (fun _ hr => fails_ok hr) fun _ => givesUp_ok _
  have hfill : GivesUp (fillTemp path reader size hash mtime) :=
    Prog.strict_bind givesUp_stageLoop fun _ => Prog.strict_check <| Prog.strict_check <|
      Prog.strict_bind hstamp fun _ => givesUp_sys (fun _ hr => fails_ok hr) fun _ => givesUp_ok _
  refine Prog.strict_bind givesUp_parent fun d => ?_
  exact givesUp_sys (fun _ hr => fails_ok_bind hr) fun _ => Prog.strict_bind (givesUp_ok _) fun _ =>
    Prog.strict_bind (Prog.strict_onError hfill safe_drop) fun _ => trivial

/-- So does `install`. -/
theorem givesUp_install [Sha256] {e : Entry} {file : Bytes} :
    GivesUp (install root e destination plan file) := by
  refine Prog.strict_bind givesUp_stageInner fun staged => Prog.strict_ensuring ?_ safe_drop
  have hcommit : GivesUp staged.commit :=
    givesUp_sys (fun _ hr => fails_ok_bind hr) fun _ => Prog.strict_bind (givesUp_ok _) fun _ =>
      givesUp_sys (fun _ hr => fails_ok hr) fun _ => givesUp_ok _
  have hrest : GivesUp (do clearConflict root plan e.path; staged.commit) :=
    Prog.strict_bind givesUp_clearConflict fun _ => hcommit
  split
  · exact Prog.strict_bind (givesUp_reads calls_checkEntry) fun _ => hrest
  · exact Prog.strict_bind (givesUp_reads calls_exists) fun _ => Prog.strict_check hrest

/-- So does a whole run: when it returns, no call has failed. -/
theorem givesUp_runPlan [Sha256] {is : List Nat} {contents : Entry → Bytes} :
    GivesUp (runPlan root source destination plan is contents) :=
  Prog.strict_bind givesUp_prepare fun _ => Prog.strict_bind (Prog.strict_forM fun _ _ =>
    givesUp_lift fun _ => givesUp_install) fun _ => givesUp_finish

/-- A run leaves no mark of its own. -/
theorem unmarked_runPlan [Sha256] {is : List Nat} {contents : Entry → Bytes} :
    Calls FsCall.Unmarked (runPlan root source destination plan is contents) :=
  Prog.issues_bind unmarked_prepare fun _ => Prog.issues_bind (Prog.issues_forM fun _ _ =>
    calls_lift fun _ _ => unmarked_install) fun _ => unmarked_finish

/-- A run of a plan that succeeds is one without faults. -/
theorem runPlan_calm [Sha256] {is : List Nat} {contents : Entry → Bytes} {w w' : Disk}
    (h : (runPlan root source destination plan is contents).run exec w = (.ok (), w')) :
    (runPlan root source destination plan is contents).run exec w.calm = (.ok (), w'.calm) :=
  givesUp_runPlan.run unmarked_runPlan (fun _ w hc => exec_calm hc w) h

end

end RrSync

import RrSync.Proofs.Apart
import RrSync.Proofs.RefinementV2

/-!
# `RrSync.Proofs.Tidy`: no staged file is left behind

A file is staged within an installation and is gone when the installation ends, whatever its
result. So when a call of the adapter is over there is no staged file in the export
(`step_tidy`), for both servers.
-/

set_option autoImplicit false

namespace RrSync

open Lib

/-! ### The steps of a plan -/

/-- A call that stages nothing. -/
def FsCall.Unstaged (c : FsCall) : Prop := ∀ d, c ≠ .createTemp d

/-- A call that reads stages nothing. -/
theorem FsCall.Reads.unstaged {c : FsCall} (h : c.Reads) : c.Unstaged := by
  intro d hc
  subst hc
  exact h

/-- Neither does one that removes. -/
theorem FsCall.Clears.unstaged {c : FsCall} (h : c.Clears) : c.Unstaged := by
  intro d hc
  subst hc
  exact h

/-- Such a call leaves nothing staged where nothing was. -/
theorem exec_unstaged {c : FsCall} (hc : c.Unstaged) {w : Disk} (hw : w.temp = none) :
    (exec c w).2.temp = none := by
  -- A call that fails changes only the count of the calls.
  have key {α : Type} {f : Disk → Except Errno (α × Disk)}
      (hf : ∀ a w', f { w with tick := w.tick + 1 } = .ok (a, w') → w'.temp = none) :
      (w.attempt f).2.temp = none := by
    unfold Disk.attempt
    dsimp only
    split
    · exact hw
    · split
      · next a w' h => exact hf a w' h
      · exact hw
  cases c with
  | createTemp d => exact absurd rfl (hc d)
  | stat | openDir | openFile | readDir | seconds | mark => exact hw
  | sync | syncTemp | flock =>
    refine key fun a w' h => ?_
    cases h
    exact hw
  | write data =>
    refine key fun a w' h => ?_
    -- Without a staged file there is nothing to write to.
    obtain ⟨temp, ht, -⟩ := Disk.write_ok.mp h
    cases hw.symm.trans ht
  | setTempTime time =>
    refine key fun a w' h => ?_
    obtain ⟨temp, ht, -⟩ := Disk.setTempTime_ok.mp h
    cases hw.symm.trans ht
  | mkdir d n =>
    refine key fun a w' h => ?_
    obtain ⟨-, -, -, rfl⟩ := Disk.mkdir_ok.mp h
    exact hw
  | unlink d n =>
    refine key fun a w' h => ?_
    obtain ⟨-, -, -, rfl⟩ := Disk.unlink_ok.mp h
    exact hw
  | rmdir d n =>
    refine key fun a w' h => ?_
    obtain ⟨-, -, -, -, rfl⟩ := Disk.rmdir_ok.mp h
    exact hw
  | rename d n =>
    refine key fun a w' h => ?_
    obtain ⟨temp, -, -, -, -, -, rfl⟩ := Disk.rename_ok.mp h
    rfl
  | dropTemp d => exact dropTemp_temp
  | utimens p time =>
    refine key fun a w' h => ?_
    obtain ⟨-, -, -, rfl⟩ := Disk.utimens_ok.mp h
    exact hw
  | openLock p =>
    refine key fun a w' h => ?_
    rcases Disk.openLock_ok.mp h with ⟨n, -, -, -, rfl⟩ | ⟨-, -, hf, rfl⟩ <;> exact hw

/-- So does a program of such calls. -/
theorem tidy_of_calls {α : Type} {m : FsM α} (hm : Calls FsCall.Unstaged m) : Tidy m :=
  fun _ hw => (Prog.Issues.spec (I := fun v : Disk => v.temp = none) hm
    (fun _ _ hc hv => exec_unstaged hc hv) hw).run

/-- In particular a program that only reads. -/
theorem tidy_of_reads {α : Type} {m : FsM α} (hm : Calls FsCall.Reads m) : Tidy m :=
  tidy_of_calls (hm.mono fun _ hc => hc.unstaged)

/-- `pure` stages nothing. -/
theorem tidy_pure {α : Type} (a : α) : Tidy (pure a : FsM α) := fun _ hw => hw

/-- A check before a program that leaves nothing staged. -/
theorem tidy_check {α β : Type} {c : Prop} [Decidable c] {e : Error} {k : β → FsM α} {m : FsM α}
    (hm : Tidy m) : Tidy (if c then throw e >>= k else m) := by
  split
  · exact fun _ hw => hw
  · exact hm

section
variable {root : Root} {path : String} {source destination : Manifest} {plan : Plan}

/-- `mkdir` stages nothing. -/
theorem unstaged_mkdir : Calls FsCall.Unstaged (root.mkdir path) := by
  have hloop {parent : Path} {names : List Path} :
      Calls FsCall.Unstaged (Root.mkdirFrom parent names) := by
    induction names generalizing parent with
    | nil => trivial
    | cons name names ih =>
      have hrest : Calls FsCall.Unstaged (do
          ok (← sys (.openDir (join parent name)))
          Root.mkdirFrom (join parent name) names) :=
        calls_sys (fun _ h => by cases h) fun _ => Prog.issues_bind (calls_ok _) fun _ => ih
      refine calls_sys (fun _ h => by cases h) fun _ => Prog.issues_bind (calls_ok _) fun _ =>
        calls_sys (fun _ h => by cases h) fun r => ?_
      split
      · exact calls_sys (fun _ h => by cases h) fun _ => Prog.issues_bind (calls_ok _) fun _ => hrest
      · exact hrest
      · trivial
  exact calls_lift fun _ _ => hloop

/-- `prepare` stages nothing. -/
theorem unstaged_prepare : Calls FsCall.Unstaged (prepare root source plan) :=
  Prog.issues_bind unstaged_mkdir fun _ => Prog.issues_forM fun _ _ => calls_lift fun _ _ =>
    Prog.issues_bind (clears_clearConflict.mono fun _ h => h.unstaged) fun _ => unstaged_mkdir

/-- `finish` stages nothing. -/
theorem unstaged_finish : Calls FsCall.Unstaged (finish root source plan) := by
  refine Prog.issues_bind (Prog.issues_forM fun _ _ =>
    calls_checkEntry.mono fun _ h => h.unstaged) fun _ => ?_
  refine Prog.issues_bind (Prog.issues_forM fun _ _ =>
    clears_remove.mono fun _ h => h.unstaged) fun _ => Prog.issues_forM fun _ _ => ?_
  refine calls_lift fun _ _ => calls_lift fun _ _ => ?_
  exact calls_sys (fun _ h => by cases h) fun _ => Prog.issues_bind (calls_ok _) fun _ =>
    calls_lift fun _ _ => calls_sys (fun _ h => by cases h) fun _ => calls_ok _

/-- The installation drops its staged file, however it ends. -/
theorem tidy_install [Sha256] {e : Entry} {file : Bytes} :
    Tidy (install root e destination plan file) := by
  intro w hw
  have hstage : ∀ err, ((root.stage e.path (reads file) e.size e.hash e.mtime e.ns).run exec w).1
      = .error err → ((root.stage e.path (reads file) e.size e.hash e.mtime e.ns).run exec w).2.temp
      = none :=
    (@stageFrom_error root _ e.path ⟨reads file, none⟩ e.size e.hash (some (e.mtime, e.ns)) w hw).run
  unfold install
  rw [Prog.run_bind]
  rcases hr : (root.stage e.path (reads file) e.size e.hash e.mtime e.ns).run exec w with ⟨err | staged, v⟩
  · rw [hr] at hstage
    exact hstage err rfl
  · exact scope_temp v

end

/-! ### The requests of the first server -/

namespace Session

variable {s : Session}

/-- A mark stages nothing. -/
theorem tidy_mark {m : FsM Unit} {x : Mark} (hm : Tidy m) : Tidy (mark x >>= fun _ => m) :=
  tidy_bind (fun _ hw => hw) fun _ => hm

/-- Making the directories of a plan stages nothing. -/
theorem tidy_ready : Tidy s.ready := by
  unfold ready
  split
  · exact tidy_pure _
  · exact tidy_bind (fun _ hw => hw) fun _ =>
      tidy_bind (tidy_of_calls unstaged_prepare) fun _ => tidy_pure _

/-- No request of the owner leaves anything staged: what COMMIT stages it commits or drops. -/
theorem tidy_serve [Sha256] {request : Message} : Tidy (s.serve request) := by
  cases request with
  | begin i =>
    refine tidy_bind (Store.tidy_lift fun _ _ => tidy_check ?_) fun _ => tidy_pure _
    exact tidy_bind tidy_ready fun _ => tidy_pure _
  | commit i resource =>
    refine tidy_bind (Store.tidy_lift fun _ _ => tidy_check ?_) fun _ => tidy_pure _
    split
    · exact fun _ hw => hw
    -- The install takes care of its own staged file.
    · refine Store.tidy_lift fun _ _ => tidy_check ?_
      exact tidy_bind (fun _ hw => hw) fun _ => tidy_bind tidy_install fun _ => tidy_pure _
  | get i =>
    refine tidy_bind (Store.tidy_lift fun _ _ => tidy_check ?_) fun _ => tidy_pure _
    refine Store.tidy_lift fun _ _ => Store.tidy_lift fun _ _ => ?_
    exact tidy_bind (tidy_of_reads calls_snapshot) fun _ => tidy_pure _
  | verified i =>
    refine tidy_bind (Store.tidy_lift fun _ _ => tidy_check ?_) fun _ => tidy_pure _
    refine Store.tidy_lift fun _ _ => Store.tidy_lift fun _ _ => ?_
    exact tidy_bind (tidy_of_reads calls_ensureUnchanged) fun _ => tidy_pure _
  | finish =>
    refine tidy_bind ?_ fun _ => tidy_pure _
    unfold Session.finish
    split
    · refine tidy_check ?_
      split
      · exact tidy_bind tidy_ready fun _ => tidy_mark (tidy_of_calls unstaged_finish)
      · exact tidy_of_reads (calls_checkSource fun _ hc => hc)
    · exact tidy_pure _
  | _ => exact fun _ hw => hw

end Session

section
variable [Sha256] {server : Server} {now : Instant} {connection : ConnectionId}
  {permission : Permission} {request : Message}

/-- No request at all does. -/
theorem Server.tidy_handleInner :
    Tidy (server.handleInner now connection permission request) := by
  refine tidy_check ?_
  have hrest : Tidy (server.inSession now connection request) := by
    unfold inSession
    split
    · exact fun _ hw => hw
    · exact tidy_check (tidy_bind Session.tidy_serve fun _ => tidy_pure _)
  cases request with
  | start push options path manifest => exact tidy_of_reads (calls_start fun _ hc => hc)
  | _ => exact hrest

/-- After a call of the adapter there is no staged file in the export. -/
theorem step_tidy {st : Server × Disk} (h : st.2.temp = none) (i : Input) :
    (step st i).2.2.temp = none := by
  cases i with
  | handle now connection permission request =>
    have htidy := @Server.tidy_handleInner _ st.1 now connection permission request st.2 h
    rw [step_handle, Server.handle_run]
    rcases hrun : (st.1.handleInner now connection permission request).run exec st.2 with
      ⟨_ | ⟨reply, server'⟩, w'⟩
    all_goals
      rw [hrun] at htidy
      exact htidy
  | receive connection file =>
    rw [step_receive]
    cases st.1.receive connection file <;> exact h
  | _ => exact h

end

/-! ### The requests of the second server -/

namespace V2

/-- The program leaves no staged file behind in the export. -/
def TidyTree {α : Type} (m : VolM α) : Prop :=
  ∀ w : Disks, (w .tree).temp = none → ((m.run execVol w).2 .tree).temp = none

section
variable {α β : Type}

/-- Two programs in sequence. -/
theorem tidyTree_bind {m : VolM α} {f : α → VolM β} (hm : TidyTree m) (hf : ∀ a, TidyTree (f a)) :
    TidyTree (m >>= f) := by
  intro w hw
  rw [Prog.run_bind]
  have h := hm w hw
  rcases hr : m.run execVol w with ⟨e | a, v⟩
  · rw [hr] at h
    exact h
  · rw [hr] at h
    exact hf a v h

/-- What follows a computed value. -/
theorem tidyTree_lift {x : Except Error α} {f : α → VolM β} (hf : ∀ a, TidyTree (f a)) :
    TidyTree (liftM x >>= f) := tidyTree_bind (fun _ hw => hw) hf

/-- A check before a program. -/
theorem tidyTree_check {c : Prop} [Decidable c] {e : Error} {k : β → VolM α} {m : VolM α}
    (hm : TidyTree m) : TidyTree (if c then throw e >>= k else m) := by
  split
  · exact fun _ hw => hw
  · exact hm

/-- On the tree this is the same as for one disk. -/
theorem tidyTree_onTree {m : FsM α} (hm : Tidy m) : TidyTree (onTree m) := by
  intro w hw
  have h := @onTree_run _ w ((onTree m).run execVol w).2 m _ rfl
  have htidy := hm (w .tree) hw
  rw [h] at htidy
  exact htidy

/-- A program that leaves the tree leaves nothing staged on it. -/
theorem tidyTree_of_still {m : VolM α} (hm : ∀ w, ((m.run execVol w).2) .tree = w .tree) :
    TidyTree m := by
  intro w hw
  rw [hm w]
  exact hw

/-- In particular work on the cache. -/
theorem tidyTree_onCache {m : FsM α} : TidyTree (onCache m) :=
  tidyTree_of_still fun w => @onCache_run _ w ((onCache m).run execVol w).2 m _ rfl

end

section
variable [Sha256] {s : Session} {state : Option Transfer} {cache : Cache} {peer : Id} {path : String}
  {request : Message}

/-- No request of the owner leaves anything staged on the tree. -/
theorem tidyTree_serve : TidyTree (serve s state cache peer path request) := by
  by_cases hcommit : ∃ index, request = .fileCommit index
  · obtain ⟨index, rfl⟩ := hcommit
    refine tidyTree_lift fun t => ?_
    split
    · exact fun _ hw => hw
    refine tidyTree_lift fun _ => tidyTree_check <| tidyTree_bind tidyTree_onCache fun file => ?_
    refine tidyTree_bind (tidyTree_onTree Session.tidy_ready) fun s => tidyTree_lift fun e => ?_
    refine tidyTree_bind (tidyTree_onTree (Session.tidy_mark tidy_install)) fun _ => ?_
    exact tidyTree_bind tidyTree_onCache fun _ _ hw => hw
  · exact tidyTree_of_still fun w => serve_still (fun index h => hcommit ⟨index, h⟩) rfl

namespace Server

variable {server : Server} {now : Instant} {connection : ConnectionId} {permission : Permission}

/-- No request at all does. -/
theorem tidyTree_handleInner :
    TidyTree (server.handleInner now connection peer permission request) := by
  refine tidyTree_check ?_
  -- A session serves, on the tree and on the cache.
  have hrest : TidyTree (server.inSession now connection peer permission request) := by
    unfold inSession
    split
    · exact fun _ hw => hw
    refine tidyTree_check <| tidyTree_check ?_
    split
    · refine tidyTree_check <| tidyTree_bind ?_ fun _ _ hw => hw
      exact tidyTree_onTree RrSync.Server.tidy_handleInner
    · exact tidyTree_bind tidyTree_serve fun _ _ hw => hw
  cases request with
  | common m =>
    cases m with
    | start push options path manifest =>
      refine tidyTree_bind (tidyTree_onTree RrSync.Server.tidy_handleInner) fun r => ?_
      obtain ⟨reply, base⟩ := r
      cases reply <;> exact fun _ hw => hw
    | _ => exact hrest
  | _ => exact hrest

end Server

/-- After a call of the adapter there is no staged file in the export. -/
theorem step_tidy {st : Server × Disks} (h : (st.2 .tree).temp = none) (i : Input) :
    ((step st i).2.2 .tree).temp = none := by
  -- Only requests touch the export at all.
  have hlooks {α : Type} {m : Prog (FsSig.vol Volume) Empty α} (hm : VolCalls Looks m) :
      ((m.runOk execVol st.2).2 .tree).temp = none := by
    rw [still_of_looks hm]
    exact h
  cases i with
  | handle now connection peer permission request =>
    have htidy := @Server.tidyTree_handleInner _ peer request st.1 now connection permission st.2 h
    show (((st.1.handle now connection peer permission request).runOk execVol st.2).2 .tree).temp = _
    rw [Server.handle_run]
    rcases hrun : (st.1.handleInner now connection peer permission request).run execVol st.2 with
      ⟨_ | ⟨reply, server'⟩, w'⟩
    · rw [hrun] at htidy
      dsimp only
      rw [still_of_looks (Server.calls_disconnect fun _ _ h => by cases h)]
      exact htidy
    · rw [hrun] at htidy
      exact htidy
  | receive connection file =>
    rw [step_receive]
    cases st.1.receive connection file <;> exact h
  | disconnect connection => exact hlooks (Server.calls_disconnect fun _ _ h => by cases h)
  | touch connection now => exact h
  | expire now timeout => exact hlooks (Server.calls_expire fun _ _ h => by cases h)

end

end V2

end RrSync

import RrSync.Model.EngineV2
import RrSync.Proofs.Effects

/-!
# `RrSync.Proofs.CacheCalls`: the calls of the chunk store

`missing` and `assemble` only look. Touching a store replaces the activity record of its
transfer and stamps the directory, and nothing else. Every path that any function of the store
hands to the kernel is made of names below the cache directory.
-/

set_option autoImplicit false

namespace RrSync

open Lib

/-- All effects. -/
def Effect.any : Effect := fun _ _ _ => True

/-- Calls that are safe are about paths that a root can name. -/
theorem FsCall.rooted_of_safe {α : Type} {E : Effect} {m : FsM α} (hm : Calls (FsCall.Safe E) m) :
    Calls FsCall.Rooted m := hm.mono fun _ h => h.1

/-- So are calls that read. -/
theorem rooted_of_reads {α : Type} {m : FsM α} (hm : Calls FsCall.Reads m) :
    Calls FsCall.Rooted m := hm.mono fun _ h => h.rooted

section
variable {E : Effect} {root parent : Root} {path key : String}

/-! ### Operations of `Root` -/

/-- `lock_state` stays below its root. -/
theorem calls_lockState {shared : Bool} : Calls FsCall.Rooted (root.lockState path shared) :=
  calls_full fun _ h => calls_sys (c := .openLock _) (Root.full_rooted h) fun _ =>
    Prog.issues_bind (calls_ok _) fun _ => calls_check_bind (calls_sys (c := .flock _ _)
      (Root.full_rooted h) fun _ => calls_ok _)

/-- `mkdir` stays below its root. -/
theorem rooted_mkdir : Calls FsCall.Rooted (root.mkdir path) :=
  FsCall.rooted_of_safe (E := .any) (calls_mkdir fun _ _ _ => ⟨fun _ _ => trivial, fun _ _ _ => trivial⟩)

/-- `remove` stays below its root. -/
theorem rooted_remove {directory : Bool} : Calls FsCall.Rooted (root.remove path directory) :=
  FsCall.rooted_of_safe (E := .any) (calls_remove (fun _ _ _ => trivial) fun _ => trivial)

/-- The names that `remove_files` has checked are names of directory entries. -/
theorem returns_checkName {name : String} : Prog.Returns (fun _ => NameOk name.utf8) (do
    validate name
    if slash ∈ name.utf8 then throw (.invalidPath name) : FsM PUnit) := by
  cases hv : validate name with
  | error e => trivial
  | ok u =>
    show Prog.Returns _ (if slash ∈ name.utf8 then throw _ else pure ())
    split
    · trivial
    · next hs => exact (SepPath.clean_of_notMem hs).mp (cleanPath_of_validate hv)

/-- `unlink_batch` stays in its directory. -/
theorem rooted_unlinkBatch {dir : Path} {names : List String} (hd : Rooted dir)
    (hnames : ∀ name ∈ names, NameOk name.utf8) :
    Calls FsCall.Rooted (Root.unlinkBatch dir names) := by
  refine Prog.issues_bind (Prog.issues_attempt (Prog.issues_forM fun name hn =>
    calls_sys (c := .unlink _ _) ⟨hd, hnames name hn⟩ fun _ => calls_ok _)) fun r => ?_
  refine Prog.issues_bind (Prog.issues_attempt (calls_sys (c := .sync _) hd fun _ => calls_ok _))
    fun r' => ?_
  cases r with
  | ok _ => cases r' <;> trivial
  | error _ => trivial

/-- `remove_files` stays below its root. -/
theorem rooted_removeFiles {names : List String} :
    Calls FsCall.Rooted (root.removeFiles path names) := by
  refine Prog.issues_bind_returns (Prog.issues_forM fun name _ => ?_)
    (Prog.returns_forM fun name _ => returns_checkName) fun _ hnames => ?_
  · exact calls_validate fun _ => calls_check trivial
  · refine calls_full fun s h => calls_sys (c := .openDir _) (Root.full_rooted h) fun _ =>
      Prog.issues_bind (calls_ok _) fun _ => ?_
    exact rooted_unlinkBatch (Root.full_rooted h) hnames

/-! ### What a transfer directory holds -/

/-- `payload_bytes` only reads. -/
theorem calls_payloadBytes : Calls FsCall.Reads (payloadBytes root) := by
  refine Prog.issues_bind calls_children fun _ => Prog.issues_foldlM fun child _ bytes => ?_
  refine calls_ite trivial (calls_ite trivial (calls_check_bind (calls_lift fun _ _ => ?_)))
  refine Prog.issues_bind calls_children fun _ => Prog.issues_foldlM fun _ _ _ => ?_
  rw [Prog.lift_def]
  trivial

/-- `read_activity` only reads. -/
theorem calls_readActivity : Calls FsCall.Reads (readActivity root) := by
  refine Prog.issues_bind (Prog.issues_attempt calls_openFile) fun r => ?_
  split
  · trivial
  · trivial
  · exact calls_ite trivial (calls_ite trivial trivial)

/-- `remove_payload` stays below its root. -/
theorem rooted_removePayload : Calls FsCall.Rooted (removePayload root) := by
  refine Prog.issues_bind (rooted_of_reads calls_children) fun _ =>
    Prog.issues_bind (Prog.issues_foldlM fun child _ names => ?_) fun names =>
    calls_ite rooted_removeFiles trivial
  refine calls_ite trivial (calls_ite ?_ trivial)
  exact Prog.issues_bind (rooted_of_reads calls_children) fun _ =>
    Prog.issues_bind rooted_removeFiles fun _ => Prog.issues_bind rooted_remove fun _ => trivial

/-- The clock has no effect on a tree. -/
theorem calls_now : Calls (FsCall.Safe E) now := by
  refine calls_sys (c := .seconds) (safe_quiet trivial fun _ _ _ h => h) fun r => ?_
  cases r <;> trivial

section
variable [Sha256]

/-- Writing the activity record replaces the record and stamps its directory. -/
theorem calls_writeActivity {seconds : Nat} (hd : E.Stamps (dirName (root.pathOf "activity")))
    (hp : E.Puts (root.pathOf "activity")) :
    Calls (FsCall.Safe E) (writeActivity root seconds) := by
  obtain ⟨h1, h2⟩ := @calls_stageInner _ _ _ _ [activityRecord seconds] 16 (some (digest
      (activityRecord seconds))) none hd
  refine Prog.issues_bind_returns h1 h2 ?_
  rintro _ ⟨hc, rfl⟩
  refine Prog.issues_ensuring ?_ (calls_drop hc.rooted_dirName hd)
  have hj := hc.join_dirName
  exact calls_commit (by rwa [hj]) hc.rooted_dirName (SepPath.Clean.baseName hc) hd (by rwa [hj])

/-- The record is written below the root. -/
theorem rooted_writeActivity {seconds : Nat} : Calls FsCall.Rooted (writeActivity root seconds) :=
  FsCall.rooted_of_safe (E := .any) (calls_writeActivity (fun _ _ _ => trivial) fun _ _ _ _ _ => trivial)

/-- `expire` stays in the cache directory. -/
theorem rooted_expire {retention now : Nat} :
    Calls FsCall.Rooted (expire parent key retention now) := by
  refine Prog.issues_bind (rooted_of_reads calls_children) fun _ => Prog.issues_forM fun child _ =>
    calls_ite trivial (calls_check_bind (calls_lift fun root _ =>
      Prog.issues_bind calls_lockState fun _ =>
      Prog.issues_bind (rooted_of_reads calls_payloadBytes) fun _ =>
      Prog.issues_bind (rooted_of_reads calls_readActivity) fun activity => ?_))
  split
  · exact rooted_writeActivity
  · exact calls_ite trivial (Prog.issues_bind rooted_removePayload fun _ =>
      Prog.issues_bind rooted_remove fun _ => Prog.issues_bind rooted_remove fun _ => rooted_remove)

/-! ### The store -/

namespace Store

variable {store : Store} {d : Description} {scope : Hash} {limits : Limits} {index start : Nat}

/-- `touch` puts the record and stamps its directory, and nothing else. -/
theorem calls_touch (hd : E.Stamps (dirName (store.root.pathOf "activity")))
    (hp : E.Puts (store.root.pathOf "activity")) : Calls (FsCall.Safe E) store.touch :=
  Prog.issues_bind calls_now fun _ =>
    calls_ite (Prog.issues_bind (calls_writeActivity hd hp) fun _ => trivial) trivial

/-- `touch` stays below its root. -/
theorem rooted_touch : Calls FsCall.Rooted store.touch :=
  FsCall.rooted_of_safe (E := .any) (calls_touch (fun _ _ _ => trivial) fun _ _ _ _ _ => trivial)

/-- Dropping a store does what `touch` does. -/
theorem calls_drop {ε : Type} (hd : E.Stamps (dirName (store.root.pathOf "activity")))
    (hp : E.Puts (store.root.pathOf "activity")) :
    Prog.Issues (S := FsSig) (FsCall.Safe E) (store.drop : Prog FsSig ε Unit) :=
  Prog.issues_bind (Prog.issues_attempt (calls_touch hd hp)) fun _ => trivial

/-- Dropping a store stays below its root. -/
theorem rooted_drop {ε : Type} :
    Prog.Issues (S := FsSig) FsCall.Rooted (store.drop : Prog FsSig ε Unit) :=
  Prog.issues_bind (Prog.issues_attempt rooted_touch) fun _ => trivial

/-- Opening a store stays in the cache directory. -/
theorem rooted_openLocked : Calls FsCall.Rooted (openLocked parent scope d) :=
  Prog.issues_bind rooted_mkdir fun _ => calls_lift fun _ _ =>
    Prog.issues_bind calls_lockState fun _ =>
    Prog.issues_bind (FsCall.rooted_of_safe (E := .any) calls_now) fun _ =>
    Prog.issues_bind rooted_writeActivity fun _ => trivial

/-- The same with the lock of the cache. -/
theorem rooted_openShared : Calls FsCall.Rooted (openShared parent scope d) :=
  Prog.issues_bind calls_lockState fun _ => rooted_openLocked

/-- Looking for room stays in the cache directory. -/
theorem rooted_admission : Calls FsCall.Rooted (admission parent key limits) := by
  have hrest : Calls FsCall.Rooted (do
      let usage ← (← parent.children "").foldlM (usageEntry parent key) (0, false, 0)
      if limits.maxTransfers < usage.1 + (if usage.2.1 then 0 else 1) ||
          limits.maxBytes < usage.2.2 then
        throw (.config "chunk cache quota exceeded; clean stale state while all users are stopped")
      pure usage.2.2 : FsM Nat) := by
    refine Prog.issues_bind (rooted_of_reads calls_children) fun _ =>
      Prog.issues_bind (Prog.issues_foldlM fun child _ usage => ?_) fun _ => calls_check_bind trivial
    exact calls_ite trivial (calls_check_bind (calls_lift fun _ _ =>
      Prog.issues_bind (rooted_of_reads calls_payloadBytes) fun _ => calls_check_bind trivial))
  refine Prog.issues_bind calls_lockState fun _ => calls_ite ?_ hrest
  exact Prog.issues_bind (FsCall.rooted_of_safe (E := .any) calls_now) fun _ =>
    Prog.issues_bind rooted_expire fun _ => hrest

omit [Sha256] in
/-- Counting what a file still needs only reads. -/
theorem calls_neededFor {needed : Nat} : Calls FsCall.Reads (neededFor store d needed index) := by
  refine calls_lift fun _ _ => calls_lift fun _ _ => Prog.issues_bind calls_exists fun _ =>
    calls_ite trivial (Prog.issues_bind calls_metadata fun _ => trivial)

/-- Opening a store within limits stays in the cache directory. -/
theorem rooted_openLimited : Calls FsCall.Rooted (openLimited parent scope d limits) := by
  refine Prog.issues_bind rooted_admission fun _ => Prog.issues_bind rooted_openLocked fun store =>
    Prog.issues_bind (Prog.issues_onError (calls_lift fun _ _ => ?_) rooted_drop) fun _ => trivial
  exact Prog.issues_bind (Prog.issues_foldlM fun _ _ _ => rooted_of_reads calls_neededFor)
    fun _ => calls_check trivial

/-- `verified` only reads. -/
theorem calls_verified : Calls FsCall.Reads (store.verified d index) := by
  refine calls_lift fun _ _ => Prog.issues_bind (Prog.issues_attempt calls_openFile) fun r => ?_
  split
  · trivial
  · trivial
  · exact calls_lift fun _ _ => calls_ite trivial (calls_lift fun _ _ => calls_ite trivial trivial)

/-- `missing` only reads. -/
theorem calls_missing : Calls FsCall.Reads (store.missing d start) := by
  refine calls_lift fun _ _ => calls_ite trivial (calls_lift fun _ _ =>
    Prog.issues_foldlM fun i _ missing => Prog.issues_bind calls_verified fun r => ?_)
  cases r <;> trivial

/-- `receive` stays below its root. -/
theorem rooted_receive {reader : Bytes} : Calls FsCall.Rooted (store.receive d index reader) := by
  refine calls_lift fun name _ => Prog.issues_bind rooted_mkdir fun _ => calls_lift fun _ _ =>
    calls_lift fun _ _ => ?_
  obtain ⟨h1, h2⟩ := @calls_stageInner .any store.root name _ _ _ _ _
    fun _ _ _ => trivial
  refine Prog.issues_bind_returns (FsCall.rooted_of_safe h1) h2 ?_
  rintro _ ⟨hc, rfl⟩
  have hj := hc.join_dirName
  refine Prog.issues_bind (Prog.issues_ensuring (FsCall.rooted_of_safe (E := .any) ?_)
    (FsCall.rooted_of_safe (E := .any) (RrSync.calls_drop hc.rooted_dirName fun _ _ _ => trivial)))
    fun _ => rooted_touch
  exact calls_commit (by rwa [hj]) hc.rooted_dirName (SepPath.Clean.baseName hc)
    (fun _ _ _ => trivial) fun _ _ _ _ _ => trivial

/-- `assemble` only reads. -/
theorem calls_assemble : Calls FsCall.Reads (store.assemble d) := by
  refine calls_lift fun _ _ => Prog.issues_bind (Prog.issues_foldlM fun i _ result =>
    Prog.issues_bind calls_verified fun r => ?_) fun _ => calls_check_bind trivial
  cases r <;> trivial

/-- `clear` stays below its root. -/
theorem rooted_clear : Calls FsCall.Rooted store.clear :=
  Prog.issues_bind (rooted_of_reads calls_payloadBytes) fun _ =>
    Prog.issues_bind rooted_removePayload fun _ => rooted_touch

end Store

end

end

end RrSync

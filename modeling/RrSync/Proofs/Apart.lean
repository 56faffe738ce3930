import RrSync.Model.Run
import RrSync.Proofs.Folders
import RrSync.Proofs.Keys
import RrSync.Proofs.Receive

/-!
# `RrSync.Proofs.Apart`: transfers do not see each other

Every operation of a store works in the directory of its transfer, except that it opens the
lock of the cache. The directory is named by the key, and the key determines the context
(`Context.key_injective`). So in a run of operations on stores of many contexts those of other
contexts may be left out, without a change in what the store of one context reports
(`contexts_apart`).
-/

set_option autoImplicit false

namespace RrSync

open Lib

-- Else a path is evaluated as far as its number allows whenever a program is matched.
attribute [local irreducible] hex8 chunkString

/-! ### The operations of a store work in its directory -/

section
variable {root parent : Root} {K : Path} {b : Bool}

/-- `payload_bytes` reads in the directory of the transfer. -/
theorem own_payloadBytes (hbase : root.base.utf8 = K) (hK : NameOk K) :
    Calls (FsCall.Own b K) (payloadBytes root) := by
  refine Prog.issues_bind (own_children hbase hK) fun _ => Prog.issues_foldlM fun child _ bytes => ?_
  refine calls_ite trivial (calls_ite trivial (calls_check_bind (calls_lift fun _ _ => ?_)))
  refine Prog.issues_bind (own_children hbase hK) fun _ => Prog.issues_foldlM fun _ _ _ => ?_
  rw [Prog.lift_def]
  trivial

/-- `remove_payload` works in the directory of the transfer. -/
theorem own_removePayload (hbase : root.base.utf8 = K) (hK : NameOk K) :
    Calls (FsCall.Own b K) (removePayload root) := by
  refine Prog.issues_bind (own_children hbase hK) fun _ =>
    Prog.issues_bind (Prog.issues_foldlM fun child _ names => ?_) fun names =>
    calls_ite (own_removeFiles hbase hK) trivial
  refine calls_ite trivial (calls_ite ?_ trivial)
  exact Prog.issues_bind (own_children hbase hK) fun _ =>
    Prog.issues_bind (own_removeFiles hbase hK) fun _ =>
    Prog.issues_bind (own_remove hK (below_own hbase hK _)) fun _ => trivial

/-- The record is read in the directory of the transfer. -/
theorem own_readActivity (hbase : root.base.utf8 = K) (hK : NameOk K) :
    Calls (FsCall.Own b K) (readActivity root) := by
  refine Prog.issues_bind (Prog.issues_attempt (own_openFile hbase hK)) fun r => ?_
  split
  · trivial
  · trivial
  · exact calls_ite trivial (calls_ite trivial trivial)

/-- The clock belongs to no directory. -/
theorem own_now : Calls (FsCall.Own b K) now := by
  refine calls_sys (c := .seconds) trivial fun r => ?_
  cases r <;> trivial

section
variable [Sha256] {path : String} {reader : Reading} {size : Nat} {hash : Option Hash}

omit [Sha256] in
/-- The directory of a file of the transfer. -/
theorem below_dirName_own (hbase : root.base.utf8 = K) (hK : NameOk K)
    (hv : validate path = .ok ()) : Below (dirName (root.pathOf path)) K := by
  refine (below_own hbase hK path).dirName fun he => ?_
  have h1 : join root.base.utf8 path.utf8 = join root.base.utf8 [] := by
    rw [← hbase] at he
    simpa [Root.pathOf, join] using he
  exact (cleanPath_of_validate hv).ne_nil (SepPath.join_injective _ h1)

/-- A file is staged in the directory of the transfer, and knows its place there. -/
theorem own_stageFrom (hbase : root.base.utf8 = K) (hK : NameOk K)
    (hv : validate path = .ok ()) :
    Calls (FsCall.Own true K) (root.stageFrom path reader size hash none) ∧
    (root.stageFrom path reader size hash none).Returns fun staged =>
      CleanPath (root.pathOf path) ∧
        staged = ⟨dirName (root.pathOf path), baseName (root.pathOf path)⟩ := by
  refine ⟨?_, (calls_stageFrom (E := .any) fun _ _ _ => trivial).2⟩
  have hdir := below_dirName_own hbase hK hv
  -- the loop writes to the staged file only
  have hloop : ∀ blocks seen, Calls (FsCall.Own true K) (stageLoop path size seen blocks) := by
    intro blocks
    induction blocks with
    | nil => exact fun _ => trivial
    | cons block rest ih =>
      intro seen
      exact calls_check_bind (calls_sys (c := .write block) trivial fun _ =>
        Prog.issues_bind (calls_ok _) fun _ => ih _)
  have hfill : Calls (FsCall.Own true K) (fillTempFrom path reader size hash none) := by
    refine Prog.issues_bind (hloop _ _) fun seen => ?_
    split
    · trivial
    · refine calls_check_bind (calls_check_bind (Prog.issues_bind trivial fun _ => ?_))
      exact calls_sys (c := .syncTemp) trivial fun _ => calls_ok _
  refine Prog.issues_bind_returns (own_parent hK (below_own hbase hK _))
    (calls_parent (E := .any)).2 ?_
  rintro _ ⟨hc, rfl⟩
  refine calls_sys (c := .createTemp _) ⟨hdir, rfl⟩ fun _ => Prog.issues_bind (calls_ok _) fun _ => ?_
  refine Prog.issues_bind (Prog.issues_onError hfill ?_) fun _ => trivial
  exact calls_sys (c := .dropTemp _) hdir fun _ => trivial

omit [Sha256] in
/-- A commit of that file works in the directory. -/
theorem own_commit (hbase : root.base.utf8 = K) (hK : NameOk K) (hv : validate path = .ok ())
    (hc : CleanPath (root.pathOf path)) {staged : Staged}
    (hs : staged = ⟨dirName (root.pathOf path), baseName (root.pathOf path)⟩) :
    Calls (FsCall.Own b K) (staged.scope staged.commit) := by
  subst hs
  have hdir := below_dirName_own hbase hK hv
  have hj : Below (join (dirName (root.pathOf path)) (baseName (root.pathOf path))) K := by
    rw [hc.join_dirName]
    exact below_own hbase hK path
  refine Prog.issues_ensuring ?_ (calls_sys (c := .dropTemp _) hdir fun _ => trivial)
  exact calls_sys (c := .rename _ _) ⟨hj, SepPath.Clean.baseName hc⟩ fun _ =>
    Prog.issues_bind (calls_ok _) fun _ => calls_sys (c := .sync _) trivial fun _ => calls_ok _

omit [Sha256] in
/-- The name of the record is a path. -/
theorem validate_activity : validate "activity" = .ok () := by decide

/-- The record is written in the directory of the transfer. -/
theorem own_writeActivity {seconds : Nat} (hbase : root.base.utf8 = K) (hK : NameOk K) :
    Calls (FsCall.Own true K) (writeActivity root seconds) := by
  obtain ⟨h1, h2⟩ := @own_stageFrom root K _ "activity" ⟨[activityRecord seconds], none⟩ 16
    (some (digest (activityRecord seconds))) hbase hK validate_activity
  refine Prog.issues_bind_returns h1 h2 ?_
  rintro staged ⟨hc, hs⟩
  exact own_commit hbase hK validate_activity hc hs

namespace Store

variable {store : Store} {d : Description} {scope : Hash} {i start : Nat}

/-- `touch` works in the directory of the transfer. -/
theorem own_touch (hbase : store.root.base.utf8 = K) (hK : NameOk K) :
    Calls (FsCall.Own true K) store.touch :=
  Prog.issues_bind own_now fun _ =>
    calls_ite (Prog.issues_bind (own_writeActivity hbase hK) fun _ => trivial) trivial

/-- Dropping a store works in the directory of the transfer. -/
theorem own_drop {ε : Type} (hbase : store.root.base.utf8 = K) (hK : NameOk K) :
    Prog.Issues (S := FsSig) (FsCall.Own true K) (store.drop : Prog FsSig ε Unit) :=
  Prog.issues_bind (Prog.issues_attempt (own_touch hbase hK)) fun _ => trivial

/-- Opening a store works in the directory that its key names. -/
theorem own_openLocked (hkey : (d.key scope).utf8 = K) :
    Calls (FsCall.Own true K) (openLocked .opened scope d) := by
  have hk := keyName_key d scope
  have hK : NameOk K := hkey ▸ keyName_nameOk hk
  refine Prog.issues_bind (own_mkdir hK ?_) fun _ => calls_lift fun root hroot => ?_
  · rw [opened_pathOf, hkey]
    exact SepPath.Below.refl
  · have hbase : root.base.utf8 = K := by
      rw [← Except.ok.inj ((subtree_key hk).symm.trans hroot)]
      exact hkey
    exact Prog.issues_bind (own_lockState (below_own hbase hK _)) fun _ => Prog.issues_bind own_now fun _ =>
      Prog.issues_bind (own_writeActivity hbase hK) fun _ => trivial

/-- `verified` reads in the directory of the transfer. -/
theorem own_verified (hbase : store.root.base.utf8 = K) (hK : NameOk K) :
    Calls (FsCall.Own b K) (store.verified d i) := by
  refine calls_lift fun _ _ => Prog.issues_bind (Prog.issues_attempt (own_openFile hbase hK))
    fun r => ?_
  split
  · trivial
  · trivial
  · exact calls_lift fun _ _ => calls_ite trivial (calls_lift fun _ _ => calls_ite trivial trivial)

/-- `missing` reads in the directory of the transfer. -/
theorem own_missing (hbase : store.root.base.utf8 = K) (hK : NameOk K) :
    Calls (FsCall.Own b K) (store.missing d start) := by
  refine calls_lift fun _ _ => calls_ite trivial (calls_lift fun _ _ =>
    Prog.issues_foldlM fun i _ missing => Prog.issues_bind (own_verified hbase hK) fun r => ?_)
  cases r <;> trivial

/-- `assemble` reads in the directory of the transfer. -/
theorem own_assemble (hbase : store.root.base.utf8 = K) (hK : NameOk K) :
    Calls (FsCall.Own b K) (store.assemble d) := by
  refine calls_lift fun _ _ => Prog.issues_bind (Prog.issues_foldlM fun i _ result =>
    Prog.issues_bind (own_verified hbase hK) fun r => ?_) fun _ => calls_check_bind trivial
  cases r <;> trivial

/-- `receive` works in the directory of the transfer. -/
theorem own_receiveFrom {reader : Reading} (hbase : store.root.base.utf8 = K) (hK : NameOk K) :
    Calls (FsCall.Own true K) (store.receiveFrom d i reader) := by
  refine calls_lift fun path hpath => ?_
  rw [name_eq] at hpath
  by_cases hi : i < d.chunkCount
  · rw [if_pos hi] at hpath
    obtain rfl := Except.ok.inj hpath
    have hv := validate_chunkString i
    refine Prog.issues_bind (own_mkdir hK (below_own hbase hK _)) fun _ =>
      calls_lift fun length _ => calls_lift fun hash _ => ?_
    obtain ⟨h1, h2⟩ := @own_stageFrom store.root K _ (chunkString i) reader length (some hash)
      hbase hK hv
    refine Prog.issues_bind_returns h1 h2 ?_
    rintro staged ⟨hc, hs⟩
    exact Prog.issues_bind (own_commit hbase hK hv hc hs) fun _ => own_touch hbase hK
  · rw [if_neg hi] at hpath
    cases hpath

/-- `clear` works in the directory of the transfer. -/
theorem own_clear (hbase : store.root.base.utf8 = K) (hK : NameOk K) :
    Calls (FsCall.Own true K) store.clear :=
  Prog.issues_bind (own_payloadBytes hbase hK) fun _ =>
    Prog.issues_bind (own_removePayload hbase hK) fun _ => own_touch hbase hK

end Store

/-! ### No staged file is left behind -/

omit [Sha256] in
/-- A call that fails changes nothing but the number of calls. -/
theorem attempt_error {α : Type} {w : Disk} {f : Disk → Except Errno (α × Disk)} {e : Errno}
    (h : (w.attempt f).1 = .error e) : (w.attempt f).2 = { w with tick := w.tick + 1 } := by
  unfold Disk.attempt at h ⊢
  simp only [] at h ⊢
  split
  · rfl
  · next hf =>
    rw [if_neg hf] at h
    split
    · next a w' hw' =>
      rw [hw'] at h
      cases h
    · rfl

omit [Sha256] in
/-- Nothing is staged after a drop. -/
theorem dropTemp_temp {w : Disk} {d : Path} : (exec (.dropTemp d) w).2.temp = none := by
  show (w.dropTemp d).temp = none
  unfold Disk.dropTemp
  split
  · assumption
  · rfl

omit [Sha256] in
/-- `parent` only reads. -/
theorem reads_parent : Calls FsCall.Reads (root.parent path) := by
  refine calls_validate fun hc => calls_full fun s h => ?_
  have hs : Rooted (dirName s.utf8) := by
    rcases Root.full_rooted h with h0 | h0
    · exact Or.inl (by rw [h0]; rfl)
    · exact h0.rooted_dirName
  exact calls_sys (c := .openDir _) hs fun _ => Prog.issues_bind (calls_ok _) fun _ => trivial

/-- Staging that fails has dropped its file. -/
theorem stageFrom_error {mtime : Option (Int64 × UInt32)} {w : Disk} (hw : w.temp = none) :
    Prog.Spec exec (fun _ => True) (root.stageFrom path reader size hash mtime) w
      fun r w' => ∀ e, r = .error e → w'.temp = none := by
  unfold Root.stageFrom
  rw [Prog.spec_bind]
  refine (quiet_of_reads reads_parent).spec trivial ?_
  -- A path that is refused stages nothing.
  cases ((root.parent path).run exec w).1 with
  | error e => exact fun _ _ => hw
  | ok r =>
    obtain ⟨dir, name⟩ := r
    refine Prog.spec_bind.mpr ⟨trivial, ?_⟩
    refine Prog.spec_bind.mpr ?_
    cases hr : (exec (.createTemp dir) w).1 with
    | error e =>
      intro _ _
      exact (congrArg Disk.temp (attempt_error hr)).trans hw
    | ok u =>
      refine Prog.spec_bind.mpr ?_
      refine Prog.spec_onError (Prog.spec_of_run (fun _ _ => trivial) ?_)
      split
      · exact fun _ h => by cases h
      -- After an error the staged file is dropped.
      · exact ⟨trivial, fun _ _ => dropTemp_temp⟩

omit [Sha256] in
/-- At the end of the scope of a staged file there is none. -/
theorem scope_temp {staged : Staged} {m : FsM Unit} (w : Disk) :
    ((staged.scope m).run exec w).2.temp = none := by
  show ((m.ensuring staged.drop).run exec w).2.temp = none
  rw [Prog.run_ensuring]
  exact dropTemp_temp

/-- A file that is staged and committed in its own scope is never left behind. -/
theorem tidy_stageFrom {α : Type} {f : Staged → FsM α} (hf : ∀ staged, Tidy (f staged)) :
    Tidy (do
      let staged ← root.stageFrom path reader size hash none
      staged.scope staged.commit
      f staged) := by
  intro w hw
  have h1 := (@stageFrom_error root _ path reader size hash none w hw).run
  rw [Prog.run_bind]
  rcases hr : (root.stageFrom path reader size hash none).run exec w with ⟨e | staged, v⟩
  · rw [hr] at h1
    exact h1 e rfl
  · have h2 := @scope_temp staged staged.commit v
    show ((staged.scope staged.commit >>= fun _ => f staged).run exec v).2.temp = none
    rw [Prog.run_bind]
    rcases hs : (staged.scope staged.commit).run exec v with ⟨e | u, v'⟩ <;> rw [hs] at h2
    · exact h2
    · exact hf staged v' h2

/-- Writing the record leaves nothing staged. -/
theorem tidy_writeActivity {seconds : Nat} : Tidy (writeActivity root seconds) := by
  have h := @tidy_stageFrom root _ "activity" ⟨[activityRecord seconds], none⟩ 16
    (some (digest (activityRecord seconds))) _ (fun _ => pure ()) fun _ _ hw => hw
  have he : writeActivity root seconds = (do
      let staged ← root.stageFrom "activity" ⟨[activityRecord seconds], none⟩ 16
        (some (digest (activityRecord seconds))) none
      staged.scope staged.commit
      pure ()) := by
    simp only [bind_pure_unit]
    rfl
  rw [he]
  exact h

namespace Store

variable {store : Store} {d : Description} {scope : Hash} {i : Nat}

/-- `touch` leaves nothing staged. -/
theorem tidy_touch : Tidy store.touch := by
  refine tidy_bind (tidy_of_own (K := []) own_now) fun seconds => ?_
  split
  · exact tidy_bind tidy_writeActivity fun _ _ hw => hw
  · exact fun _ hw => hw

omit [Sha256] in
/-- What follows a computed value leaves nothing staged. -/
theorem tidy_lift {α β : Type} {x : Except Error α} {f : α → FsM β}
    (hf : ∀ a, x = .ok a → Tidy (f a)) : Tidy (liftM x >>= f) := by
  cases x with
  | ok a => exact hf a rfl
  | error e => exact fun _ hw => hw

/-- Opening a store leaves nothing staged. -/
theorem tidy_openLocked : Tidy (openLocked .opened scope d) := by
  have hk := keyName_key d scope
  have hK := keyName_nameOk hk
  refine tidy_bind (tidy_of_own (own_mkdir hK ?_)) fun _ => tidy_lift fun root hroot => ?_
  · rw [opened_pathOf]
    exact SepPath.Below.refl
  · have hbase : root.base.utf8 = (d.key scope).utf8 := by
      rw [← Except.ok.inj ((subtree_key hk).symm.trans hroot)]
      rfl
    refine tidy_bind (tidy_of_own (own_lockState (below_own hbase hK _))) fun _ => ?_
    refine tidy_bind (tidy_of_own (K := []) own_now) fun seconds => ?_
    exact tidy_bind tidy_writeActivity fun _ _ hw => hw

/-- `receive` leaves nothing staged, also when the reader fails. -/
theorem tidy_receiveFrom {reader : Reading} (hbase : store.root.base.utf8 = K) (hK : NameOk K) :
    Tidy (store.receiveFrom d i reader) := by
  refine tidy_lift fun path _ => ?_
  refine tidy_bind (tidy_of_own (own_mkdir hK (below_own hbase hK _))) fun _ => ?_
  exact tidy_lift fun length _ => tidy_lift fun hash _ => tidy_stageFrom fun _ => tidy_touch

/-- `clear` leaves nothing staged. -/
theorem tidy_clear (hbase : store.root.base.utf8 = K) (hK : NameOk K) : Tidy store.clear := by
  refine tidy_bind (tidy_of_own (own_payloadBytes hbase hK)) fun _ => ?_
  exact tidy_bind (tidy_of_own (own_removePayload hbase hK)) fun _ => tidy_touch

/-- Dropping a store leaves nothing staged. -/
theorem tidy_drop : Tidy (store.drop : FsM Unit) := by
  refine tidy_bind ?_ fun _ _ hw => hw
  intro w hw
  rw [Prog.run_attempt]
  exact tidy_touch w hw

/-! ### The root of a store stays -/

/-- `touch` keeps the directory of a store. -/
theorem returns_touch : store.touch.Returns fun s => s.root = store.root := by
  refine Prog.returns_bind fun seconds => ?_
  split
  · exact Prog.returns_bind fun _ => rfl
  · rfl

/-- `receive` keeps the directory of a store. -/
theorem returns_receiveFrom {reader : Reading} :
    (store.receiveFrom d i reader).Returns fun s => s.root = store.root :=
  Prog.returns_bind fun _ => Prog.returns_bind fun _ => Prog.returns_bind fun _ =>
    Prog.returns_bind fun _ => Prog.returns_bind fun _ => Prog.returns_bind fun _ => returns_touch

/-- `clear` keeps the directory of a store. -/
theorem returns_clear : store.clear.Returns fun s => s.root = store.root :=
  Prog.returns_bind fun _ => Prog.returns_bind fun _ => returns_touch

/-- The directory of a store is the one that its key names. -/
theorem returns_openLocked :
    (openLocked .opened scope d).Returns fun s => s.root.base = d.key scope := by
  have hroot : Prog.Returns (fun r : Root => r.base = d.key scope)
      (liftM (Root.opened.subtree (d.key scope)) : FsM Root) := by
    rw [subtree_key (keyName_key d scope)]
    exact rfl
  refine Prog.returns_bind fun _ => Prog.returns_bind_returns hroot fun root hbase => ?_
  exact Prog.returns_bind fun _ => Prog.returns_bind fun _ => Prog.returns_bind fun _ => hbase

end Store

end

end

/-! ### The lock of the cache -/

/-- The lock file of the cache directory. -/
def lockPath : Path := "cache.lock".utf8

/-- The lock of the cache has a name. -/
theorem nameOk_lock : NameOk lockPath := by decide

/-- What the lock of the cache is, or will be when it is opened. -/
def Tree.lockType (t : Tree) : FileType := ((t.get lockPath).map fun n => n.body.type).getD .file

section
variable {K : Path} {b : Bool}

open Disk RrSync.Tree

/-- The disks have the same objects in the directory `K` and the same kind of lock. -/
structure Near (K : Path) (w w' : Disk) : Prop where
  twin : Twin K w w'
  lock : w.tree.lockType = w'.tree.lockType

/-- The type of the lock depends on the lock only. -/
theorem lockType_congr {t t' : Tree} (h : t.under lockPath = t'.under lockPath) :
    t.lockType = t'.lockType := by
  unfold lockType
  rw [get_congr h SepPath.Below.refl]

/-- Calls in another directory keep the lock. -/
theorem exec_near {c : FsCall} {w w' : Disk} (hK : NameOk K) (hne : K ≠ lockPath)
    (hc : c.Own b K) (h : Near K w w') :
    (exec c w).1 = (exec c w').1 ∧ Near K (exec c w).2 (exec c w').2 := by
  obtain ⟨h1, h2⟩ := exec_twin hK hc h.twin
  refine ⟨h1, h2, ?_⟩
  rw [lockType_congr (exec_under hK nameOk_lock hne hc),
    lockType_congr (exec_under hK nameOk_lock hne hc), h.lock]

/-- A program that works in another directory than the lock does the same on disks that are near. -/
theorem near_of_own {α ε : Type} {m : Prog FsSig ε α} (hK : NameOk K) (hne : K ≠ lockPath)
    (hm : Prog.Issues (S := FsSig) (FsCall.Own b K) m) : Prog.Agrees exec (Near K) m :=
  hm.agrees fun _ _ _ hc h => exec_near hK hne hc h

/-- What opening the lock tells, and what it leaves. -/
theorem run_openLock (w : Disk) :
    (exec (.openLock lockPath) w).1.map Metadata.isFile
        = (if w.env.fault w.tick then .error .io else
            if w.tree.lockType = .symlink then .error .symlinkLoop
            else if w.tree.lockType = .directory then .error .isDir
            else .ok (decide (w.tree.lockType = .file))) ∧
      (exec (.openLock lockPath) w).2.temp = w.temp ∧
      (exec (.openLock lockPath) w).2.tick = w.tick + 1 := by
  have hattempt : exec (.openLock lockPath) w = w.attempt (Disk.openLock lockPath) := rfl
  rw [hattempt]
  unfold Disk.attempt
  simp only []
  by_cases hf : w.env.fault w.tick = true
  · rw [if_pos hf, if_pos hf]
    exact ⟨rfl, rfl, rfl⟩
  rw [if_neg hf, if_neg hf]
  unfold lockType
  cases hget : w.tree.get lockPath with
  | some n =>
    unfold Disk.openLock
    simp only [hget]
    obtain ⟨body, time, tag⟩ := n
    cases body <;> exact ⟨rfl, rfl, rfl⟩
  | none =>
    have hclean : CleanPath lockPath := (SepPath.clean_of_notMem nameOk_lock.2.1).mpr nameOk_lock
    have hd : dirName lockPath = [] :=
      (SepPath.dirName_eq_nil not_nameOk_nil hclean).mpr nameOk_lock.2.1
    -- nothing lies below a lock that is not there, so one can be made
    have hleaf : w.tree.Leaf lockPath := by
      refine leaf_of_not_isDir ?_
      rintro ⟨n, hn, -⟩
      cases hget.symm.trans hn
    have hopen := openLock_ok (w := { w with tick := w.tick + 1 }).mpr
      (Or.inr ⟨hget, rfl, ⟨hclean, hd ▸ isDir_root, Or.inr hleaf⟩, rfl⟩)
    rw [hopen]
    exact ⟨rfl, rfl, rfl⟩

/-- A lock that is created is a file. -/
theorem openLock_lockType (w : Disk) :
    (exec (.openLock lockPath) w).2.tree.lockType = w.tree.lockType := by
  unfold lockType
  rcases exec_may (.openLock lockPath) w lockPath with he | ⟨-, n, n', ho, hn, hb⟩ | ⟨-, ho, n, hn, hb⟩
  · rw [he]
  · rw [ho, hn]
    simp [hb]
  · rw [ho, hn]
    simp [hb, Body.type]

/-- Opening the lock of the cache tells only whether it is a file. -/
theorem openLock_near {w w' : Disk} (hK : NameOk K) (hne : K ≠ lockPath) (h : Near K w w') :
    (exec (.openLock lockPath) w).1.map Metadata.isFile
        = (exec (.openLock lockPath) w').1.map Metadata.isFile ∧
      Near K (exec (.openLock lockPath) w).2 (exec (.openLock lockPath) w').2 := by
  have hunder : ∀ w : Disk, (exec (.openLock lockPath) w).2.tree.under K = w.tree.under K :=
    fun w => exec_under (b := false) nameOk_lock hK hne.symm SepPath.Below.refl
  obtain ⟨h1, h2, h3⟩ := run_openLock w
  obtain ⟨h1', h2', h3'⟩ := run_openLock w'
  refine ⟨?_, ⟨?_, ?_, ?_, ?_⟩, ?_⟩
  · rw [h1, h1', h.twin.env, h.twin.tick, h.lock]
  · rw [hunder, hunder, h.twin.under]
  · rw [h2, h2', h.twin.temp]
  · rw [h3, h3', h.twin.tick]
  · rw [(exec_env_journal _ w).1, (exec_env_journal _ w').1, h.twin.env]
  · rw [openLock_lockType, openLock_lockType, h.lock]

/-- Taking the lock of the cache, seen from a transfer directory. -/
theorem lockCache_agrees {shared : Bool} (hK : NameOk K) (hne : K ≠ lockPath) :
    Prog.Agrees exec (Near K) (Root.opened.lockState "cache.lock" shared) := by
  have hfull : Root.opened.full "cache.lock" = .ok "cache.lock" := opened_full (by decide) (by decide)
  have hprog : Root.opened.lockState "cache.lock" shared = (do
      let m ← ok (← sys (.openLock lockPath))
      if ¬ m.isFile then throw (.invalidPath "invalid resume lock")
      ok (← sys (.flock lockPath shared))) := by
    unfold Root.lockState
    rw [hfull]
    rfl
  rw [hprog]
  intro w w' h
  obtain ⟨hr, hn⟩ := openLock_near hK hne h
  have hrest : Prog.Agrees exec (Near K) (do ok (← sys (.flock lockPath shared)) : FsM Unit) :=
    near_of_own (b := false) hK hne
      (calls_sys (c := .flock lockPath shared) trivial fun _ => calls_ok _)
  -- the result depends on the type of the lock, which is all that near disks share of it
  have hrun : ∀ w : Disk, (do
        let m ← ok (← sys (.openLock lockPath))
        if ¬ m.isFile then throw (.invalidPath "invalid resume lock")
        ok (← sys (.flock lockPath shared)) : FsM Unit).run exec w
      = match (exec (.openLock lockPath) w).1.map Metadata.isFile with
        | .error e => (.error e.toError, (exec (.openLock lockPath) w).2)
        | .ok false => (.error (.invalidPath "invalid resume lock"), (exec (.openLock lockPath) w).2)
        | .ok true => (do ok (← sys (.flock lockPath shared)) : FsM Unit).run exec
            (exec (.openLock lockPath) w).2 := by
    intro w
    rw [Prog.run_bind_ok (run_sys _ w)]
    cases (exec (.openLock lockPath) w).1 with
    | error e => rfl
    | ok m =>
      show (if ¬ m.isFile then (throw _ >>= _) else _ : FsM Unit).run exec _ = _
      cases hm : m.isFile <;> simp [Except.map, hm]
      rfl
  rw [hrun, hrun, ← hr]
  cases (exec (.openLock lockPath) w).1.map Metadata.isFile with
  | error e => exact ⟨rfl, hn⟩
  | ok isFile =>
    cases isFile with
    | false => exact ⟨rfl, hn⟩
    | true => exact hrest _ _ hn

/-! ### What the operations of other transfers keep -/

/-- The program changes neither what is in `K` nor the type of the lock. -/
def Spares {α ε : Type} (K : Path) (m : Prog FsSig ε α) : Prop :=
  ∀ w, (m.run exec w).2.tree.under K = w.tree.under K ∧
    (m.run exec w).2.tree.lockType = w.tree.lockType

/-- Two programs that spare a directory, in sequence. -/
theorem Spares.bind {α β ε : Type} {m : Prog FsSig ε α} {f : α → Prog FsSig ε β}
    (hm : Spares K m) (hf : ∀ a, Spares K (f a)) : Spares K (m >>= f) := by
  intro w
  obtain ⟨h1, h2⟩ := hm w
  rw [Prog.run_bind]
  rcases hr : m.run exec w with ⟨e | a, v⟩ <;> rw [hr] at h1 h2
  · exact ⟨h1, h2⟩
  · obtain ⟨h3, h4⟩ := hf a v
    exact ⟨h3.trans h1, h4.trans h2⟩

/-- A program that works in another directory spares this one. -/
theorem spares_of_own {α ε : Type} {m : Prog FsSig ε α} {L : Path} (hK : NameOk K)
    (hL : NameOk L) (hne : L ≠ K) (hlock : L ≠ lockPath)
    (hm : Prog.Issues (S := FsSig) (FsCall.Own b L) m) : Spares K m := fun w =>
  ⟨under_of_own hL hK hne hm (Prog.moment_run exec m w),
    lockType_congr (under_of_own hL nameOk_lock hlock hm (Prog.moment_run exec m w))⟩

/-- Locking the cache spares every transfer. -/
theorem lockCache_spares {shared : Bool} (hK : NameOk K) (hne : K ≠ lockPath) :
    Spares K (Root.opened.lockState "cache.lock" shared) := by
  intro w
  refine ⟨?_, ?_⟩
  · refine under_of_own (b := false) nameOk_lock hK hne.symm (own_lockState ?_)
      (Prog.moment_run exec _ w)
    rw [opened_pathOf]
    exact SepPath.Below.refl
  -- No call on the lock changes its type.
  · have hcalls : Calls (fun c => c = .openLock lockPath ∨ c = .flock lockPath shared)
        (Root.opened.lockState "cache.lock" shared) := by
      refine calls_full fun s h => ?_
      have hs : s.utf8 = lockPath := (Root.full_utf8 h).trans (opened_pathOf _)
      rw [hs]
      exact calls_sys (Or.inl rfl) fun _ => Prog.issues_bind (calls_ok _) fun _ =>
        calls_check_bind (calls_sys (Or.inr rfl) fun _ => calls_ok _)
    refine (hcalls.spec (I := fun v : Disk => v.tree.lockType = w.tree.lockType) ?_ rfl).run
    rintro c v (rfl | rfl) hv
    · exact (openLock_lockType v).trans hv
    · exact (Disk.attempt_tree (P := fun t => t.lockType = v.tree.lockType) rfl fun _ _ h => by
        cases h
        rfl).trans hv

end

/-! ### Operations on stores of many contexts -/

/-- The disk as an operation finds it: with its own faults, times and clock. -/
def Disk.at (w : Disk) (env : Env) : Disk := { w with env := env, tick := 0 }

namespace Context

/-- What can be done with the store of a context. -/
inductive Op where
  | open
  | receive (hashes : List Hash) (index : Nat) (reader : Reading)
  | clear
  | drop

/-- An operation on the store of a context, with the environment it runs in. -/
structure Event where
  context : Context
  op : Op
  env : Env

/-- The cache directory and the stores that are open on it. -/
structure Stores where
  disk : Disk
  store : Context → Option Store

variable [Sha256]

/-- The operation, on the store of its context if it is open. -/
def Event.prog (e : Event) (store : Option Store) : FsM (Option Store) :=
  match e.op, store with
  | .open, _ => do
    let scope ← (e.context.scope : Except Error Hash)
    let store ← Store.openShared .opened scope (e.context.description [])
    pure (some store)
  | _, none => pure none
  | .receive hashes index reader, some store => do
    let store ← store.receiveFrom (e.context.description hashes) index reader
    pure (some store)
  | .clear, some store => do
    let store ← store.clear
    pure (some store)
  | .drop, some store => do
    store.drop
    pure none

/-- An operation that fails leaves the store of its context open, or closed, as it was. -/
def Stores.step (s : Stores) (e : Event) : Stores :=
  let r := (e.prog (s.store e.context)).run exec (s.disk.at e.env)
  ⟨r.2, Function.update s.store e.context (match r.1 with
    | .ok store => store
    | .error _ => s.store e.context)⟩

/-- A run of operations on the stores of many contexts. -/
def Stores.run (s : Stores) (es : List Event) : Stores := es.foldl Stores.step s

/-! ### Runs of operations -/

variable {t : Context} {k : String} {e : Event} {store : Option Store}

/-- The store of a context works in the directory that its key names. -/
def Rooted (t : Context) (store : Option Store) : Prop :=
  ∀ s ∈ store, ∃ k, t.key = .ok k ∧ s.root.base = k

/-- A key names a transfer. -/
theorem keyName_of_key (hk : t.key = .ok k) : keyName k = true := by
  obtain ⟨-, rfl⟩ := key_ok.mp hk
  exact keyName_key (t.description []) (digest t.scopeInput)

omit [Sha256] in
/-- No key is the name of the lock. -/
theorem key_ne_lock (hk : keyName k = true) : k.utf8 ≠ lockPath := by
  intro h
  have := keyName_length hk
  rw [h] at this
  exact absurd this (by decide)

/-- The base of the store of a context with a key. -/
theorem Rooted.base {s : Store} (hs : Rooted t (some s)) (hk : t.key = .ok k) :
    s.root.base.utf8 = k.utf8 := by
  obtain ⟨k', hk', hb⟩ := hs s rfl
  rw [hb, Except.ok.inj (hk'.symm.trans hk)]

/-- What `open` runs once the scope is accepted. -/
theorem scope_of_key (hk : t.key = .ok k) :
    ∃ scope, t.scope = .ok scope ∧ (t.description []).key scope = k := by
  unfold key at hk
  simpa only [bind_eq_ok, pure_eq_ok] using hk

/-- An operation stays in the directory of its context, and opens the lock of the cache. -/
theorem prog_near (hk : e.context.key = .ok k) (hs : Rooted e.context store) :
    Prog.Agrees exec (Near k.utf8) (e.prog store) := by
  have hK := keyName_nameOk (keyName_of_key hk)
  have hne := key_ne_lock (keyName_of_key hk)
  have hpure : ∀ {α ε : Type} {a : α}, Prog.Agrees exec (Near k.utf8) (pure a : Prog FsSig ε α) :=
    fun _ _ h => ⟨rfl, h⟩
  unfold Event.prog
  cases e.op with
  | «open» =>
    obtain ⟨scope, hscope, hkey⟩ := scope_of_key hk
    simp only [hscope]
    -- opening a store takes the lock of the cache first, and then works in its own directory
    have hopen : Prog.Agrees exec (Near k.utf8)
        (Store.openShared .opened scope (e.context.description [])) :=
      (lockCache_agrees hK hne).bind fun _ =>
        near_of_own hK hne (Store.own_openLocked (congrArg String.utf8 hkey))
    exact hopen.bind fun _ => hpure
  | receive hashes index reader =>
    cases store with
    | none => exact hpure
    | some s => exact (near_of_own hK hne (Store.own_receiveFrom (hs.base hk) hK)).bind fun _ => hpure
  | clear =>
    cases store with
    | none => exact hpure
    | some s => exact (near_of_own hK hne (Store.own_clear (hs.base hk) hK)).bind fun _ => hpure
  | drop =>
    cases store with
    | none => exact hpure
    | some s => exact (near_of_own hK hne (Store.own_drop (hs.base hk) hK)).bind fun _ => hpure

/-- An operation leaves the directory of another context as it is. -/
theorem prog_spares {K : Path} (hk : e.context.key = .ok k) (hs : Rooted e.context store)
    (hK : NameOk K) (hKlock : K ≠ lockPath) (hne : k.utf8 ≠ K) : Spares K (e.prog store) := by
  have hL := keyName_nameOk (keyName_of_key hk)
  have hlock := key_ne_lock (keyName_of_key hk)
  have hpure : ∀ {α ε : Type} {a : α}, Spares K (pure a : Prog FsSig ε α) := fun _ => ⟨rfl, rfl⟩
  unfold Event.prog
  cases e.op with
  | «open» =>
    obtain ⟨scope, hscope, hkey⟩ := scope_of_key hk
    simp only [hscope]
    -- the lock of the cache is no transfer, and what follows works in the directory `k`
    have hopen : Spares K (Store.openShared .opened scope (e.context.description [])) :=
      (lockCache_spares hK hKlock).bind fun _ =>
        spares_of_own hK hL hne hlock (Store.own_openLocked (congrArg String.utf8 hkey))
    exact hopen.bind fun _ => hpure
  | receive hashes index reader =>
    cases store with
    | none => exact hpure
    | some s =>
      exact (spares_of_own hK hL hne hlock (Store.own_receiveFrom (hs.base hk) hL)).bind
        fun _ => hpure
  | clear =>
    cases store with
    | none => exact hpure
    | some s =>
      exact (spares_of_own hK hL hne hlock (Store.own_clear (hs.base hk) hL)).bind fun _ => hpure
  | drop =>
    cases store with
    | none => exact hpure
    | some s =>
      exact (spares_of_own hK hL hne hlock (Store.own_drop (hs.base hk) hL)).bind fun _ => hpure

/-- An operation leaves no staged file, and its store works in the directory of the context. -/
theorem prog_tidy (hk : e.context.key = .ok k) (hs : Rooted e.context store) :
    Tidy (e.prog store) ∧ (e.prog store).Returns (Rooted e.context) := by
  have hK := keyName_nameOk (keyName_of_key hk)
  have hpure : Tidy (pure none : FsM (Option Store)) ∧
      (pure none : FsM (Option Store)).Returns (Rooted e.context) :=
    ⟨fun _ hw => hw, fun _ h => by cases h⟩
  -- The store that is returned has the root of the one before.
  have hsame : ∀ {s : Store}, Rooted e.context (some s) → ∀ s' : Store, s'.root = s.root →
      Rooted e.context (some s') := by
    intro s hs s' hr x hx
    obtain rfl := Option.some.inj hx
    obtain ⟨k, hk, hb⟩ := hs s rfl
    exact ⟨k, hk, hr ▸ hb⟩
  unfold Event.prog
  cases e.op with
  | «open» =>
    obtain ⟨scope, hscope, hkey⟩ := scope_of_key hk
    simp only [hscope]
    constructor
    · have hopen : Tidy (Store.openShared .opened scope (e.context.description [])) := by
        refine tidy_bind (tidy_of_own (K := lockPath) (own_lockState ?_)) fun _ =>
          Store.tidy_openLocked
        rw [opened_pathOf]
        exact SepPath.Below.refl
      show Tidy (Store.openShared .opened scope (e.context.description [])
        >>= fun s => pure (some s))
      exact tidy_bind hopen fun _ _ hw => hw
    · have hopen : (Store.openShared .opened scope (e.context.description [])).Returns
          fun s => s.root.base = k :=
        Prog.returns_bind fun _ => Store.returns_openLocked.imp fun s hb => hb.trans hkey
      show Prog.Returns _ (Store.openShared .opened scope (e.context.description [])
        >>= fun s => pure (some s))
      refine Prog.returns_bind_returns hopen fun s hb => ?_
      intro x hx
      obtain rfl := Option.some.inj hx
      exact ⟨k, hk, hb⟩
  | receive hashes index reader =>
    cases store with
    | none => exact hpure
    | some s =>
      exact ⟨tidy_bind (Store.tidy_receiveFrom (hs.base hk) hK) fun _ _ hw => hw,
        Prog.returns_bind_returns Store.returns_receiveFrom (hsame hs)⟩
  | clear =>
    cases store with
    | none => exact hpure
    | some s =>
      exact ⟨tidy_bind (Store.tidy_clear (hs.base hk) hK) fun _ _ hw => hw,
        Prog.returns_bind_returns Store.returns_clear (hsame hs)⟩
  | drop =>
    cases store with
    | none => exact hpure
    | some s =>
      exact ⟨tidy_bind Store.tidy_drop fun _ _ hw => hw,
        Prog.returns_bind fun _ _ h => by cases h⟩

/-- A context that is not accepted has no store, and no operation does anything. -/
theorem step_unkeyed {s : Stores} (hk : ∀ k, e.context.key ≠ .ok k)
    (hs : Rooted e.context (s.store e.context)) : s.step e = ⟨s.disk.at e.env, s.store⟩ := by
  have hnone : s.store e.context = none := by
    rcases h : s.store e.context with _ | x
    · rfl
    · obtain ⟨k, hk', -⟩ := hs x h
      exact absurd hk' (hk k)
  -- Without a key nothing is open and nothing can be opened.
  have hrun : (e.prog none).run exec (s.disk.at e.env) = (.ok none, s.disk.at e.env) ∨
      ∃ err, (e.prog none).run exec (s.disk.at e.env) = (.error err, s.disk.at e.env) := by
    unfold Event.prog
    cases e.op with
    | «open» =>
      cases hscope : e.context.scope with
      | error err => exact Or.inr ⟨err, rfl⟩
      | ok scope =>
        refine absurd ?_ (hk ((e.context.description []).key scope))
        simp only [key, hscope]
        rfl
    | _ => exact Or.inl rfl
  have hup : Function.update s.store e.context none = s.store := by
    rw [← hnone]
    exact Function.update_eq_self _ _
  unfold Stores.step
  rw [hnone]
  rcases hrun with h | ⟨err, h⟩ <;> rw [h] <;> exact congrArg _ hup

/-- Two states that the store of the context `t` cannot tell apart. -/
structure Matched (t : Context) (a b : Stores) : Prop where
  temp : a.disk.temp = none
  temp' : b.disk.temp = none
  rooted : ∀ u, Rooted u (a.store u)
  rooted' : ∀ u, Rooted u (b.store u)
  store : a.store t = b.store t
  under : ∀ k, t.key = .ok k → a.disk.tree.under k.utf8 = b.disk.tree.under k.utf8 ∧
    a.disk.tree.lockType = b.disk.tree.lockType

variable {a b : Stores}

/-- The stores stay in the directories of their keys. -/
theorem rooted_step (hs : ∀ u, Rooted u (a.store u)) (u : Context) :
    Rooted u ((a.step e).store u) := by
  by_cases hk : ∃ k, e.context.key = .ok k
  · obtain ⟨k, hk⟩ := hk
    show Rooted u (Function.update a.store e.context _ u)
    by_cases hu : u = e.context
    · subst hu
      rw [Function.update_self]
      split
      · next s hr => exact (prog_tidy hk (hs e.context)).2.run hr
      · exact hs _
    · rw [Function.update_of_ne hu]
      exact hs u
  · rw [step_unkeyed (not_exists.mp hk) (hs _)]
    exact hs u

/-- What an operation does to the store of its own context. -/
theorem step_store_self : (a.step e).store e.context
    = match ((e.prog (a.store e.context)).run exec (a.disk.at e.env)).1 with
      | .ok store => store
      | .error _ => a.store e.context := Function.update_self ..

/-- An operation leaves the stores of all other contexts. -/
theorem step_store_other (h : t ≠ e.context) : (a.step e).store t = a.store t :=
  Function.update_of_ne h ..

/-- What an operation does to the disk. -/
theorem step_disk : (a.step e).disk
    = ((e.prog (a.store e.context)).run exec (a.disk.at e.env)).2 := rfl

/-- Runs that match are near for the key of the context. -/
theorem Matched.near {env : Env} {k : String} (h : Matched t a b) (hk : t.key = .ok k) :
    Near k.utf8 (a.disk.at env) (b.disk.at env) := by
  obtain ⟨h1, h2⟩ := h.under k hk
  exact ⟨⟨h1, h.temp.trans h.temp'.symm, rfl, rfl⟩, h2⟩

/-- The same operation on the store of the context itself. -/
theorem Matched.own (h : Matched t a b) (he : e.context = t) :
    Matched t (a.step e) (b.step e) := by
  subst he
  by_cases hk : ∃ k, e.context.key = .ok k
  · obtain ⟨k, hk⟩ := hk
    have hnear := prog_near hk (h.rooted e.context) (a.disk.at e.env) (b.disk.at e.env) (h.near hk)
    obtain ⟨h1, h2⟩ := hnear
    refine ⟨?_, ?_, rooted_step h.rooted, rooted_step h.rooted', ?_, fun k' hk' => ?_⟩
    · exact (prog_tidy hk (h.rooted e.context)).1 _ h.temp
    · exact (prog_tidy hk (h.rooted' e.context)).1 _ h.temp'
    · rw [step_store_self, step_store_self, h1, h.store]
    · obtain rfl := Except.ok.inj (hk.symm.trans hk')
      rw [step_disk, step_disk, ← h.store]
      exact ⟨h2.twin.under, h2.lock⟩
  · rw [step_unkeyed (not_exists.mp hk) (h.rooted _), step_unkeyed (not_exists.mp hk) (h.rooted' _)]
    exact ⟨h.temp, h.temp', h.rooted, h.rooted', h.store, h.under⟩

/-- An operation on the store of another context. -/
theorem Matched.other {ts : List Context} (hcf : CollisionFree ts) (ht : t ∈ ts)
    (hu : e.context ∈ ts) (h : Matched t a b) (he : e.context ≠ t) : Matched t (a.step e) b := by
  by_cases hk : ∃ k, e.context.key = .ok k
  · obtain ⟨k, hk⟩ := hk
    refine ⟨?_, h.temp', rooted_step h.rooted, h.rooted', ?_, fun k' hk' => ?_⟩
    · exact (prog_tidy hk (h.rooted e.context)).1 _ h.temp
    · rw [step_store_other (Ne.symm he), h.store]
    · -- The keys differ, because the contexts do.
      have hne : k.utf8 ≠ k'.utf8 := by
        intro hkk
        obtain rfl := String.utf8_injective hkk
        exact he (key_injective hcf hu ht hk hk')
      obtain ⟨h1, h2⟩ := h.under k' hk'
      have hk'' := keyName_of_key hk'
      obtain ⟨h3, h4⟩ := prog_spares hk (h.rooted e.context) (keyName_nameOk hk'')
        (key_ne_lock hk'') hne (a.disk.at e.env)
      exact ⟨h3.trans h1, h4.trans h2⟩
  · rw [step_unkeyed (not_exists.mp hk) (h.rooted _)]
    exact ⟨h.temp, h.temp', h.rooted, h.rooted', h.store, h.under⟩

/-- Leaving out the operations on the stores of other contexts. -/
theorem Matched.run {ts : List Context} (hcf : CollisionFree ts) (ht : t ∈ ts) {es : List Event}
    (hes : ∀ e ∈ es, e.context ∈ ts) (h : Matched t a b) :
    Matched t (a.run es) (b.run (es.filter fun e => e.context = t)) := by
  induction es generalizing a b with
  | nil => exact h
  | cons e es ih =>
    have hrest : ∀ e ∈ es, e.context ∈ ts := fun e he => hes e (List.mem_cons_of_mem _ he)
    by_cases he : e.context = t
    · rw [List.filter_cons_of_pos (by simpa using he)]
      exact ih hrest (h.own he)
    · rw [List.filter_cons_of_neg (by simpa using he)]
      exact ih hrest (h.other hcf ht (hes e List.mem_cons_self) he)

/-- What `missing` and `assemble` find depends only on the directory. -/
theorem Matched.queries {env : Env} {s : Store} (h : Matched t a b) (hs : a.store t = some s)
    (d : Description) (start : Nat) :
    ((s.missing d start).run exec (a.disk.at env)).1
        = ((s.missing d start).run exec (b.disk.at env)).1 ∧
      ((s.assemble d).run exec (a.disk.at env)).1 = ((s.assemble d).run exec (b.disk.at env)).1 := by
  obtain ⟨k, hk, hbase⟩ := h.rooted t s hs
  have hK := keyName_nameOk (keyName_of_key hk)
  have hne := key_ne_lock (keyName_of_key hk)
  have hb : s.root.base.utf8 = k.utf8 := by rw [hbase]
  have hn : Near k.utf8 (a.disk.at env) (b.disk.at env) := h.near hk
  exact ⟨(near_of_own (b := false) hK hne (Store.own_missing hb hK) _ _ hn).1,
    (near_of_own (b := false) hK hne (Store.own_assemble hb hK) _ _ hn).1⟩

/-- Keys determine contexts, and what the store of a context reports and returns after a run of
operations on many stores is what it would be after the operations on itself alone. -/
theorem contexts_apart (ts : List Context) (hcf : CollisionFree ts) :
    (∀ t ∈ ts, ∀ u ∈ ts, ∀ k, t.key = .ok k → u.key = .ok k → t = u) ∧
    ∀ (w : Disk) (es : List Event), w.temp = none → (∀ e ∈ es, e.context ∈ ts) → ∀ t ∈ ts,
      let all := Stores.run ⟨w, fun _ => none⟩ es
      let own := Stores.run ⟨w, fun _ => none⟩ (es.filter fun e => e.context = t)
      all.store t = own.store t ∧
      ∀ store ∈ all.store t, ∀ (env : Env) (hashes : List Hash) (start : Nat),
        ((store.missing (t.description hashes) start).run exec (all.disk.at env)).1
            = ((store.missing (t.description hashes) start).run exec (own.disk.at env)).1 ∧
          ((store.assemble (t.description hashes)).run exec (all.disk.at env)).1
            = ((store.assemble (t.description hashes)).run exec (own.disk.at env)).1 := by
  refine ⟨fun t ht u hu k => key_injective hcf ht hu, fun w es hw hes t ht => ?_⟩
  have hnone : ∀ u, Rooted u none := fun _ _ h => by cases h
  have hstart : Matched t ⟨w, fun _ => none⟩ ⟨w, fun _ => none⟩ :=
    ⟨hw, hw, hnone, hnone, rfl, fun _ _ => ⟨rfl, rfl⟩⟩
  have h := hstart.run hcf ht hes
  exact ⟨h.store, fun store hs env hashes start => h.queries hs _ start⟩

end Context

/-! ### Two contexts -/

/-- An empty file that one peer pushes, or pulls. -/
def smallContext (push : Bool) : Context :=
  ⟨Vector.replicate 16 0, push, "r", "f", 0, 4096, emptyHash, by decide⟩

/-- What the scopes of the two contexts hash to. -/
def smallScope : Bool → Hash
  | true => #v[0xbd, 0xa7, 0xa6, 0x62, 0x9b, 0xc6, 0x22, 0x94, 0x32, 0x80, 0x9b,
    0x49, 0x53, 0xc2, 0x0e, 0x4b, 0x61, 0x2f, 0x83, 0x6d, 0xd0, 0xa7, 0x91, 0xdc,
    0xa0, 0xe8, 0x17, 0xa9, 0xb0, 0x67, 0xf9, 0xe2]
  | false => #v[0x43, 0xff, 0xca, 0xdf, 0x84, 0x1b, 0x02, 0x25, 0xf0, 0x11, 0x36,
    0x0f, 0x08, 0xdf, 0x38, 0x9e, 0x9d, 0xa4, 0x9d, 0x4a, 0x2a, 0x99, 0x6f, 0x2d,
    0xe8, 0xf7, 0xb8, 0x1b, 0x57, 0xa6, 0xff, 0x6f]

/-- What their keys hash to. -/
def smallKey : Bool → Hash
  | true => #v[0x34, 0x51, 0x7b, 0xe0, 0xf0, 0xe3, 0xda, 0x3c, 0x0b, 0x47, 0x86,
    0x91, 0x90, 0xea, 0x4d, 0x9b, 0x2e, 0x24, 0x10, 0x38, 0x8b, 0x56, 0xea, 0x80,
    0x91, 0x7b, 0x7c, 0x2c, 0x2d, 0x9a, 0xd7, 0x5e]
  | false => #v[0x9e, 0xa7, 0xcc, 0x66, 0x8b, 0xe3, 0x35, 0x58, 0xae, 0xfa, 0x4e,
    0xde, 0x7b, 0x29, 0x06, 0xef, 0xee, 0xeb, 0x7b, 0xd3, 0xf1, 0x2c, 0x84, 0x73,
    0x98, 0x86, 0xc1, 0x7b, 0x2c, 0x9f, 0x7d, 0xdb]

/-- SHA-256 on what is hashed for the two contexts. -/
@[reducible] def smallSha : Sha256 := ⟨fun x =>
  if x = (smallContext true).scopeInput then smallScope true
  else if x = (smallContext false).scopeInput then smallScope false
  else if x = (smallContext true).keyInput (smallScope true) then smallKey true
  else if x = (smallContext false).keyInput (smallScope false) then smallKey false
  else emptyHash⟩

/-- A push and a pull of one path have different keys, and opening the one store does not change
what the other one is. -/
theorem contexts_apart_small : ∃ k k',
    @Context.key smallSha (smallContext true) = .ok k ∧
    @Context.key smallSha (smallContext false) = .ok k' ∧ k ≠ k' ∧
    (@Context.Stores.run smallSha ⟨.empty, fun _ => none⟩
        [⟨smallContext true, .open, Disk.empty.env⟩, ⟨smallContext false, .open, Disk.empty.env⟩]).store
        (smallContext true)
      = (@Context.Stores.run smallSha ⟨.empty, fun _ => none⟩
        [⟨smallContext true, .open, Disk.empty.env⟩]).store (smallContext true) := by
  have hdigest : ∀ push, @digest smallSha (smallContext push).scopeInput = smallScope push ∧
      @digest smallSha ((smallContext push).keyInput (smallScope push)) = smallKey push := by
    decide +kernel
  have hcf : @Context.CollisionFree smallSha [smallContext true, smallContext false] := by
    -- four inputs are hashed in all, and their values are all different
    have hinputs : ∀ x, @Context.Hashed smallSha [smallContext true, smallContext false] x →
        x ∈ [(smallContext true).scopeInput, (smallContext true).keyInput (smallScope true),
          (smallContext false).scopeInput, (smallContext false).keyInput (smallScope false)] := by
      rintro x ⟨t, ht, hx⟩
      simp only [List.mem_cons, List.not_mem_nil, or_false] at ht ⊢
      rcases ht with rfl | rfl <;> rw [(hdigest _).1] at hx <;> tauto
    have hfree : ∀ x ∈ [(smallContext true).scopeInput, (smallContext true).keyInput (smallScope true),
          (smallContext false).scopeInput, (smallContext false).keyInput (smallScope false)],
        ∀ y ∈ [(smallContext true).scopeInput, (smallContext true).keyInput (smallScope true),
          (smallContext false).scopeInput, (smallContext false).keyInput (smallScope false)],
        @digest smallSha x = @digest smallSha y → x = y := by decide +kernel
    exact fun x y hx hy => hfree x (hinputs x hx) y (hinputs y hy)
  have hkey : ∀ push, ∃ k, @Context.key smallSha (smallContext push) = .ok k := fun push =>
    ⟨_, (@Context.key_ok (smallContext push) smallSha _).mpr
      ⟨⟨rfl, by cases push <;> decide, by cases push <;> decide, by cases push <;> decide⟩, rfl⟩⟩
  obtain ⟨k, hk⟩ := hkey true
  obtain ⟨k', hk'⟩ := hkey false
  obtain ⟨h1, h2⟩ := @Context.contexts_apart smallSha _ hcf
  refine ⟨k, k', hk, hk', ?_, ?_⟩
  · rintro rfl
    have h := h1 _ List.mem_cons_self _ (by simp) k hk hk'
    exact absurd (congrArg Context.push h) (by decide)
  · have h := (h2 .empty [⟨smallContext true, .open, Disk.empty.env⟩,
      ⟨smallContext false, .open, Disk.empty.env⟩] rfl (by simp) _ List.mem_cons_self).1
    have hfilter : [(⟨smallContext true, .open, Disk.empty.env⟩ : Context.Event),
        ⟨smallContext false, .open, Disk.empty.env⟩].filter
          (fun e => e.context = smallContext true)
        = [⟨smallContext true, .open, Disk.empty.env⟩] := by
      rw [List.filter_cons_of_pos (by simp), List.filter_cons_of_neg (by decide)]
      rfl
    rw [hfilter] at h
    exact h

end RrSync

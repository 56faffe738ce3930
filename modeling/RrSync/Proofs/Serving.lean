import RrSync.Proofs.Receive
import RrSync.Proofs.Scannable
import RrSync.Proofs.Splitting

/-!
# `RrSync.Proofs.Serving`: the store on a disk without failures

Each operation of the store succeeds on a disk on which no call fails, nothing is staged and the
clock can be read (`Disk.Serves`). Each lemma says which view the disk shows afterwards.

`receive_all` is the run of a transfer, for chunks that arrive in any order and any number of
times: the slots that hold a chunk are the ones that have received it.
-/

set_option autoImplicit false

namespace RrSync

open Lib

/-- No call fails, nothing is staged, and the clock can be read. -/
structure Disk.Serves (w : Disk) (v : View) : Prop where
  shows : w.Shows v
  temp : w.temp = none
  clock : ∀ k, ∃ s, w.env.seconds k = some s

/-- The program succeeds. -/
abbrev Goes {α : Type} (m : FsM α) (w : Disk) (Q : α → Disk → Prop) : Prop :=
  Does (fun _ => True) m w Q

section
variable {α : Type} {w w' : Disk} {v : View} {root : Root} {path : String}

/-- No program changes what the environment does. -/
theorem Goes.env {m : FsM α} {Q : α → Disk → Prop} (hm : Goes m w Q) :
    Goes m w fun a w' => Q a w' ∧ w'.env = w.env := by
  exact Prog.Succeeds.moment hm fun w' hw' => hw'.invariant (I := fun w' => w'.env = w.env) rfl
    fun c v hv => (exec_env_journal c v).1.trans hv

/-- A disk serves a view as long as its clock does not change. -/
theorem Disk.Serves.of_env (hw : w.Serves v) {v' : View} (hs : w'.Shows v') (ht : w'.temp = none)
    (he : w'.env = w.env) : w'.Serves v' := ⟨hs, ht, he ▸ hw.clock⟩

/-- A program that ends with nothing staged leaves a disk that serves. -/
theorem Goes.serves {m : FsM α} {R : α → View → Prop} (hw : w.Serves v)
    (hm : Goes m w fun a w' => ∃ v', w'.Shows v' ∧ w'.temp = none ∧ R a v') :
    Goes m w fun a w' => ∃ v', w'.Serves v' ∧ R a v' := by
  refine hm.env.imp ?_
  rintro a w' ⟨⟨v', hs, ht, hr⟩, he⟩
  exact ⟨v', hw.of_env hs ht he, hr⟩

/-- A program that reads and returns a value leaves the disk. -/
theorem goes_reads {m : FsM α} (hm : Calls FsCall.Reads m) {a : α}
    (h : (m.run exec w).1 = .ok a) : Goes m w fun b w' => a = b ∧ w = w' :=
  (quiet_of_reads hm).succeeds trivial h ⟨rfl, rfl⟩

/-! ### Locks and the clock -/

/-- A lock is opened or made where no other object is. -/
theorem exec_openLock (hw : w.Shows v) (hp : CleanPath (root.pathOf path))
    (hd : v (dirName (root.pathOf path)) = some Core.dir)
    (hv : ∀ c, v (root.pathOf path) = some c → c.1.type = .file) :
    ∃ m w' c, exec (.openLock (root.pathOf path)) w = (.ok m, w') ∧ m.isFile = true ∧
      (v (root.pathOf path) = none ∨ v (root.pathOf path) = some c) ∧ c.1.type = .file ∧
      w'.Shows (Function.update v (root.pathOf path) (some c)) ∧ w'.temp = w.temp := by
  cases hc : v (root.pathOf path) with
  -- A lock that is there is opened, and nothing changes.
  | some c =>
    obtain ⟨n, hn, rfl⟩ := hw.get hc
    have hty := hv _ hc
    have hlink : n.body ≠ .symlink ∧ n.body ≠ .directory := by
      constructor <;>
      · intro hb
        rw [Node.core, hb] at hty
        cases hty
    have hok : Disk.openLock (root.pathOf path) { w with tick := w.tick + 1 }
        = .ok (n.metadata, { w with tick := w.tick + 1 }) :=
      Disk.openLock_ok.mpr (Or.inl ⟨n, hn, hlink, rfl, rfl⟩)
    refine ⟨_, _, n.core, hw.attempt_ok hok, decide_eq_true hty, Or.inr rfl, hty, ?_, rfl⟩
    rw [← hc, Function.update_eq_self]
    exact hw.tick
  -- A new one is an empty file.
  | none =>
    have hnone := hw.get_none hc
    have hnot : ¬ w.tree.IsDir (root.pathOf path) := fun h => by
      rw [hw.isDir.mp h] at hc
      cases hc
    have hfits : w.tree.Fits (root.pathOf path)
        ⟨.file [], ({ w with tick := w.tick + 1 } : Disk).now, w.tick + 1⟩ :=
      ⟨hp, hw.isDir.mpr hd, Or.inr (Tree.leaf_of_not_isDir hnot)⟩
    refine ⟨_, _, Core.file [] ({ w with tick := w.tick + 1 } : Disk).now, hw.attempt_ok (Disk.openLock_ok.mpr (Or.inr
      ⟨hnone, rfl, hfits, rfl⟩)), rfl, Or.inl rfl, rfl, ?_, rfl⟩
    refine hw.tick.touchDir ?_ ?_ _
    · rw [view_put, hw.view]
      rfl
    · rw [Function.update_of_ne (SepPath.dirName_ne hp.ne_nil)]
      exact hd

/-- A free lock is taken. -/
theorem exec_flock (hw : w.Shows v) {p : Path} {shared : Bool} :
    exec (.flock p shared) w = (.ok (), { w with tick := w.tick + 1 }) := by
  show w.attempt (fun w => pure ((), w)) = _
  exact hw.attempt_ok rfl

/-- `lock_state` succeeds where a lock is or can be made. -/
theorem does_lockState {shared : Bool} (hp : root.Takes path) (hw : w.Shows v)
    (hd : v (dirName (root.pathOf path)) = some Core.dir)
    (hv : ∀ c, v (root.pathOf path) = some c → c.1.type = .file) :
    Goes (root.lockState path shared) w fun _ w' => w'.temp = w.temp ∧ ∃ c : Core,
      (v (root.pathOf path) = none ∨ v (root.pathOf path) = some c) ∧ c.1.type = .file ∧
        w'.Shows (Function.update v (root.pathOf path) (some c)) := by
  have hu : (root.joined path).utf8 = root.pathOf path := root.utf8_joined path
  unfold Root.lockState
  refine Prog.Succeeds.bind (Q := fun s' w' => root.joined path = s' ∧ w = w')
    (Prog.succeeds_lift hp.full ⟨rfl, rfl⟩) ?_
  rintro _ _ ⟨rfl, rfl⟩
  rw [hu]
  obtain ⟨m, w₁, c, hx, hm, hold, hty, hw₁, ht₁⟩ := exec_openLock hw hp.clean hd hv
  refine does_sys hx trivial ?_
  refine Prog.Succeeds.bind (Q := fun m' w' => m = m' ∧ w₁ = w') (does_ok ⟨rfl, rfl⟩) ?_
  rintro _ _ ⟨rfl, rfl⟩
  rw [if_neg (by rw [hm]; simp)]
  exact does_sys (exec_flock hw₁) trivial (does_ok ⟨ht₁, c, hold, hty, hw₁.tick⟩)

/-- The same on a disk that serves. -/
theorem goes_lockState {shared : Bool} (hp : root.Takes path) (hw : w.Serves v)
    (hd : v (dirName (root.pathOf path)) = some Core.dir)
    (hv : ∀ c, v (root.pathOf path) = some c → c.1.type = .file) :
    Goes (root.lockState path shared) w fun _ w' => ∃ v', w'.Serves v' ∧ ∃ c : Core,
      (v (root.pathOf path) = none ∨ v (root.pathOf path) = some c) ∧ c.1.type = .file ∧
        v' = Function.update v (root.pathOf path) (some c) := by
  refine Goes.serves hw ((does_lockState hp hw.shows hd hv).imp ?_)
  rintro _ w' ⟨ht, c, hold, hty, hw'⟩
  exact ⟨_, hw', ht.trans hw.temp, c, hold, hty, rfl⟩

/-- The clock of a disk that serves tells the time. -/
theorem goes_now (hw : w.Serves v) : Goes now w fun _ w' => w'.Serves v := by
  obtain ⟨s, hs⟩ := hw.clock w.tick
  have hx : exec .seconds w = (some s, { w with tick := w.tick + 1 }) := Prod.ext hs rfl
  refine does_sys hx trivial ?_
  exact Prog.succeeds_pure ⟨hw.shows.tick, hw.temp, hw.clock⟩

/-! ### Directories and files -/

/-- Below a directory, only the last step of a `mkdir` is new. -/
theorem goes_mkdir (hp : root.Takes path) (hw : w.Serves v)
    (hd : v (dirName (root.pathOf path)) = some Core.dir)
    (hv : ∀ c, v (root.pathOf path) = some c → c = Core.dir) :
    Goes (root.mkdir path) w fun _ w' =>
      w'.Serves (Function.update v (root.pathOf path) (some Core.dir)) := by
  have hclean := hp.clean
  have hdir := hw.shows.isDir.mpr hd
  -- All above it are directories already, so only the path itself may be new.
  have habove : ∀ q, q ≠ [] → Below (dirName (root.pathOf path)) q → v q = some Core.dir :=
    fun q _ hb => hw.shows.isDir.mp (isDir_of_below hdir hb)
  have hmk : makeTo v (root.pathOf path)
      = Function.update v (root.pathOf path) (some Core.dir) := by
    have h := makeTo_child (SepPath.Clean.baseName hclean) (by
      rw [hclean.join_dirName]
      exact hclean.ne_nil) habove
    rwa [hclean.join_dirName] at h
  have hgo : Goes (root.mkdir path) w fun _ w' => ∃ v', w'.Shows v' ∧ w'.temp = none ∧
      v' = Function.update v (root.pathOf path) (some Core.dir) := by
    refine (does_mkdir hp.full hw.shows (fun q hq hb => ?_) trivial fun _ _ _ => trivial).imp ?_
    · by_cases he : root.pathOf path = q
      · subst he
        cases hc : v (root.pathOf path) with
        | none => exact Or.inl rfl
        | some c => exact Or.inr (congrArg some (hv c hc))
      · exact Or.inr (habove q hq (hb.dirName he))
    · rintro _ w' ⟨h1, h2⟩
      exact ⟨_, h1, h2.trans hw.temp, hmk⟩
  refine (Goes.serves hw hgo).imp ?_
  rintro _ w' ⟨v', h1, rfl⟩
  exact h1

variable [Sha256]

/-- Staging content whose bytes are as announced. -/
theorem does_stageContent {data : Bytes} {size : Nat} {hash : Hash} (hp : root.Takes path)
    (hw : w.Shows v) (hd : v (dirName (root.pathOf path)) = some Core.dir)
    (hsize : data.length = size) (hhash : hash = digest data) {reader : List Bytes}
    (hreader : reader.flatten = data) :
    Goes (root.stageContent path reader size hash) w fun staged w' =>
      staged = ⟨dirName (root.pathOf path), baseName (root.pathOf path)⟩ ∧ w'.Shows v ∧
      ∃ time, w'.temp = some ⟨dirName (root.pathOf path), data, time⟩ := by
  refine Prog.Succeeds.bind (does_parent hp hw trivial hd) ?_
  rintro _ _ ⟨rfl, rfl⟩
  -- The temporary file is made in the directory, filled and synced.
  obtain ⟨w1, time, hc, hw1, ht1⟩ := exec_createTemp hw hd
  refine does_sys hc trivial ?_
  refine Prog.Succeeds.bind (Q := fun _ w' => w1 = w') (does_ok rfl) ?_
  rintro _ _ rfl
  have hfill : Goes (fillTemp path reader size (some hash) none) w1 fun _ w' =>
      w'.Shows v ∧ ∃ time, w'.temp = some ⟨dirName (root.pathOf path), data, time⟩ := by
    refine Prog.Succeeds.bind (does_stageLoop hw1 trivial ht1
      (by rw [List.nil_append, hreader, hsize])) ?_
    rintro all w2 ⟨hall, hw2, time', ht2⟩
    rw [List.nil_append, hreader] at hall
    subst hall
    -- The size and the hash are as expected.
    rw [if_neg (not_not.mpr hsize), if_neg (by simp [hhash])]
    refine Prog.Succeeds.bind (Q := fun _ w' => w2 = w') (Prog.succeeds_pure rfl) ?_
    rintro _ _ rfl
    exact does_sys (exec_syncTemp hw2) trivial (does_ok ⟨hw2.tick, time', ht2⟩)
  refine (Prog.Succeeds.onError hfill).bind ?_
  rintro _ w2 hw2
  exact Prog.succeeds_pure ⟨rfl, hw2⟩

/-- Staging content and putting it in its place. -/
theorem does_put {data : Bytes} {size : Nat} {hash : Hash} (hp : root.Takes path)
    (hw : w.Shows v) (hd : v (dirName (root.pathOf path)) = some Core.dir)
    (hv : v (root.pathOf path) ≠ some Core.dir) (hsize : data.length = size)
    (hhash : hash = digest data) {reader : List Bytes} (hreader : reader.flatten = data) :
    Goes (root.stageContent path reader size hash >>= fun staged => staged.scope staged.commit) w
      fun _ w' => w'.temp = none ∧
        ∃ time, w'.Shows (Function.update v (root.pathOf path) (some (Core.file data time))) := by
  refine Prog.Succeeds.bind (does_stageContent hp hw hd hsize hhash hreader) ?_
  rintro _ w₁ ⟨rfl, hw₁, time, ht₁⟩
  refine Prog.Succeeds.ensuring (does_commit hp.clean hw₁ hd hv ht₁ trivial) ?_
  rintro _ w₂ ⟨hw₂, ht₂⟩
  refine (does_drop hw₂ trivial ht₂).imp ?_
  rintro _ _ rfl
  exact ⟨ht₂, time, hw₂⟩

/-- A file is staged and put into its place. -/
theorem goes_put {data : Bytes} {size : Nat} {hash : Hash} (hp : root.Takes path)
    (hw : w.Serves v) (hd : v (dirName (root.pathOf path)) = some Core.dir)
    (hv : v (root.pathOf path) ≠ some Core.dir) (hsize : data.length = size)
    (hhash : hash = digest data) {reader : List Bytes} (hreader : reader.flatten = data) :
    Goes (root.stageContent path reader size hash >>= fun staged => staged.scope staged.commit) w
      fun _ w' => ∃ v', w'.Serves v' ∧
        ∃ time, v' = Function.update v (root.pathOf path) (some (Core.file data time)) := by
  refine Goes.serves hw ((does_put hp hw.shows hd hv hsize hhash hreader).imp ?_)
  rintro _ w' ⟨ht, time, hw'⟩
  exact ⟨_, hw', ht, time, rfl⟩

end

-- Else a path is evaluated as far as its number allows whenever a program is matched.
attribute [local irreducible] hex8 chunkString

/-! ### A transfer directory -/

section
variable {w : Disk} {v : View} {d : Description} {root : Root} {i : Nat} {c : Core}

/-- The parent of a name below a root is the root. -/
theorem dirName_name {root : Root} {name : String} (hn : NameOk name.utf8) :
    dirName (root.pathOf name) = root.base.utf8 := dirName_join_name hn

/-- What a transfer directory can be like for the operations of its store. -/
structure Usable (root : Root) (d : Description) (v : View) : Prop where
  dir : v root.base.utf8 = some Core.dir
  activity : v (root.pathOf "activity") ≠ some Core.dir
  shard : ∀ i < d.chunkCount, ∀ c, v (root.shardPath i) = some c → c = Core.dir
  chunk : ∀ i < d.chunkCount, ∀ c, v (root.chunkPath i) = some c → c.1.type = .file

/-- In a usable transfer every chunk is laid out as it should be. -/
theorem Usable.laid (h : Usable root d v) (hw : w.Shows v) (hi : i < d.chunkCount) : root.Laid i w.tree := by
  have hview : ∀ p n, w.tree.get p = some n → v p = some n.core := by
    intro p n hn
    rw [← hw.view]
    exact congrArg (Option.map Node.core) hn
  refine ⟨hw.isDir.mpr h.dir, fun n hn => ?_, fun n hn => ?_⟩
  · exact Node.core_eq_dir.mp (h.shard i hi _ (hview _ n hn))
  · exact h.chunk i hi _ (hview _ n hn)

/-- The activity record is new, or as it was. -/
def Touched (root : Root) (v v' : View) : Prop := v' = v ∨ ∃ seconds time,
  v' = Function.update v (root.pathOf "activity") (some (Core.file (activityRecord seconds) time))

/-- A shard is not the record. -/
theorem shardPath_ne_activity : root.shardPath i ≠ root.pathOf "activity" := by
  intro h
  have h1 : (hex8 (i / shardChunks)).utf8 = "activity".utf8 := SepPath.join_injective _ h
  have h2 : "activity".utf8.all isHexDigit = true := h1 ▸ isHexDigit_hex8 _
  exact absurd h2 (by decide)

/-- A shard is not a chunk. -/
theorem shardPath_ne_chunkPath {j : Nat} : root.shardPath i ≠ root.chunkPath j := fun h =>
  Root.not_below_chunkPath (i := i) (Or.inl h)

/-- An object in the transfer is not the transfer. -/
theorem base_ne {p : Path} (hp : dirName p = root.base.utf8) (hne : p ≠ []) :
    root.base.utf8 ≠ p := fun h => SepPath.dirName_ne hne (hp.trans h)

/-- A chunk is not the transfer. -/
theorem chunkPath_ne_base : root.base.utf8 ≠ root.chunkPath i := by
  intro h
  have h1 : (root.shardPath i).length < (root.chunkPath i).length := by
    rw [← Root.dirName_chunkPath]
    exact SepPath.length_dirName_lt Root.chunkPath_ne_nil
  have h2 : (root.base.utf8).length < (root.shardPath i).length := by
    rw [← Root.dirName_shardPath (i := i)]
    exact SepPath.length_dirName_lt Root.shardPath_ne_nil
  rw [h] at h2
  omega

/-- A new record keeps the directory usable. -/
theorem Usable.record (h : Usable root d v) (hc : c ≠ Core.dir) :
    Usable root d (Function.update v (root.pathOf "activity") (some c)) := by
  have hname : NameOk "activity".utf8 := by decide
  refine ⟨?_, ?_, fun i hi x hx => ?_, fun i hi x hx => ?_⟩
  · rw [Function.update_of_ne (base_ne (dirName_name hname) (join_name_ne_nil hname))]
    exact h.dir
  · rw [Function.update_self]
    exact fun he => hc (Option.some.inj he)
  · rw [Function.update_of_ne shardPath_ne_activity] at hx
    exact h.shard i hi x hx
  · rw [Function.update_of_ne (Root.chunkPath_ne_pathOf (by decide))] at hx
    exact h.chunk i hi x hx

/-- A new record leaves a transfer usable. -/
theorem Usable.touched {v' : View} (h : Usable root d v) (ht : Touched root v v') :
    Usable root d v' := by
  rcases ht with rfl | ⟨seconds, time, rfl⟩
  · exact h
  · exact h.record (by simp [Core.file, Core.dir])

/-- So does the directory of a shard. -/
theorem Usable.makeShard (h : Usable root d v) :
    Usable root d (Function.update v (root.shardPath i) (some Core.dir)) := by
  refine ⟨?_, ?_, fun j hj x hx => ?_, fun j hj x hx => ?_⟩
  · rw [Function.update_of_ne (base_ne Root.dirName_shardPath Root.shardPath_ne_nil)]
    exact h.dir
  · rw [Function.update_of_ne shardPath_ne_activity.symm]
    exact h.activity
  · by_cases he : root.shardPath j = root.shardPath i
    · rw [he, Function.update_self] at hx
      exact (Option.some.inj hx).symm
    · rw [Function.update_of_ne he] at hx
      exact h.shard j hj x hx
  · rw [Function.update_of_ne shardPath_ne_chunkPath.symm] at hx
    exact h.chunk j hj x hx

/-- And a file in the slot of a chunk. -/
theorem Usable.fill (h : Usable root d v) (hc : c.1.type = .file) :
    Usable root d (Function.update v (root.chunkPath i) (some c)) := by
  refine ⟨?_, ?_, fun j hj x hx => ?_, fun j hj x hx => ?_⟩
  · rw [Function.update_of_ne chunkPath_ne_base]
    exact h.dir
  · rw [Function.update_of_ne (Root.chunkPath_ne_pathOf (by decide)).symm]
    exact h.activity
  · rw [Function.update_of_ne shardPath_ne_chunkPath] at hx
    exact h.shard j hj x hx
  · by_cases he : root.chunkPath j = root.chunkPath i
    · rw [he, Function.update_self] at hx
      exact Option.some.inj hx ▸ hc
    · rw [Function.update_of_ne he] at hx
      exact h.chunk j hj x hx

end

/-! ### A transfer -/

section
variable [Sha256] {w : Disk} {v : View} {d : Description} {key : String} {hk : keyName key = true}

omit [Sha256] in
/-- A transfer takes every path that is not very long. -/
theorem takes_transfer {path : String} (hv : validate path = .ok ())
    (hlen : path.utf8.length ≤ 4000) : (transferRoot key hk).Takes path := by
  obtain ⟨h1, h2, -⟩ := (transferRoot key hk).full_ok.mp (full_transfer hk hv hlen)
  exact ⟨hv, h2⟩

omit [Sha256] in
/-- The names next to the shards. -/
theorem takes_name {name : String} (hn : NameOk name.utf8) (hlen : name.utf8.length ≤ 255) :
    (transferRoot key hk).Takes name :=
  takes_transfer (validate_of_name hn hlen) (by omega)

/-- Writing the activity record. -/
theorem does_writeActivity {seconds : Nat} (hw : w.Shows v)
    (hd : v (transferRoot key hk).base.utf8 = some Core.dir)
    (ha : v ((transferRoot key hk).pathOf "activity") ≠ some Core.dir) :
    Goes (writeActivity (transferRoot key hk) seconds) w fun _ w' => w'.temp = none ∧
      ∃ time, w'.Shows (Function.update v ((transferRoot key hk).pathOf "activity")
        (some (Core.file (activityRecord seconds) time))) := by
  have hname : NameOk "activity".utf8 := by decide
  refine does_put (takes_name hname (by decide)) hw ?_ ha ?_ rfl (List.append_nil _)
  · rw [dirName_name hname]
    exact hd
  · rw [activityRecord, List.length_append, length_toBytes]
    rfl

/-- The record is written. -/
theorem goes_writeActivity {seconds : Nat} (hw : w.Serves v)
    (hd : v (transferRoot key hk).base.utf8 = some Core.dir)
    (ha : v ((transferRoot key hk).pathOf "activity") ≠ some Core.dir) :
    Goes (writeActivity (transferRoot key hk) seconds) w fun _ w' => ∃ v', w'.Serves v' ∧
      ∃ time, v' = Function.update v ((transferRoot key hk).pathOf "activity")
        (some (Core.file (activityRecord seconds) time)) := by
  refine Goes.serves hw ((does_writeActivity hw.shows hd ha).imp ?_)
  rintro _ w' ⟨ht, time, hw'⟩
  exact ⟨_, hw', ht, time, rfl⟩

namespace Store

variable {store : Store} {i : Nat}

/-- `touch` writes the record or leaves it. -/
theorem goes_touch (hroot : store.root = transferRoot key hk) (hw : w.Serves v)
    (hd : v store.root.base.utf8 = some Core.dir)
    (ha : v (store.root.pathOf "activity") ≠ some Core.dir) :
    Goes store.touch w fun store' w' => store'.root = store.root ∧
      ∃ v', w'.Serves v' ∧ Touched store.root v v' := by
  rw [hroot] at hd ha
  refine Prog.Succeeds.bind (goes_now hw) fun seconds w₁ hw₁ => ?_
  by_cases hs : store.lastActivity ≠ seconds
  · rw [if_pos hs, hroot]
    refine Prog.Succeeds.bind (goes_writeActivity hw₁ hd ha) ?_
    rintro _ w₂ ⟨v', hw₂, time, rfl⟩
    exact Prog.succeeds_pure ⟨rfl, _, hw₂, Or.inr ⟨seconds, time, rfl⟩⟩
  · rw [if_neg hs]
    exact Prog.succeeds_pure ⟨rfl, v, hw₁, Or.inl rfl⟩

/-- `receive` of a chunk that is accepted, without the checks that it passes. -/
theorem receive_eq {file : Bytes} (ha : d.Accepts i file) (hi : i < d.chunkCount) :
    store.receive d i file = store.root.mkdir (hex8 (i / shardChunks)) >>= fun _ =>
      (store.root.stageContent (chunkString i) (reads file) file.length (digest file) >>= fun staged =>
        staged.scope staged.commit) >>= fun _ => store.touch := by
  unfold receive
  rw [name_eq, if_pos hi, Description.length_eq, if_pos hi, chunkHash_eq hi ha.2, ha.1]
  simp only [bind_assoc]
  rfl

/-- Receiving a chunk makes the directory of its shard and fills its slot. -/
theorem goes_receive (hroot : store.root = transferRoot key hk) (hw : w.Serves v)
    (hu : Usable store.root d v) (hi : i < d.chunkCount) {file : Bytes} (ha : d.Accepts i file) :
    Goes (store.receive d i file) w fun store' w' => store'.root = store.root ∧
      ∃ v' time, w'.Serves v' ∧ Touched store.root (Function.update (Function.update v
        (store.root.shardPath i) (some Core.dir)) (store.root.chunkPath i)
          (some (Core.file file time))) v' := by
  have hshard : store.root.Takes (hex8 (i / shardChunks)) := by
    rw [hroot]
    exact takes_name (nameOk_hex8 _) (by simp)
  have hchunk : store.root.Takes (chunkString i) := by
    rw [hroot]
    exact takes_transfer (validate_chunkString i) (by rw [length_chunkString]; omega)
  rw [receive_eq ha hi]
  -- The shard is made first, then the chunk is put into it, and the activity is recorded.
  refine Prog.Succeeds.bind (goes_mkdir hshard hw ?_ (hu.shard i hi)) fun _ w₁ hw₁ => ?_
  · exact (congrArg v Root.dirName_shardPath).trans hu.dir
  have hu₁ : Usable store.root d (Function.update v (store.root.shardPath i) (some Core.dir)) :=
    hu.makeShard
  refine Prog.Succeeds.bind (goes_put hchunk hw₁ ?_ ?_ rfl rfl (reads_flatten file)) ?_
  · exact (congrArg _ Root.dirName_chunkPath).trans (Function.update_self ..)
  · intro he
    have hty := hu₁.chunk i hi _ he
    cases hty
  · rintro _ w₂ ⟨v₂, hw₂, time, rfl⟩
    have hu₂ : Usable store.root d _ := hu₁.fill (i := i) (c := Core.file file time) rfl
    refine (goes_touch hroot hw₂ hu₂.dir hu₂.activity).imp ?_
    rintro store' w₃ ⟨h1, v', hw₃, ht⟩
    exact ⟨h1, v', time, hw₃, ht⟩

/-- What opening a transfer needs of the cache directory. -/
structure Openable (key : String) (hk : keyName key = true) (d : Description) (v : View) : Prop where
  cacheLock : ∀ c, v "cache.lock".utf8 = some c → c.1.type = .file
  dir : ∀ c, v key.utf8 = some c → c = Core.dir
  lock : ∀ c, v ((transferRoot key hk).pathOf "lock") = some c → c.1.type = .file
  activity : v ((transferRoot key hk).pathOf "activity") ≠ some Core.dir
  shard : ∀ i < d.chunkCount, ∀ c, v ((transferRoot key hk).shardPath i) = some c → c = Core.dir
  chunk : ∀ i < d.chunkCount, ∀ c, v ((transferRoot key hk).chunkPath i) = some c →
    c.1.type = .file

omit [Sha256] in
/-- An object in a transfer is not the transfer. -/
theorem transferRoot_path_ne {path : String} (hn : NameOk path.utf8) :
    (transferRoot key hk).pathOf path ≠ key.utf8 := fun h =>
  @base_ne (transferRoot key hk) _ (dirName_name hn) (join_name_ne_nil hn) h.symm

omit [Sha256] in
/-- A transfer lies directly in the cache directory. -/
theorem dirName_key (hk : keyName key = true) : dirName key.utf8 = [] :=
  (SepPath.dirName_eq_nil not_nameOk_nil ((SepPath.clean_of_notMem (keyName_nameOk hk).2.1).mpr
    (keyName_nameOk hk))).mpr (keyName_nameOk hk).2.1

omit [Sha256] in
/-- The cache directory takes every short name. -/
theorem takes_opened {name : String} (hn : NameOk name.utf8) (hlen : name.utf8.length ≤ 255) :
    Root.opened.Takes name := by
  refine ⟨validate_of_name hn hlen, ?_⟩
  rw [opened_pathOf]
  simp only [maxPath]
  omega

/-- Opening a transfer makes its directory, its lock and its record. -/
theorem goes_openLocked {scope : Hash} (hkey : d.key scope = key) (hw : w.Serves v)
    (ho : Openable key hk d v) :
    Goes (openLocked .opened scope d) w fun store w' => store.root = transferRoot key hk ∧
      ∃ c seconds time, (v ((transferRoot key hk).pathOf "lock") = none ∨
          v ((transferRoot key hk).pathOf "lock") = some c) ∧ c.1.type = .file ∧
        w'.Serves (Function.update (Function.update (Function.update v key.utf8 (some Core.dir))
          ((transferRoot key hk).pathOf "lock") (some c)) ((transferRoot key hk).pathOf "activity")
          (some (Core.file (activityRecord seconds) time))) := by
  have hlock : NameOk "lock".utf8 := by decide
  have hact : NameOk "activity".utf8 := by decide
  have hne : (transferRoot key hk).pathOf "activity" ≠ (transferRoot key hk).pathOf "lock" :=
    fun h => absurd (SepPath.join_injective _ h) (by decide)
  have htakes : Root.opened.Takes key :=
    takes_opened (keyName_nameOk hk) (by rw [keyName_length hk]; omega)
  unfold openLocked
  rw [hkey]
  -- The directory of the transfer, its lock, and the record of the activity.
  refine Prog.Succeeds.bind (goes_mkdir htakes hw ?_ ?_) fun _ w₁ hw₁ => ?_
  · rw [opened_pathOf, dirName_key hk]
    exact hw.shows.isDir_nil
  · rw [opened_pathOf]
    exact ho.dir
  rw [opened_pathOf] at hw₁
  refine Prog.Succeeds.bind (Q := fun root w' => transferRoot key hk = root ∧ w₁ = w')
    (Prog.succeeds_lift (subtree_key hk) ⟨rfl, rfl⟩) ?_
  rintro _ _ ⟨rfl, rfl⟩
  refine Prog.Succeeds.bind (goes_lockState (takes_name hlock (by decide)) hw₁ ?_ ?_) ?_
  · rw [dirName_name hlock]
    exact Function.update_self ..
  · rw [Function.update_of_ne (transferRoot_path_ne hlock)]
    exact ho.lock
  rintro _ w₂ ⟨v₂, hw₂, c, hold, hty, rfl⟩
  rw [Function.update_of_ne (transferRoot_path_ne hlock)] at hold
  refine Prog.Succeeds.bind (goes_now hw₂) fun seconds w₃ hw₃ => ?_
  refine Prog.Succeeds.bind (goes_writeActivity hw₃ ?_ ?_) ?_
  · show Function.update _ _ _ key.utf8 = _
    rw [Function.update_of_ne (transferRoot_path_ne hlock).symm]
    exact Function.update_self ..
  · rw [Function.update_of_ne hne, Function.update_of_ne (transferRoot_path_ne hact)]
    exact ho.activity
  · rintro _ w₄ ⟨v₄, hw₄, time, rfl⟩
    exact Prog.succeeds_pure ⟨rfl, c, seconds, time, hold, hty, hw₄⟩

omit [Sha256] in
/-- What opening changes is not in the shards. -/
theorem update_shards {i : Nat} {c₁ c₂ c₃ : Option Core} (p : Path)
    (hp : p = (transferRoot key hk).shardPath i ∨ p = (transferRoot key hk).chunkPath i) :
    Function.update (Function.update (Function.update v key.utf8 c₁)
      ((transferRoot key hk).pathOf "lock") c₂) ((transferRoot key hk).pathOf "activity") c₃ p
        = v p := by
  have hkey : p ≠ key.utf8 := by
    rcases hp with rfl | rfl
    · exact (base_ne Root.dirName_shardPath Root.shardPath_ne_nil).symm
    · exact chunkPath_ne_base.symm
  have hname : ∀ name : String, slash ∉ name.utf8 → name.utf8.all isHexDigit = false →
      p ≠ (transferRoot key hk).pathOf name := by
    intro name hs hd he
    rcases hp with rfl | rfl
    · have h1 : (hex8 (i / shardChunks)).utf8 = name.utf8 := SepPath.join_injective _ he
      rw [← h1, isHexDigit_hex8] at hd
      cases hd
    · exact Root.chunkPath_ne_pathOf hs he
  rw [Function.update_of_ne (hname _ (by decide) (by decide)),
    Function.update_of_ne (hname _ (by decide) (by decide)), Function.update_of_ne hkey]

omit [Sha256] in
/-- A transfer whose directory, lock and record were made is usable. -/
theorem Openable.usable {c x : Core} (ho : Openable key hk d v) (hx : x ≠ Core.dir) :
    Usable (transferRoot key hk) d (Function.update (Function.update (Function.update v key.utf8
      (some Core.dir)) ((transferRoot key hk).pathOf "lock") (some c))
      ((transferRoot key hk).pathOf "activity") (some x)) := by
  have hlock : NameOk "lock".utf8 := by decide
  have hact : NameOk "activity".utf8 := by decide
  refine ⟨?_, ?_, fun i hi y hy => ?_, fun i hi y hy => ?_⟩
  · show Function.update _ _ _ key.utf8 = _
    rw [Function.update_of_ne (transferRoot_path_ne hact).symm,
      Function.update_of_ne (transferRoot_path_ne hlock).symm]
    exact Function.update_self ..
  · rw [Function.update_self]
    exact fun he => hx (Option.some.inj he)
  · rw [update_shards (i := i) _ (Or.inl rfl)] at hy
    exact ho.shard i hi y hy
  · rw [update_shards (i := i) _ (Or.inr rfl)] at hy
    exact ho.chunk i hi y hy

/-- `Store::open` succeeds, and leaves the shards as they were. -/
theorem goes_openShared {scope : Hash} (hkey : d.key scope = key) (hw : w.Serves v)
    (ho : Openable key hk d v) :
    Goes (openShared .opened scope d) w fun store w' => store.root = transferRoot key hk ∧
      ∃ v', w'.Serves v' ∧ Usable store.root d v' ∧
        ∀ i, v' (store.root.chunkPath i) = v (store.root.chunkPath i) := by
  have hname : NameOk "cache.lock".utf8 := by decide
  have hlock : NameOk "lock".utf8 := by decide
  have hact : NameOk "activity".utf8 := by decide
  -- No path of the transfer is the lock of the cache.
  have hbelow : ∀ p, Below p key.utf8 → p ≠ "cache.lock".utf8 := by
    rintro p hb rfl
    have h1 := hb.isPrefix.length_le
    rw [keyName_length hk] at h1
    exact absurd h1 (by decide)
  have hin : ∀ path : String, Below ((transferRoot key hk).pathOf path) key.utf8 := fun path =>
    SepPath.below_join_left (keyName_nameOk hk).1
  refine Prog.Succeeds.bind (goes_lockState (takes_opened hname (by decide)) hw ?_ ?_) ?_
  · rw [opened_pathOf]
    exact hw.shows.isDir_nil
  · rw [opened_pathOf]
    exact ho.cacheLock
  rintro _ w₁ ⟨v₁, hw₁, c, hold, hty, rfl⟩
  rw [opened_pathOf] at hw₁
  have ho₁ : Openable key hk d (Function.update v "cache.lock".utf8 (some c)) := by
    refine ⟨fun x hx => ?_, fun x hx => ?_, fun x hx => ?_, ?_, fun i hi x hx => ?_, fun i hi x hx => ?_⟩
    · rw [Function.update_self] at hx
      exact Option.some.inj hx ▸ hty
    · rw [Function.update_of_ne (hbelow _ SepPath.Below.refl)] at hx
      exact ho.dir x hx
    · rw [Function.update_of_ne (hbelow _ (hin _))] at hx
      exact ho.lock x hx
    · rw [Function.update_of_ne (hbelow _ (hin _))]
      exact ho.activity
    · rw [Function.update_of_ne (hbelow ((transferRoot key hk).shardPath i) (hin _))] at hx
      exact ho.shard i hi x hx
    · rw [Function.update_of_ne (hbelow ((transferRoot key hk).chunkPath i) (hin _))] at hx
      exact ho.chunk i hi x hx
  refine (goes_openLocked hkey hw₁ ho₁).imp ?_
  rintro store w₂ ⟨hroot, c', seconds, time, -, -, hw₂⟩
  refine ⟨hroot, _, hw₂, ?_, fun i => ?_⟩
  · rw [hroot]
    exact ho₁.usable (by simp [Core.file, Core.dir])
  · rw [hroot, update_shards (i := i) _ (Or.inr rfl),
      Function.update_of_ne (hbelow ((transferRoot key hk).chunkPath i) (hin _))]

/-! ### Splitting and assembling -/

/-- Receive the chunks `is` of the file `f`, which the sender cuts by its description `d`, in a
store with the description `d'`. -/
def receiveAll (store : Store) (f : Bytes) (d d' : Description) (is : List Nat) : FsM Store :=
  is.foldlM (fun store i => do store.receive d' i (← chunkFile f d i)) store

/-- A slot holds its chunk when it has received it, and else what it held before. -/
theorem receive_all {f : Bytes} {is : List Nat} (hsize : d.size = f.length)
    (hh : d.hashes = (List.range d.chunkCount).map fun i => digest (d.piece f i))
    (his : ∀ i ∈ is, i < d.chunkCount) (hroot : store.root = transferRoot key hk)
    (hw : w.Serves v) (hu : Usable store.root d v) :
    ∃ store' w', (store.receiveAll f d d is).run exec w = (.ok store', w') ∧
      store'.root = store.root ∧ (∃ v', w'.Serves v' ∧ Usable store.root d v') ∧
      ∀ j < d.chunkCount, store.root.slot j w'.tree
        = if j ∈ is then some (d.piece f j) else store.root.slot j w.tree := by
  -- The invariant of the loop: the store can go on, and the slots are as said.
  induction is generalizing store w v with
  | nil => exact ⟨store, w, rfl, rfl, ⟨v, hw, hu⟩, fun j _ => by simp⟩
  | cons i is ih =>
    have hi := his i List.mem_cons_self
    have hacc := Description.accepts_piece hsize hh hi
    obtain ⟨store₁, w₁, hrun, hr₁, v₁, time, hw₁, ht⟩ := (goes_receive hroot hw hu hi hacc).run
    have hu₁ : Usable store₁.root d v₁ := by
      rw [hr₁]
      exact (hu.makeShard.fill rfl).touched ht
    have hrecv : (store.receiveFrom d i ⟨reads (d.piece f i), none⟩).run exec w = (.ok store₁, w₁) :=
      hrun
    obtain ⟨store', w', hrest, hr', ⟨v', hw', hu'⟩, hslots⟩ :=
      ih (fun j hj => his j (List.mem_cons_of_mem _ hj)) (hr₁.trans hroot) hw₁ hu₁
    rw [hr₁] at hr' hu' hslots
    refine ⟨store', w', ?_, hr', ⟨v', hw', hu'⟩, fun j hj => ?_⟩
    · have hturn : (do store.receive d i (← chunkFile f d i) : FsM Store).run exec w
          = (.ok store₁, w₁) := by
        rw [Description.chunkFile_eq hsize hi]
        exact hrun
      unfold receiveAll
      rw [List.foldlM_cons, Prog.run_bind_ok hturn]
      exact hrest
    · rw [hslots j hj]
      by_cases hmem : j ∈ is
      · rw [if_pos hmem, if_pos (List.mem_cons_of_mem _ hmem)]
      · rw [if_neg hmem]
        by_cases hji : j = i
        · rw [hji, if_pos List.mem_cons_self, (receiveFrom_slot hrecv).1]
          exact congrArg some (reads_flatten _)
        · have hm := Prog.moment_run exec (store.receiveFrom d i ⟨reads (d.piece f i), none⟩) w
          rw [hrecv] at hm
          rw [if_neg (by simp [hji, hmem]), slot_other hj hji hm]

/-- Cutting a file into chunks and assembling them gives the file again, whatever the order in
which the chunks arrive and however often; in between exactly the others are missing. -/
theorem split_assemble (f : Bytes) (c : UInt32) (n : Nat)
    (hcount : Description.count f.length c = .ok n) :
    ∃ d, Description.scan f c = .ok d ∧ d.chunkCount = n ∧
    ∃ d₀, Description.header d.size d.chunkSize d.hash = .ok d₀ ∧
    ∃ d', d.transmit d₀ = .ok d' ∧
    ∀ (scope : Hash) (w : Disk) (v : View), w.Serves v →
      Openable (d'.key scope) (keyName_key d' scope) d' v →
      (∀ i < n, v ((transferRoot (d'.key scope) (keyName_key d' scope)).chunkPath i) = none) →
      ∃ store w', (openShared .opened scope d').run exec w = (.ok store, w') ∧
      ∀ is : List Nat, (∀ i ∈ is, i < n) →
      ∃ store' w'', (store.receiveAll f d d' is).run exec w' = (.ok store', w'') ∧
        (∀ start < n, start % pageChunks = 0 → ((store'.missing d' start).run exec w'').1
          = .ok ((d'.pageIndices start).filter (· ∉ is))) ∧
        ((∀ i < n, i ∈ is) → ((store'.assemble d').run exec w'').1 = .ok f) := by
  obtain ⟨d, hd⟩ := Description.scan_succeeds hcount
  obtain ⟨hsize, hchunk, hhash, hhashes⟩ := Description.scan_hashes hd
  have hn : d.chunkCount = n := by
    obtain ⟨-, rfl⟩ := Description.count_ok.mp hcount
    rw [Description.chunkCount, hsize, hchunk]
  have hfull : d.hashes.length = d.chunkCount := by
    rw [hhashes, List.length_map, List.length_range]
  -- The receiver's description is the sender's.
  refine ⟨d, hd, hn, _, Description.header_eq hd, d, Description.transmit_eq hfull, ?_⟩
  intro scope w v hw ho hempty
  obtain ⟨store, w', hopen, hroot, v', hw', hu, hchunks⟩ := (goes_openShared rfl hw ho).run
  refine ⟨store, w', hopen, fun is his => ?_⟩
  rw [← hn] at his hempty
  obtain ⟨store', w'', hrun, hr', ⟨v'', hw'', hu''⟩, hslots⟩ :=
    receive_all hsize hhashes his hroot hw' hu
  have hnone : ∀ j < d.chunkCount, store.root.slot j w'.tree = none := by
    intro j hj
    have hj' : v' (store.root.chunkPath j) = none := by
      rw [hchunks, hroot]
      exact hempty j hj
    unfold Root.slot
    rw [hw'.shows.get_none hj']
  have hverified : ∀ j < d.chunkCount, (store'.root.Verified d w''.tree j ↔ j ∈ is) := by
    intro j hj
    unfold Root.Verified
    rw [hr', hslots j hj, hnone j hj]
    constructor
    · rintro ⟨file, hf, -⟩
      by_contra hmem
      rw [if_neg hmem] at hf
      cases hf
    · intro hmem
      rw [if_pos hmem]
      exact ⟨_, rfl, Description.accepts_piece hsize hhashes hj⟩
  refine ⟨store', w'', hrun, fun start hstart hpage => ?_, fun hall => ?_⟩
  · rw [run_missing (hr'.trans hroot) hfull.ge (fun i hi => by
      rw [hr']
      exact hu''.laid hw''.shows hi) ⟨hn ▸ hstart, hpage⟩]
    refine congrArg Except.ok (List.filter_congr fun j hj => ?_)
    rw [decide_eq_decide, not_iff_not]
    exact hverified j (Description.mem_pageIndices.mp hj).2.2
  · have hcontent : store'.root.content d w''.tree = f := by
      rw [← Description.flatMap_piece hsize, Root.content]
      refine List.flatMap_congr fun j hj => ?_
      have hj' := List.mem_range.mp hj
      rw [hr', hslots j hj', if_pos (hall j (hn ▸ hj'))]
      rfl
    refine (assemble_ok (hr'.trans hroot) hfull.ge).mpr ⟨fun j hj => ?_, ?_, hcontent.symm⟩
    · exact (hverified j hj).mpr (hall j (hn ▸ hj))
    · rw [hcontent, hhash]

end Store

end

/-- The file has two chunks. -/
theorem pair_count : Description.count pairFile.length 4096 = .ok 2 := by decide +kernel

/-- A file of two chunks, the last of which comes first and once more in the end: in between the first
chunk is missing, and then the file is there. -/
theorem split_assemble_small : ∃ (d : Description) (store store' : Store) (w w' : Disk),
    @Description.scan pairSha pairFile 4096 = .ok d ∧
      ((@Store.missing pairSha store d 0).run exec w).1 = .ok [0] ∧
      ((@Store.assemble pairSha store' d).run exec w').1 = .ok pairFile := by
  -- Of the file only its length matters here, and of the hashes nothing.
  have hcount := pair_count
  generalize pairFile = f at hcount ⊢
  generalize pairSha = sha
  obtain ⟨d, hd, hn, d₀, hd₀, d', hd', hrun⟩ := @Store.split_assemble sha f 4096 2 hcount
  have hw : Disk.empty.Serves Disk.empty.tree.view :=
    ⟨⟨fun _ => rfl, rfl⟩, rfl, fun _ => ⟨0, rfl⟩⟩
  have hnone : ∀ p, p ≠ [] → Disk.empty.tree.view p = none := fun _ hp =>
    Option.map_eq_none_iff.mpr (Tree.get_empty hp)
  have hkey := @keyName_key sha d' pullScope
  have hempty : ∀ {p : Path} {P : Core → Prop}, p ≠ [] →
      ∀ c, Disk.empty.tree.view p = some c → P c := by
    intro p P hp c hc
    rw [hnone p hp] at hc
    cases hc
  have hname : ∀ name : String, NameOk name.utf8 → (transferRoot _ hkey).pathOf name ≠ [] :=
    fun _ hn => join_name_ne_nil hn
  obtain ⟨store, w', -, hall⟩ := hrun pullScope Disk.empty _ hw
    ⟨hempty (by decide), hempty (keyName_nameOk hkey).1, hempty (hname _ (by decide)), by
      rw [hnone _ (hname "activity" (by decide))]
      exact (Option.some_ne_none _).symm,
      fun i _ => hempty Root.shardPath_ne_nil, fun i _ => hempty Root.chunkPath_ne_nil⟩
    (fun i _ => hnone _ Root.chunkPath_ne_nil)
  obtain ⟨store₁, w₁, -, hmissing, -⟩ := hall [1] (by simp)
  obtain ⟨store₂, w₂, -, -, hass⟩ := hall [1, 0, 1] (by simp)
  have hsame : d' = d := by
    obtain ⟨-, -, -, hh⟩ := @Description.scan_hashes d f sha 4096 hd
    have h0 := (@Description.header_eq d f sha 4096 hd).symm.trans hd₀
    cases h0
    have hfull : d.hashes.length = d.chunkCount := by
      rw [hh, List.length_map, List.length_range]
    exact (Except.ok.inj ((Description.transmit_eq hfull).symm.trans hd')).symm
  rw [hsame] at hmissing hass
  refine ⟨d, store₁, store₂, w₁, w₂, hd, ?_, hass fun i hi => ?_⟩
  · rw [hmissing 0 (by decide) rfl, Description.pageIndices, hn]
    rfl
  · have hcases : i = 0 ∨ i = 1 := by omega
    rcases hcases with rfl | rfl <;> simp

end RrSync

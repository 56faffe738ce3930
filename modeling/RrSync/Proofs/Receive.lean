import RrSync.Model.Run
import RrSync.Proofs.Slots

/-!
# `RrSync.Proofs.Receive`: what receiving a chunk does to the slots

`stageChunk` is `receive` up to the rename of the staged file. It makes the directory of the
shard and nothing else (`calls_stageChunk`), and it succeeds only when the reader has given the
bytes of the chunk (`stageChunk_run`). The rename is the one call that changes a slot, and
`receiveFrom_slot` and `receiveFrom_error` say what a run has done to the slots when it ends.

`store_exact` collects what the chunk store reports, stores and returns.
-/

set_option autoImplicit false

namespace RrSync

open Lib

section
variable [Sha256]

-- Else a path is evaluated as far as its number allows whenever a program is matched.
attribute [local irreducible] hex8 chunkString

/-! ### Staging with a reader that may fail -/

section
variable {E : Effect} {root : Root} {path : String} {reader : Reading} {size : Nat}
  {hash : Option Hash} {mtime : Option (Int64 × UInt32)} {w w' : Disk}

/-- A file is staged in the directory of its path, whatever the reader does. -/
theorem calls_stageFrom (hd : E.Stamps (dirName (root.pathOf path))) :
    Calls (FsCall.Safe E) (root.stageFrom path reader size hash mtime) ∧
    (root.stageFrom path reader size hash mtime).Returns fun staged =>
      CleanPath (root.pathOf path) ∧
        staged = ⟨dirName (root.pathOf path), baseName (root.pathOf path)⟩ := by
  -- The calls on the staged file have no effect on the tree.
  have hfill : Calls (FsCall.Safe E) (fillTempFrom path reader size hash mtime) := by
    refine Prog.issues_bind calls_stageLoop fun seen => ?_
    split
    · trivial
    · refine calls_check_bind (calls_check_bind (Prog.issues_bind calls_stampTemp fun _ => ?_))
      exact calls_sys (c := .syncTemp) (safe_quiet trivial fun _ _ _ h => h) fun _ => calls_ok _
  constructor
  · refine Prog.issues_bind_returns calls_parent.1 (calls_parent (E := E)).2 ?_
    rintro _ ⟨hc, rfl⟩
    have hdir := hc.rooted_dirName
    refine calls_sys (c := .createTemp _) (safe_stamps hdir hd fun _ _ _ h => h) fun _ =>
      Prog.issues_bind (calls_ok _) fun _ => ?_
    exact Prog.issues_bind (Prog.issues_onError hfill (calls_drop hdir hd)) fun _ => trivial
  · refine Prog.returns_bind_returns (calls_parent (E := E)).2 ?_
    rintro _ ⟨hc, rfl⟩
    exact Prog.returns_bind fun _ => Prog.returns_bind fun _ => Prog.returns_bind fun _ => ⟨hc, rfl⟩

/-- Staging succeeds only with a reader that does not fail. -/
theorem stageFrom_run {staged : Staged}
    (h : (root.stageFrom path reader size hash mtime).run exec w = (.ok staged, w')) :
    reader.failure = none ∧
      (root.stageInner path reader.blocks size hash mtime).run exec w = (.ok staged, w') := by
  obtain ⟨blocks, failure⟩ := reader
  cases failure with
  | none => exact ⟨rfl, h⟩
  | some e =>
    -- The loop may return, but the read after it fails.
    unfold Root.stageFrom at h
    obtain ⟨⟨dir, name⟩, w₁, -, h⟩ := Prog.run_bind_eq_ok.mp h
    obtain ⟨_, _, -, h⟩ := run_call h
    obtain ⟨_, -, h⟩ := run_ok_bind h
    obtain ⟨_, _, hfill, -⟩ := Prog.run_bind_eq_ok.mp h
    obtain ⟨_, _, -, hrest⟩ := Prog.run_bind_eq_ok.mp (Prog.run_onError_eq_ok.mp hfill)
    cases hrest

end

namespace Store

variable {store : Store} {d : Description} {i : Nat} {reader : Reading} {w w' : Disk}
  {E : Effect} {key : String} {hk : keyName key = true}

/-- `receive` up to the rename of the staged file. -/
def stageChunk (store : Store) (d : Description) (index : Nat) (reader : Reading) :
    FsM Staged := do
  let name ← (name d index : Except Error String)
  store.root.mkdir (hex8 (index / shardChunks))
  let length ← (d.length index : Except Error Nat)
  let hash ← (d.chunkHash index : Except Error Hash)
  store.root.stageFrom name reader length (some hash) none

/-- `receive` stages the chunk, commits it and writes the record. -/
theorem receiveFrom_eq : store.receiveFrom d i reader = store.stageChunk d i reader >>= fun staged =>
    staged.scope staged.commit >>= fun _ => store.touch := by
  simp only [receiveFrom, stageChunk, bind_assoc]

/-- Staging a chunk of the file, without the checks that it passes. -/
theorem stageChunk_eq (hi : i < d.chunkCount) : store.stageChunk d i reader
    = store.root.mkdir (hex8 (i / shardChunks)) >>= fun _ =>
      (liftM (d.length i) : FsM Nat) >>= fun length => (liftM (d.chunkHash i) : FsM Hash) >>=
        fun hash => store.root.stageFrom (chunkString i) reader length (some hash) none := by
  unfold stageChunk
  rw [name_eq, if_pos hi]
  rfl

/-- A chunk that the file does not have is refused at once. -/
theorem stageChunk_error (hi : ¬ i < d.chunkCount) : store.stageChunk d i reader
    = throw (.protocol "chunk index out of range") := by
  unfold stageChunk
  rw [name_eq, if_neg hi]
  rfl

/-- Staging a chunk makes the directory of its shard. -/
theorem calls_stageChunk (hmk : ∀ q, q ≠ [] → Below (store.root.shardPath i) q →
      E.Makes q ∧ E.Stamps (dirName q)) (hs : E.Stamps (store.root.shardPath i)) :
    Calls (FsCall.Safe E) (store.stageChunk d i reader) ∧
    (store.stageChunk d i reader).Returns fun staged => CleanPath (store.root.chunkPath i) ∧
      staged = ⟨dirName (store.root.chunkPath i), baseName (store.root.chunkPath i)⟩ := by
  have hdir : E.Stamps (dirName (store.root.pathOf (chunkString i))) := by
    rw [show dirName (store.root.pathOf (chunkString i)) = _ from Root.dirName_chunkPath]
    exact hs
  by_cases hi : i < d.chunkCount
  · rw [stageChunk_eq hi]
    constructor
    · refine Prog.issues_bind (calls_mkdir hmk) fun _ => Prog.issues_bind trivial fun length =>
        Prog.issues_bind trivial fun hash => ?_
      exact (calls_stageFrom hdir).1
    · refine Prog.returns_bind fun _ => Prog.returns_bind fun length => Prog.returns_bind fun hash => ?_
      exact (calls_stageFrom hdir).2
  · rw [stageChunk_error hi]
    exact ⟨trivial, trivial⟩

/-- The calls of `receive`: the shard is made, the chunk and the record are put. -/
theorem calls_receiveFrom (hmk : ∀ q, q ≠ [] → Below (store.root.shardPath i) q →
      E.Makes q ∧ E.Stamps (dirName q)) (hs : E.Stamps (store.root.shardPath i))
    (hp : E.Puts (store.root.chunkPath i)) (hd : E.Stamps (dirName (store.root.pathOf "activity")))
    (ha : E.Puts (store.root.pathOf "activity")) :
    Calls (FsCall.Safe E) (store.receiveFrom d i reader) := by
  obtain ⟨h1, h2⟩ := @calls_stageChunk _ store d i reader E hmk hs
  rw [receiveFrom_eq]
  refine Prog.issues_bind_returns h1 h2 ?_
  rintro _ ⟨hc, rfl⟩
  rw [← Root.dirName_chunkPath] at hs
  refine Prog.issues_bind (Prog.issues_ensuring ?_ (RrSync.calls_drop hc.rooted_dirName hs)) fun _ =>
    calls_touch hd ha
  have hj := hc.join_dirName
  exact calls_commit (by rwa [hj]) hc.rooted_dirName (SepPath.Clean.baseName hc) hs (by rwa [hj])

/-- A chunk that is staged has the length and the hash of the description. -/
theorem stageChunk_run {staged : Staged}
    (h : (store.stageChunk d i reader).run exec w = (.ok staged, w')) :
    reader.failure = none ∧ i < d.chunkCount ∧ d.Accepts i reader.blocks.flatten ∧
      CleanPath (store.root.chunkPath i) ∧
      staged = ⟨dirName (store.root.chunkPath i), baseName (store.root.chunkPath i)⟩ ∧
      ∃ time, w'.temp = some ⟨dirName (store.root.chunkPath i), reader.blocks.flatten, time⟩ := by
  unfold stageChunk at h
  obtain ⟨name, w₁, hname, h⟩ := Prog.run_bind_eq_ok.mp h
  obtain ⟨hname, -⟩ := Prog.run_lift_eq_ok.mp hname
  obtain ⟨_, w₂, -, h⟩ := Prog.run_bind_eq_ok.mp h
  obtain ⟨length, w₃, hlen, h⟩ := Prog.run_bind_eq_ok.mp h
  obtain ⟨hash, w₄, hhash, h⟩ := Prog.run_bind_eq_ok.mp h
  obtain ⟨hi, rfl⟩ := Description.length_ok.mp (Prog.run_lift_eq_ok.mp hlen).1
  obtain ⟨-, hx⟩ := Description.chunkHash_ok.mp (Prog.run_lift_eq_ok.mp hhash).1
  rw [name_eq, if_pos hi] at hname
  cases hname
  obtain ⟨hf, h⟩ := stageFrom_run h
  obtain ⟨hclean, rfl, hsize, hdig, time, ht, -⟩ := stageInner_run h
  exact ⟨hf, hi, ⟨hsize, by rw [hx, hdig hash rfl]⟩, hclean, rfl, time, ht⟩

/-! ### The slots -/

/-- The object at the path of the chunk `j` keeps its bytes. -/
def KeepsSlot (store : Store) (j : Nat) : Effect := fun q old new =>
  q = store.root.chunkPath j → new.map Node.body = old.map Node.body

omit [Sha256] in
/-- A new time leaves every slot. -/
theorem keepsSlot_stamps {q : Path} {j : Nat} : Effect.Stamps (KeepsSlot store j) q := by
  rintro old new ⟨n, n', rfl, rfl, hb⟩ -
  simp [hb]

omit [Sha256] in
/-- Making the directory of a shard leaves every slot as it is. -/
theorem keepsSlot_shard {j : Nat} {q : Path} (hb : Below (store.root.shardPath i) q) :
    Effect.Makes (KeepsSlot store j) q ∧ Effect.Stamps (KeepsSlot store j) (dirName q) :=
  ⟨fun _ _ hq => absurd (hq ▸ hb) Root.not_below_chunkPath, keepsSlot_stamps⟩

omit [Sha256] in
/-- A file elsewhere leaves the slot. -/
theorem keepsSlot_puts {q : Path} {j : Nat} (h : q ≠ store.root.chunkPath j) :
    Effect.Puts (KeepsSlot store j) q := fun _ _ _ _ _ hq => absurd hq h

omit [Sha256] in
/-- The record is elsewhere. -/
theorem keepsSlot_activity {j : Nat} :
    Effect.Puts (KeepsSlot store j) (store.root.pathOf "activity") :=
  keepsSlot_puts fun h => Root.chunkPath_ne_pathOf (by decide) h.symm

omit [Sha256] in
/-- A program whose calls leave a slot leaves it at every moment. -/
theorem slot_of_calls {ε α : Type} {m : Prog FsSig ε α} {j : Nat}
    (hm : Prog.Issues (S := FsSig) (FsCall.Safe (KeepsSlot store j)) m) (hw : m.Moment exec w w') :
    store.root.slot j w'.tree = store.root.slot j w.tree :=
  Root.slot_congr (frame_of_issues (R := KeepsSlot store j) hm (fun _ _ _ => rfl)
    (fun _ _ _ _ h1 h2 hq => (h2 hq).trans (h1 hq)) (fun _ hc => hc.2) hw _ rfl)

/-- At every moment of a `receive`, the other slots are as they were. -/
theorem slot_other {j : Nat} (hj : j < d.chunkCount) (hne : j ≠ i)
    (hw : (store.receiveFrom d i reader).Moment exec w w') :
    store.root.slot j w'.tree = store.root.slot j w.tree := by
  by_cases hi : i < d.chunkCount
  · have h1 := Description.chunkCount_lt (d := d)
    have hne' : store.root.chunkPath i ≠ store.root.chunkPath j := fun h =>
      hne (Root.chunkPath_injective (by omega) (by omega) h).symm
    exact slot_of_calls (calls_receiveFrom (fun _ _ hb => keepsSlot_shard hb) keepsSlot_stamps
      (keepsSlot_puts hne') keepsSlot_stamps keepsSlot_activity) hw
  · -- The index is refused before the first call.
    unfold receiveFrom at hw
    rw [name_eq, if_neg hi] at hw
    rcases hw with rfl | hv
    · rfl
    · exact hv.elim

/-- After a `receive` that succeeds the slot holds the bytes of the reader, which are those of
the chunk. -/
theorem receiveFrom_slot {store' : Store}
    (h : (store.receiveFrom d i reader).run exec w = (.ok store', w')) :
    store.root.slot i w'.tree = some reader.blocks.flatten ∧ i < d.chunkCount ∧
      d.Accepts i reader.blocks.flatten := by
  rw [receiveFrom_eq] at h
  obtain ⟨staged, w₁, hstage, h⟩ := Prog.run_bind_eq_ok.mp h
  obtain ⟨-, hi, hacc, hclean, rfl, time, ht⟩ := stageChunk_run hstage
  obtain ⟨_, w₂, hput, htouch⟩ := Prog.run_bind_eq_ok.mp h
  obtain ⟨w₃, hcommit, hdrop⟩ := Prog.run_ensuring_eq_ok.mp hput
  obtain ⟨-, n, hn, hb, -⟩ := commit_run hclean ht hcommit
  have hslot : store.root.slot i w₃.tree = some reader.blocks.flatten :=
    Root.slot_eq_some.mpr ⟨n, hn, hb⟩
  -- Neither the drop of the staged file nor the activity record touches the slot.
  have h₂ : store.root.slot i w₂.tree = store.root.slot i w₃.tree := by
    have hm := Prog.moment_run exec (Staged.drop ⟨dirName (store.root.chunkPath i),
      baseName (store.root.chunkPath i)⟩) w₃
    rw [hdrop] at hm
    exact slot_of_calls (RrSync.calls_drop hclean.rooted_dirName keepsSlot_stamps) hm
  have h₃ : store.root.slot i w'.tree = store.root.slot i w₂.tree := by
    have hm := Prog.moment_run exec store.touch w₂
    rw [htouch] at hm
    exact slot_of_calls (calls_touch keepsSlot_stamps keepsSlot_activity) hm
  exact ⟨(h₃.trans h₂).trans hslot, hi, hacc⟩

/-- A `receive` that fails before it renames has changed no slot. -/
theorem receiveFrom_error {e : Error} {j : Nat}
    (h : (store.receiveFrom d i reader).run exec w = (.error e, w'))
    (hcalls : ∀ dir name, .rename dir name ∉ (store.receiveFrom d i reader).callsOf exec w) :
    store.root.slot j w'.tree = store.root.slot j w.tree := by
  rw [receiveFrom_eq] at h hcalls
  cases hs : (store.stageChunk d i reader).run exec w with
  | mk r w₁ =>
    cases r with
    | ok staged =>
      -- The first call after the staging is the rename.
      refine absurd ?_ (hcalls staged.dir staged.name)
      rw [Prog.callsOf_bind_ok hs]
      exact List.mem_append_right _ List.mem_cons_self
    | error e' =>
      rw [Prog.run_bind_error hs] at h
      cases h
      have hm := Prog.moment_run exec (store.stageChunk d i reader) w
      rw [hs] at hm
      exact slot_of_calls (calls_stageChunk (fun _ _ hb => keepsSlot_shard hb)
        keepsSlot_stamps).1 hm

/-! ### The store as a whole -/

/-- What `length` and `chunk_hash` say of bytes that are accepted. -/
theorem accepts_iff {file : Bytes} (hi : i < d.chunkCount) : d.Accepts i file ↔
    d.length i = .ok file.length ∧ d.chunkHash i = .ok (digest file) := by
  rw [Description.length_ok, Description.chunkHash_ok]
  constructor
  · rintro ⟨h1, h2⟩
    exact ⟨⟨hi, h1.symm⟩, hi, h2⟩
  · rintro ⟨⟨-, h1⟩, -, h2⟩
    exact ⟨h1.symm, h2⟩

/-- The store reports, stores and returns exactly what is verified. -/
theorem store_exact (store : Store) (d : Description) (scope : Hash) (w : Disk)
    (hroot : Root.opened.subtree (d.key scope) = .ok store.root) (hpaged : d.Paged)
    (hlaid : ∀ i < d.chunkCount, store.root.Laid i w.tree) :
    (∀ start, start = 0 ∨ start < d.chunkCount → start % pageChunks = 0 →
      ∃ missing, (store.missing d start).run exec w = (.ok missing, w) ∧
        missing.Pairwise (· < ·) ∧ ∀ i, i ∈ missing ↔
          start ≤ i ∧ i < start + pageChunks ∧ i < d.chunkCount ∧
            ¬ ∃ file, store.root.slot i w.tree = some file ∧
              d.length i = .ok file.length ∧ d.chunkHash i = .ok (digest file)) ∧
    (∀ i reader,
      (∀ w', (store.receiveFrom d i reader).Moment exec w w' → ∀ j < d.chunkCount, j ≠ i →
        store.root.slot j w'.tree = store.root.slot j w.tree) ∧
      (∀ store' w', (store.receiveFrom d i reader).run exec w = (.ok store', w') →
        ∃ file, store.root.slot i w'.tree = some file ∧
          d.length i = .ok file.length ∧ d.chunkHash i = .ok (digest file)) ∧
      ∀ e w', (store.receiveFrom d i reader).run exec w = (.error e, w') →
        (∀ dir name, .rename dir name ∉ (store.receiveFrom d i reader).callsOf exec w) →
        ∀ j, store.root.slot j w'.tree = store.root.slot j w.tree) ∧
    ∀ f, ((store.assemble d).run exec w).1 = .ok f ↔
      (∀ i < d.chunkCount, ∃ file, store.root.slot i w.tree = some file ∧
        d.length i = .ok file.length ∧ d.chunkHash i = .ok (digest file)) ∧
      f = (List.range d.chunkCount).flatMap (fun i => (store.root.slot i w.tree).getD []) ∧
      digest f = d.hash ∧ f.length = d.size := by
  have hr : store.root = transferRoot (d.key scope) (keyName_key d scope) :=
    (Except.ok.inj ((subtree_key (keyName_key d scope)).symm.trans hroot)).symm
  -- A chunk is verified when it is there with its length and its hash.
  have hverified : ∀ {t : Tree} {i : Nat}, i < d.chunkCount → (store.root.Verified d t i ↔
      ∃ file, store.root.slot i t = some file ∧
        d.length i = .ok file.length ∧ d.chunkHash i = .ok (digest file)) := fun hi =>
    exists_congr fun _ => and_congr_right fun _ => accepts_iff hi
  refine ⟨fun start hstart hpage => ?_, fun i reader => ⟨?_, ?_, ?_⟩, fun f => ?_⟩
  · by_cases hlt : start < d.chunkCount
    · have hm := run_missing hr hpaged hlaid ⟨hlt, hpage⟩
      refine ⟨_, Prod.ext hm ((quiet_of_reads calls_missing).run_snd w),
        Description.pageIndices_sorted.filter _, fun i => ?_⟩
      -- The missing chunks are those of the page that are not verified.
      rw [List.mem_filter, Description.mem_pageIndices, decide_eq_true_eq]
      constructor
      · rintro ⟨⟨h1, h2, h3⟩, h4⟩
        exact ⟨h1, h2, h3, mt (hverified h3).mpr h4⟩
      · rintro ⟨h1, h2, h3, h4⟩
        exact ⟨⟨h1, h2, h3⟩, mt (hverified h3).mp h4⟩
    · -- A description without chunks has one page, which is empty.
      have h0 : d.chunkCount = 0 ∧ start = 0 := by omega
      have hc : (liftM d.chunks : FsM Nat).run exec w = (.ok d.chunkCount, w) := by
        rw [Description.chunks_eq]
        rfl
      refine ⟨[], ?_, List.Pairwise.nil, fun i => ?_⟩
      · unfold missing
        rw [Prog.run_bind_ok hc, if_pos h0]
        rfl
      · simp only [List.not_mem_nil, false_iff]
        rintro ⟨-, -, h3, -⟩
        omega
  · exact fun w' hw' j hj hne => slot_other hj hne hw'
  · intro store' w' h
    obtain ⟨hs, hi, hacc⟩ := receiveFrom_slot h
    exact (hverified hi).mp ⟨_, hs, hacc⟩
  · exact fun e w' h hcalls j => receiveFrom_error h hcalls
  · rw [assemble_ok hr hpaged]
    constructor
    · rintro ⟨hall, hd, rfl⟩
      exact ⟨fun i hi => (hverified hi).mp (hall i hi), rfl, hd, Root.length_content hall⟩
    · rintro ⟨hall, rfl, hd, -⟩
      exact ⟨fun i hi => (hverified hi).mpr (hall i hi), hd, rfl⟩

end Store

end

/-- A description of one chunk. -/
def smallDescription : Description := ⟨1, 4096, emptyHash, [emptyHash], by decide⟩

/-- In an empty directory the one chunk is missing. -/
theorem store_exact_small : ∃ (store : Store) (w : Disk) (missing : List Nat),
    (@Store.missing emptySha store smallDescription 0).run exec w = (.ok missing, w) ∧
      0 ∈ missing := by
  have hkey := @keyName_key emptySha smallDescription emptyHash
  have hempty : Disk.empty.Shows Disk.empty.tree.view := ⟨fun _ => rfl, rfl⟩
  have hnone : ∀ p, p ≠ [] → Disk.empty.tree.get p = none := fun _ => Tree.get_empty
  have hjoin : join [] (@Description.key smallDescription emptySha emptyHash).utf8
      = (@Description.key smallDescription emptySha emptyHash).utf8 := SepPath.join_nil_left
  obtain ⟨w, -, hw, -⟩ := exec_mkdir hempty (keyName_nameOk hkey) hempty.isDir_nil
    (Tree.view_eq_none.mpr (hnone _ (join_name_ne_nil (keyName_nameOk hkey))))
  rw [hjoin] at hw
  -- Nothing but the transfer directory was made.
  have hget : ∀ p, p ≠ [] → p ≠ (@Description.key smallDescription emptySha emptyHash).utf8 →
      w.tree.get p = none := by
    intro p hp hne
    refine hw.get_none ?_
    rw [Function.update_of_ne hne]
    exact Tree.view_eq_none.mpr (hnone p hp)
  have hbelow : ∀ {p : Path}, p ≠ [] → dirName p ≠ [] → w.tree.get p = none := by
    intro p hp hd
    refine hget p hp fun he => hd ?_
    rw [he]
    exact (SepPath.dirName_eq_nil not_nameOk_nil ((SepPath.clean_of_notMem
      (keyName_nameOk hkey).2.1).mpr (keyName_nameOk hkey))).mpr (keyName_nameOk hkey).2.1
  have hbase : (transferRoot _ hkey).base.utf8 ≠ [] := mt String.utf8_eq_nil.mp (keyName_ne hkey)
  have hlaid : ∀ i < smallDescription.chunkCount, (transferRoot _ hkey).Laid i w.tree := by
    intro i hi
    refine ⟨hw.isDir.mpr (Function.update_self ..), fun n hn => ?_, fun n hn => ?_⟩
    · rw [hbelow Root.shardPath_ne_nil (by rw [Root.dirName_shardPath]; exact hbase)] at hn
      cases hn
    · rw [hbelow Root.chunkPath_ne_nil (by
        rw [Root.dirName_chunkPath]
        exact Root.shardPath_ne_nil)] at hn
      cases hn
  obtain ⟨missing, hm, -, hmem⟩ := (@Store.store_exact emptySha ⟨transferRoot _ hkey, 0⟩
    smallDescription emptyHash w (subtree_key hkey) (show 1 ≤ 1 from le_rfl) hlaid).1 0 (Or.inl rfl) rfl
  refine ⟨_, w, missing, hm, (hmem 0).mpr ⟨le_rfl, by decide, by decide, ?_⟩⟩
  rintro ⟨file, hs, -⟩
  obtain ⟨n, hn, -⟩ := Root.slot_eq_some.mp hs
  rw [hbelow Root.chunkPath_ne_nil (by
    rw [Root.dirName_chunkPath]
    exact Root.shardPath_ne_nil)] at hn
  cases hn

end RrSync

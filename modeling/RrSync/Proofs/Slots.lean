import RrSync.Proofs.Names
import RrSync.Proofs.Scan
import RrSync.Proofs.CacheCalls
import RrSync.Proofs.Install

/-!
# `RrSync.Proofs.Slots`: what a store finds in its slots

The slot of a chunk is the file under the name of the chunk. `verified_eq` says what a store
makes of a slot, and `run_missing` and `assemble_ok` what it reports and returns.
-/

set_option autoImplicit false

namespace RrSync

open Lib

/-! ### The directory of a transfer -/

section
variable {key : String}

/-- A key is a name. -/
theorem keyName_nameOk (h : keyName key = true) : NameOk key.utf8 := by
  simp only [keyName, Bool.and_eq_true, decide_eq_true_eq] at h
  exact nameOk_of_digits (List.ne_nil_of_length_pos (by omega)) h.2

/-- The directory of the transfer `key`, below the cache directory. -/
def transferRoot (key : String) (h : keyName key = true) : Root :=
  ⟨key, Or.inr ((SepPath.clean_of_notMem (keyName_nameOk h).2.1).mpr (keyName_nameOk h))⟩

/-- A key has 64 characters. -/
theorem keyName_length (h : keyName key = true) : key.utf8.length = 64 := by
  simp only [keyName, Bool.and_eq_true, decide_eq_true_eq] at h
  exact h.1

/-- A key is not empty. -/
theorem keyName_ne (h : keyName key = true) : key ≠ "" := by
  rintro rfl
  exact absurd (keyName_length h) (by decide)

/-- A key is a path. -/
theorem validate_key (h : keyName key = true) : validate key = .ok () :=
  validate_of_name (keyName_nameOk h) (by rw [keyName_length h]; omega)

/-- Below the top of a volume, a path is itself. -/
theorem opened_full {path : String} (h : validate path = .ok ()) (hlen : path.utf8.length ≤ maxPath) :
    Root.opened.full path = .ok path :=
  Root.opened.full_ok.mpr ⟨fun _ => h, by rwa [opened_pathOf], if_pos rfl⟩

/-- So is a key. -/
theorem full_key (h : keyName key = true) : Root.opened.full key = .ok key := by
  refine opened_full (validate_key h) ?_
  rw [keyName_length h]
  decide

/-- The directory of a transfer is a root. -/
theorem subtree_key (h : keyName key = true) :
    Root.opened.subtree key = .ok (transferRoot key h) := by
  have hbase := (Root.opened.base_subtree key).trans (full_key h)
  cases hr : Root.opened.subtree key with
  | ok r =>
    obtain ⟨base, clean⟩ := r
    rw [hr] at hbase
    cases hbase
    rfl
  | error e =>
    rw [hr] at hbase
    cases hbase

/-- What `key` returns is a key. -/
theorem keyName_key [Sha256] (d : Description) (scope : Hash) : keyName (d.key scope) = true := by
  simp only [keyName, Description.key, length_hex, Vector.length_toList, decide_true, Bool.true_and]
  exact isHexDigit_hex _

/-- A path in the directory of a transfer. -/
theorem pathOf_transfer (h : keyName key = true) {path : String} (hp : path ≠ "") :
    (transferRoot key h).pathOf path = key.utf8 ++ slash :: path.utf8 :=
  SepPath.join_of_ne (mt String.utf8_eq_nil.mp (keyName_ne h)) (mt String.utf8_eq_nil.mp hp)

/-- In the directory of a transfer there is room for every path that is not very long. -/
theorem full_transfer (h : keyName key = true) {path : String} (hv : validate path = .ok ())
    (hlen : path.utf8.length ≤ 4000) : (transferRoot key h).full path
      = .ok ((transferRoot key h).joined path) := by
  refine (transferRoot key h).full_ok.mpr ⟨fun _ => hv, ?_, rfl⟩
  have hp : path ≠ "" := by
    rintro rfl
    exact absurd (cleanPath_of_validate hv).ne_nil (by simp)
  rw [pathOf_transfer h hp, List.length_append, List.length_cons, keyName_length h]
  simp only [maxPath]
  omega

end

/-! ### The names of chunks -/

/-- The name that `Store::name` formats. -/
def chunkString (i : Nat) : String := hex8 (i / shardChunks) ++ "/" ++ hex8 i ++ ".chunk"

/-- The name of a chunk that there is. -/
theorem name_eq {d : Description} {i : Nat} : Store.name d i = if i < d.chunkCount
    then .ok (chunkString i) else .error (.protocol "chunk index out of range") := by
  unfold Store.name
  rw [Description.length_eq]
  split <;> rfl

/-- The last part of the name of a chunk is a name. -/
theorem nameOk_chunk (i : Nat) : NameOk ((hex8 i).utf8 ++ ".chunk".utf8) :=
  nameOk_append (isHexDigit_hex _) (by decide) (by decide) (by
    rw [List.length_append, length_hex8]
    omega)

/-- The bytes of the name: the directory of the shard, and the file in it. -/
theorem utf8_chunkString (i : Nat) : (chunkString i).utf8
    = (hex8 (i / shardChunks)).utf8 ++ slash :: ((hex8 i).utf8 ++ ".chunk".utf8) := by
  unfold chunkString
  simp only [String.utf8_append, List.append_assoc]
  rfl

/-- The length of the suffix. -/
theorem length_chunk : ".chunk".utf8.length = 6 := rfl

/-- The name of a chunk is a path. -/
theorem validate_chunkString (i : Nat) : validate (chunkString i) = .ok () :=
  validate_of_two (utf8_chunkString i) (nameOk_hex8 _) (nameOk_chunk i) (by simp)
    (by rw [List.length_append, length_hex8, length_chunk]; omega)

/-- The name of a shard is a path. -/
theorem validate_hex8 (n : Nat) : validate (hex8 n) = .ok () :=
  validate_of_name (nameOk_hex8 n) (by simp)

/-- The name of a chunk is short. -/
theorem length_chunkString (i : Nat) : (chunkString i).utf8.length = 23 := by
  rw [utf8_chunkString, List.length_append, List.length_cons, List.length_append, length_hex8,
    length_hex8, length_chunk]

namespace Root

variable (root : Root) (i : Nat)

/-- The directory of the shard of the chunk `i`. -/
def shardPath : Path := root.pathOf (hex8 (i / shardChunks))

/-- The file of the chunk `i`. -/
def chunkPath : Path := root.pathOf (chunkString i)

/-- The bytes of the file of the chunk `i`. -/
def slot (t : Tree) : Option Bytes :=
  match t.get (root.chunkPath i) with
  | some ⟨.file data, _, _⟩ => some data
  | _ => none

/-- What a cache directory can have at the places of the chunk `i`: any file, or none. -/
structure Laid (t : Tree) : Prop where
  dir : t.IsDir root.base.utf8
  shard : ∀ n, t.get (root.shardPath i) = some n → n.body = .directory
  chunk : ∀ n, t.get (root.chunkPath i) = some n → n.body.type = .file

variable {root i} {t : Tree}

/-- A chunk lies in the directory of its shard. -/
theorem chunkPath_eq : root.chunkPath i
    = join (root.shardPath i) ((hex8 i).utf8 ++ ".chunk".utf8) := by
  have h1 : (chunkString i).utf8
      = join (hex8 (i / shardChunks)).utf8 ((hex8 i).utf8 ++ ".chunk".utf8) := by
    rw [utf8_chunkString]
    exact (SepPath.join_of_ne (nameOk_hex8 _).1 (nameOk_chunk i).1).symm
  unfold chunkPath shardPath pathOf
  rw [h1]
  exact SepPath.join_assoc.symm

/-- That directory is its parent. -/
theorem dirName_chunkPath : dirName (root.chunkPath i) = root.shardPath i := by
  rw [chunkPath_eq]
  exact dirName_join_name (nameOk_chunk i)

/-- The parent of a shard is the directory of the transfer. -/
theorem dirName_shardPath : dirName (root.shardPath i) = root.base.utf8 :=
  dirName_join_name (nameOk_hex8 _)

/-- A chunk is not the root. -/
theorem chunkPath_ne_nil : root.chunkPath i ≠ [] := by
  rw [chunkPath_eq]
  exact join_name_ne_nil (nameOk_chunk i)

/-- A shard is not the root. -/
theorem shardPath_ne_nil : root.shardPath i ≠ [] := join_name_ne_nil (nameOk_hex8 _)

/-- Different chunks have different places. -/
theorem chunkPath_injective {j : Nat} (hi : i < 2 ^ 32) (hj : j < 2 ^ 32)
    (h : root.chunkPath i = root.chunkPath j) : i = j := by
  have h1 : baseName (root.chunkPath i) = baseName (root.chunkPath j) := by rw [h]
  rw [chunkPath_eq, chunkPath_eq, baseName_join_name (nameOk_chunk i),
    baseName_join_name (nameOk_chunk j)] at h1
  exact hex8_injective hi hj (String.utf8_injective (List.append_cancel_right h1))

/-- The file of a chunk is none of the directories on the way to a shard. -/
theorem not_below_chunkPath {j : Nat} : ¬ Below (root.shardPath i) (root.chunkPath j) := by
  intro h
  have h1 : (root.chunkPath j).length ≤ (root.shardPath i).length := h.isPrefix.length_le
  have h2 : (root.shardPath j).length = (root.shardPath i).length := by
    unfold shardPath pathOf
    by_cases hb : root.base.utf8 = []
    · rw [hb]
      simp [join]
    · rw [join, SepPath.join_of_ne hb (nameOk_hex8 _).1, join, SepPath.join_of_ne hb (nameOk_hex8 _).1]
      simp
  have h3 : (root.shardPath j).length < (root.chunkPath j).length := by
    rw [← dirName_chunkPath]
    exact SepPath.length_dirName_lt chunkPath_ne_nil
  omega

/-- A chunk is not in the place of an object directly below the root. -/
theorem chunkPath_ne_pathOf {name : String} (hn : slash ∉ name.utf8) :
    root.chunkPath i ≠ root.pathOf name := by
  intro h
  have h1 : (chunkString i).utf8 = name.utf8 := SepPath.join_injective _ h
  rw [utf8_chunkString] at h1
  exact hn (h1 ▸ by simp)

/-- A slot without an object is reported as not found. -/
theorem Laid.find_noent (h : root.Laid i t) (hnone : t.get (root.chunkPath i) = none) :
    t.find (root.chunkPath i) = .error .noent := by
  cases hs : t.get (root.shardPath i) with
  | some n =>
    refine Tree.find_noent chunkPath_ne_nil ?_ hnone
    rw [dirName_chunkPath]
    exact ⟨n, hs, h.shard n hs⟩
  | none =>
    -- The shard is missing too, and the transfer directory decides.
    obtain ⟨m, hm, hb⟩ := h.dir
    have hlen : 2 ≤ (root.chunkPath i).length := by
      have h1 : (root.shardPath i).length < (root.chunkPath i).length := by
        rw [← dirName_chunkPath]
        exact SepPath.length_dirName_lt chunkPath_ne_nil
      have h2 := List.length_pos_of_ne_nil (@shardPath_ne_nil root i)
      omega
    obtain ⟨k, hk⟩ : ∃ k, (root.chunkPath i).length = k + 2 := ⟨_, (Nat.sub_add_cancel hlen).symm⟩
    unfold Tree.find
    simp only [hnone, hk, Tree.missing, dirName_chunkPath, hs, dirName_shardPath, hm, hb]

/-- The content of a slot is that of the file at the place of the chunk. -/
theorem slot_eq_some {file : Bytes} : root.slot i t = some file ↔
    ∃ n, t.get (root.chunkPath i) = some n ∧ n.body = .file file := by
  unfold slot
  rcases t.get (root.chunkPath i) with _ | ⟨_ | _ | _ | _, _, _⟩ <;> simp

/-- The slots of two trees that have the same bodies there. -/
theorem slot_congr {t' : Tree} (h : (t'.get (root.chunkPath i)).map Node.body
    = (t.get (root.chunkPath i)).map Node.body) : root.slot i t' = root.slot i t := by
  refine Option.ext fun file => ?_
  have key : ∀ t : Tree, root.slot i t = some file ↔
      (t.get (root.chunkPath i)).map Node.body = some (.file file) := fun t => by
    rw [slot_eq_some, Option.map_eq_some_iff]
  rw [key, key, h]

end Root

/-! ### What is verified -/

/-- The hash pages are set: there is a hash for every chunk. -/
def Description.Paged (d : Description) : Prop := d.chunkCount ≤ d.hashes.length

section
variable [Sha256]

/-- The bytes have the length and the hash of the chunk `i`. -/
def Description.Accepts (d : Description) (i : Nat) (file : Bytes) : Prop :=
  file.length = d.pieceLen i ∧ d.hashes[i]? = some (digest file)

instance (d : Description) (i : Nat) (file : Bytes) : Decidable (d.Accepts i file) :=
  inferInstanceAs (Decidable (_ ∧ _))

/-- The slot of the chunk `i` holds what the description says. -/
def Root.Verified (root : Root) (d : Description) (t : Tree) (i : Nat) : Prop :=
  ∃ file ∈ root.slot i t, d.Accepts i file

instance (root : Root) (d : Description) (t : Tree) (i : Nat) :
    Decidable (root.Verified d t i) :=
  decidable_of_iff ((root.slot i t).any fun file => decide (d.Accepts i file)) (by
    simp [Root.Verified, Option.any_eq_true])

namespace Store

variable {store : Store} {d : Description} {w : Disk} {i start : Nat} {key : String}
  {hk : keyName key = true}

omit [Sha256] in
/-- The name of a chunk is accepted in the directory of a transfer. -/
theorem full_chunk (hroot : store.root = transferRoot key hk) (i : Nat) :
    ∃ s, store.root.full (chunkString i) = .ok s := by
  rw [hroot]
  exact ⟨_, full_transfer hk (validate_chunkString i) (by rw [length_chunkString]; omega)⟩

omit [Sha256] in
/-- The hash of a chunk that the table has. -/
theorem chunkHash_eq {h : Hash} (hi : i < d.chunkCount) (hh : d.hashes[i]? = some h) :
    d.chunkHash i = .ok h := Description.chunkHash_ok.mpr ⟨hi, hh⟩

/-- What `verified` makes of opening the file of the chunk. -/
theorem run_verified (hi : i < d.chunkCount) : ((store.verified d i).run exec w).1
    = match ((store.root.openFile (chunkString i)).run exec w).1 with
      | .error (.io .noent _) => .ok none
      | .error e => .error e
      | .ok (m, file) => if m.len ≠ d.pieceLen i then .ok none else
        d.chunkHash i >>= fun h => if digest file ≠ h then .ok none else .ok (some file) := by
  have hname : (liftM (name d i) : FsM String).run exec w = (.ok (chunkString i), w) := by
    rw [name_eq, if_pos hi]
    rfl
  have hquiet : ((store.root.openFile (chunkString i)).run exec w).2 = w :=
    (quiet_of_reads calls_openFile).run_snd w
  unfold verified
  rw [Prog.run_bind_ok hname, Prog.run_bind_ok (Prog.run_attempt exec _ w), hquiet]
  -- A missing chunk is no error.
  cases ((store.root.openFile (chunkString i)).run exec w).1 with
  | error e =>
    cases e with
    | io kind text => cases kind <;> rfl
    | _ => rfl
  | ok f =>
    obtain ⟨m, file⟩ := f
    have hlen : (liftM (d.length i) : FsM Nat).run exec w = (.ok (d.pieceLen i), w) := by
      rw [Description.length_eq, if_pos hi]
      rfl
    simp only []
    rw [Prog.run_bind_ok hlen]
    -- Neither is one of a wrong length or a wrong hash.
    by_cases h1 : m.len = d.pieceLen i
    · simp only [h1, ne_eq, not_true_eq_false, if_false]
      cases d.chunkHash i with
      | error e => rfl
      | ok h =>
        show ((if digest file ≠ h then pure none else pure (some file) : FsM _).run exec w).1
          = if digest file ≠ h then .ok none else .ok (some file)
        split <;> rfl
    · simp only [ne_eq, h1, not_false_eq_true, if_true]
      rfl

/-- `verified` returns a chunk file exactly when it is accepted. -/
theorem verified_of_file (hroot : store.root = transferRoot key hk) (hi : i < d.chunkCount)
    (hp : d.Paged) {file : Bytes} (hs : store.root.slot i w.tree = some file) :
    ((store.verified d i).run exec w).1 = .ok (if d.Accepts i file then some file else none) := by
  obtain ⟨n, hn, hb⟩ := Root.slot_eq_some.mp hs
  have hopen : ((store.root.openFile (chunkString i)).run exec w).1
      = .ok (n.metadata, n.body.data) :=
    openFile_ok.mpr ⟨full_chunk hroot i, n, hn, by rw [hb]; rfl, rfl⟩
  obtain ⟨h, hh⟩ : ∃ h, d.hashes[i]? = some h :=
    ⟨_, List.getElem?_eq_getElem (Nat.lt_of_lt_of_le hi hp)⟩
  have hlen : n.metadata.len = file.length := congrArg Body.len hb
  have hdata : n.body.data = file := congrArg Body.data hb
  rw [run_verified hi, hopen, chunkHash_eq hi hh]
  simp only [hdata, hlen, Description.Accepts, hh, Option.some.injEq]
  by_cases h1 : file.length = d.pieceLen i
  · by_cases h2 : digest file = h
    · simp [h1, h2, bind, Except.bind]
    · simp [h1, h2, Ne.symm h2, bind, Except.bind]
  · simp [h1]

/-- Where no chunk file is, `verified` returns none. -/
theorem verified_of_none (hroot : store.root = transferRoot key hk) (hi : i < d.chunkCount)
    (hlaid : store.root.Laid i w.tree) (hs : store.root.slot i w.tree = none) :
    ((store.verified d i).run exec w).1 = .ok none := by
  have hnone : w.tree.get (store.root.chunkPath i) = none := by
    cases hn : w.tree.get (store.root.chunkPath i) with
    | none => rfl
    | some n =>
      -- An object in the slot is a file, and its bytes are the slot.
      obtain ⟨body, time, tag⟩ := n
      have hty := hlaid.chunk _ hn
      cases body with
      | file data =>
        rw [Root.slot_eq_some.mpr ⟨_, hn, rfl⟩] at hs
        cases hs
      | _ => cases hty
  obtain ⟨s, hfull⟩ := full_chunk hroot i
  have hopen := openFile_noent hfull (w := w) (hlaid.find_noent hnone)
  rw [run_verified hi, hopen]
  rfl

/-- A verified slot gives its file, and any other slot counts as missing. -/
theorem verified_eq (hroot : store.root = transferRoot key hk) (hi : i < d.chunkCount)
    (hp : d.Paged) (hlaid : store.root.Laid i w.tree) :
    ((store.verified d i).run exec w).1
      = .ok ((store.root.slot i w.tree).filter fun file => d.Accepts i file) := by
  cases hs : store.root.slot i w.tree with
  | none => exact verified_of_none hroot hi hlaid hs
  | some file =>
    rw [verified_of_file hroot hi hp hs]
    simp [Option.filter]

/-- What a store accepts is in its slot, whatever else is in its directory. -/
theorem verified_ok (hi : i < d.chunkCount) {file : Bytes}
    (h : ((store.verified d i).run exec w).1 = .ok (some file)) :
    store.root.slot i w.tree = some file ∧ d.Accepts i file := by
  rw [run_verified hi] at h
  cases ho : ((store.root.openFile (chunkString i)).run exec w).1 with
  | error e =>
    rw [ho] at h
    cases e with
    | io kind text => cases kind <;> cases h
    | _ => cases h
  | ok f =>
    obtain ⟨-, n, hn, hty, rfl⟩ := openFile_ok.mp ho
    rw [ho] at h
    obtain ⟨data, hb⟩ : ∃ data, n.body = .file data := by
      cases hb : n.body with
      | file data => exact ⟨data, rfl⟩
      | _ => rw [hb] at hty; cases hty
    have hlen : n.metadata.len = data.length := congrArg Body.len hb
    simp only [hb, Body.data, hlen] at h
    -- The length is compared first, then the hash.
    by_cases h1 : data.length = d.pieceLen i
    · rw [if_neg (not_not.mpr h1), bind_eq_ok] at h
      obtain ⟨x, hx, h⟩ := h
      by_cases h2 : digest data = x
      · rw [if_neg (not_not.mpr h2)] at h
        cases h
        exact ⟨Root.slot_eq_some.mpr ⟨n, hn, hb⟩, h1, h2 ▸ (Description.chunkHash_ok.mp hx).2⟩
      · rw [if_pos h2] at h
        cases h
    · rw [if_pos h1] at h
      cases h

end Store

end

/-! ### What a store reports and returns -/

/-- The chunks of a page. -/
def Description.pageIndices (d : Description) (start : Nat) : List Nat :=
  (List.range (min (d.chunkCount - start) pageChunks)).map (start + ·)

/-- The chunks of a page. -/
theorem Description.mem_pageIndices {d : Description} {start i : Nat} :
    i ∈ d.pageIndices start ↔ start ≤ i ∧ i < start + pageChunks ∧ i < d.chunkCount := by
  unfold pageIndices
  rw [List.mem_map]
  constructor
  · rintro ⟨k, hk, rfl⟩
    rw [List.mem_range] at hk
    omega
  · intro h
    exact ⟨i - start, List.mem_range.mpr (by omega), by omega⟩

/-- They are in order. -/
theorem Description.pageIndices_sorted {d : Description} {start : Nat} :
    (d.pageIndices start).Pairwise (· < ·) := by
  unfold pageIndices
  rw [List.pairwise_map]
  exact List.pairwise_lt_range.imp fun h => by omega

/-- The lengths of the first chunks. -/
theorem Description.sum_pieceLen {d : Description} {n : Nat} (h : n ≤ d.chunkCount) :
    ((List.range n).map d.pieceLen).sum = min (n * d.chunkSize.toNat) d.size := by
  induction n with
  | zero => simp
  | succ n ih =>
    have hlt := mul_lt_size.mp (Nat.lt_of_succ_le h)
    rw [List.range_succ, List.map_append, List.sum_append, ih (by omega), Nat.succ_mul]
    simp only [List.map_cons, List.map_nil, List.sum_singleton, pieceLen]
    omega

/-- The chunks of a file have all of its bytes. -/
theorem Description.sum_pieceLen_all {d : Description} :
    ((List.range d.chunkCount).map d.pieceLen).sum = d.size := by
  rw [sum_pieceLen le_rfl]
  have h : ¬ d.chunkCount < d.chunkCount := Nat.lt_irrefl _
  rw [mul_lt_size] at h
  omega

/-- A loop that keeps the elements with a property. -/
theorem foldlM_filter {α β ε : Type} {xs : List α} {f : List β → α → Except ε (List β)}
    {g : α → β} {P : β → Prop} [DecidablePred P]
    (h : ∀ x ∈ xs, ∀ out, f out x = .ok (if P (g x) then out ++ [g x] else out)) (out : List β) :
    xs.foldlM f out = .ok (out ++ (xs.map g).filter P) := by
  induction xs generalizing out with
  | nil => simp [pure, Except.pure]
  | cons x xs ih =>
    rw [List.foldlM_cons, h x List.mem_cons_self]
    show xs.foldlM f _ = _
    rw [ih fun y hy => h y (List.mem_cons_of_mem _ hy)]
    by_cases hx : P (g x) <;> simp [hx]

/-- A loop that appends something for each element, if all of them have it. -/
theorem foldlM_append {α β ε : Type} {xs : List α} {f : List β → α → Except ε (List β)}
    {P : α → Prop} {g : α → List β}
    (h : ∀ x ∈ xs, ∀ b b', f b x = .ok b' ↔ P x ∧ b' = b ++ g x) (b b' : List β) :
    xs.foldlM f b = .ok b' ↔ (∀ x ∈ xs, P x) ∧ b' = b ++ xs.flatMap g := by
  induction xs generalizing b with
  | nil => simp [pure, Except.pure, eq_comm]
  | cons x xs ih =>
    rw [List.foldlM_cons, bind_eq_ok, List.forall_mem_cons, List.flatMap_cons]
    have hx := h x List.mem_cons_self b
    have hxs := ih fun y hy => h y (List.mem_cons_of_mem _ hy)
    constructor
    · rintro ⟨b₁, h1, h2⟩
      obtain ⟨hp, rfl⟩ := (hx b₁).mp h1
      obtain ⟨hall, rfl⟩ := (hxs _).mp h2
      exact ⟨⟨hp, hall⟩, by rw [List.append_assoc]⟩
    · rintro ⟨⟨hp, hall⟩, rfl⟩
      exact ⟨_, (hx _).mpr ⟨hp, rfl⟩, (hxs _).mpr ⟨hall, by rw [List.append_assoc]⟩⟩

section
variable [Sha256] {store : Store} {d : Description} {w : Disk} {start : Nat} {key : String}
  {hk : keyName key = true}

/-- `missing` names the chunks of the page that are not verified. -/
theorem Store.run_missing (hroot : store.root = transferRoot key hk) (hp : d.Paged)
    (hlaid : ∀ i < d.chunkCount, store.root.Laid i w.tree)
    (hstart : start < d.chunkCount ∧ start % pageChunks = 0) :
    ((store.missing d start).run exec w).1
      = .ok ((d.pageIndices start).filter fun i => ¬ store.root.Verified d w.tree i) := by
  have hc : (liftM d.chunks : FsM Nat).run exec w = (.ok d.chunkCount, w) := by
    rw [Description.chunks_eq]
    rfl
  have hl : (liftM (d.pageLen start) : FsM Nat).run exec w
      = (.ok (min (d.chunkCount - start) pageChunks), w) := by
    rw [Description.pageLen_eq, if_pos hstart]
    rfl
  unfold missing
  rw [Prog.run_bind_ok hc, if_neg (by omega), Prog.run_bind_ok hl, Prog.run_foldlM_fst]
  · refine foldlM_filter (P := fun i => ¬ store.root.Verified d w.tree i) (fun k hk out => ?_) []
    have hlt : start + k < d.chunkCount := by
      have := List.mem_range.mp hk
      omega
    rw [(quiet_of_reads calls_verified).run_bind_fst, verified_eq hroot hlt hp (hlaid _ hlt)]
    -- A verified chunk is not listed, any other is.
    by_cases hv : store.root.Verified d w.tree (start + k)
    · rw [if_neg (not_not.mpr hv)]
      obtain ⟨file, hs, ha⟩ := hv
      rw [Option.mem_def.mp hs]
      simp [Option.filter, ha, bind, Except.bind]
    · rw [if_pos hv]
      have hnone : (store.root.slot (start + k) w.tree).filter
          (fun file => d.Accepts (start + k) file) = none := by
        rw [Option.filter_eq_none_iff]
        exact fun file hs ha => hv ⟨file, hs, by simpa using ha⟩
      rw [hnone]
      rfl
  · intro i _ out
    refine Prog.quiet_bind (quiet_of_reads calls_verified) fun r => ?_
    cases r <;> exact Prog.quiet_pure _

/-- The bytes in all slots, in order. -/
def Root.content (root : Root) (d : Description) (t : Tree) : Bytes :=
  (List.range d.chunkCount).flatMap fun i => (root.slot i t).getD []

/-- Verified chunks have the size of the file together. -/
theorem Root.length_content {root : Root} {t : Tree}
    (h : ∀ i < d.chunkCount, root.Verified d t i) : (root.content d t).length = d.size := by
  rw [← Description.sum_pieceLen_all, content, List.length_flatMap]
  refine congrArg List.sum (List.map_congr_left fun i hi => ?_)
  obtain ⟨file, hf, ha⟩ := h i (List.mem_range.mp hi)
  rw [Option.mem_def.mp hf]
  exact ha.1

/-- `assemble` returns the bytes of the slots, if they are all verified and together have the
hash of the description. -/
theorem Store.assemble_ok (hroot : store.root = transferRoot key hk) (hp : d.Paged) {f : Bytes} :
    ((store.assemble d).run exec w).1 = .ok f ↔
      (∀ i < d.chunkCount, store.root.Verified d w.tree i) ∧
        digest (store.root.content d w.tree) = d.hash ∧ f = store.root.content d w.tree := by
  have hc : (liftM d.chunks : FsM Nat).run exec w = (.ok d.chunkCount, w) := by
    rw [Description.chunks_eq]
    rfl
  have hquiet {f : Option Bytes → FsM Bytes} {i : Nat} (hf : ∀ r, Prog.Quiet exec (f r)) :
      Prog.Quiet exec (store.verified d i >>= f) :=
    Prog.quiet_bind (quiet_of_reads calls_verified) hf
  unfold assemble
  rw [Prog.run_bind_ok hc, Prog.Quiet.run_bind_fst ?quiet, Prog.run_foldlM_fst ?turns, bind_eq_ok]
  case quiet =>
    refine Prog.quiet_foldlM fun i _ result => hquiet fun r => ?_
    cases r
    · exact Prog.quiet_throw _
    · exact Prog.quiet_pure _
  case turns =>
    intro i _ result
    refine hquiet fun r => ?_
    cases r
    · exact Prog.quiet_throw _
    · exact Prog.quiet_pure _
  -- The loop succeeds when all chunks are verified, and gives their contents one after the other.
  refine (exists_congr fun result => and_congr_left' (foldlM_append
    (P := fun i => store.root.Verified d w.tree i)
    (g := fun i => (store.root.slot i w.tree).getD []) (fun i hi b b' => ?_) [] result)).trans ?_
  · have hlt := List.mem_range.mp hi
    rw [(quiet_of_reads calls_verified).run_bind_fst, bind_eq_ok]
    constructor
    · rintro ⟨_ | file, h1, h2⟩
      · cases h2
      · obtain ⟨hs, ha⟩ := verified_ok hlt h1
        cases h2
        exact ⟨⟨file, hs, ha⟩, by rw [hs]; rfl⟩
    · rintro ⟨⟨file, hs, ha⟩, rfl⟩
      refine ⟨some file, ?_, by rw [Option.mem_def.mp hs]; rfl⟩
      rw [verified_of_file hroot hlt hp hs, if_pos ha]
  -- The last check is that of the whole hash.
  · have hend : ∀ result : Bytes, ((if digest result ≠ d.hash then
        (throw (.hashMismatch "assembled file") : FsM Bytes) else pure result).run exec w).1 = .ok f
          ↔ digest result = d.hash ∧ f = result := by
      intro result
      by_cases h : digest result = d.hash <;> simp [h, eq_comm]
    constructor
    · rintro ⟨_, ⟨hall, rfl⟩, h2⟩
      exact ⟨fun i hi => hall i (List.mem_range.mpr hi), (hend _).mp h2⟩
    · rintro ⟨hall, hd⟩
      exact ⟨_, ⟨fun i hi => hall i (List.mem_range.mp hi), rfl⟩, (hend _).mpr hd⟩

end

end RrSync

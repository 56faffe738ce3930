import RrSync.Proofs.Splitting
import RrSync.Proofs.NoPanic

/-!
# `RrSync.Proofs.Partition`: the chunks and pages of a file partition it

The number of chunks, the length of one, the length of a page and the name of a chunk are
computed apart from each other. Here they meet: `partition_exact`. The walk over the pages
is the relation `Pages`, one constructor per step, and its induction carries that a walk
which has come to a page start goes on through the page starts after it.
-/

set_option autoImplicit false

namespace RrSync

open Lib

namespace Description

variable {d : Description}

/-! ### The intervals of the chunks -/

/-- The number of chunks is what `count` returns. -/
theorem chunkCount_eq {size n : Nat} {c : UInt32} (h : count size c = .ok n)
    (hsize : d.size = size) (hc : d.chunkSize = c) : d.chunkCount = n := by
  subst hsize hc
  exact (count_ok.mp h).2.symm

/-- No chunk is empty. -/
theorem pieceLen_pos {i : Nat} (h : i < d.chunkCount) : 0 < d.pieceLen i := by
  have hlt := mul_lt_size.mp h
  have hc := chunkSize_pos (d := d)
  unfold pieceLen
  omega

/-- A chunk ends where the next one begins, and the last one where the file ends. -/
theorem end_of_chunk {i : Nat} (h : i < d.chunkCount) :
    i * d.chunkSize.toNat + d.pieceLen i
      = if i + 1 < d.chunkCount then (i + 1) * d.chunkSize.toNat else d.size := by
  have hlt := mul_lt_size.mp h
  have hnext := mul_lt_size (d := d) (i := i + 1)
  have hmul : (i + 1) * d.chunkSize.toNat = i * d.chunkSize.toNat + d.chunkSize.toNat :=
    Nat.add_one_mul ..
  unfold pieceLen
  split
  · next hn =>
    have := hnext.mp hn
    omega
  · next hn =>
    have : ¬ (i + 1) * d.chunkSize.toNat < d.size := fun hs => hn (hnext.mpr hs)
    omega

/-- A byte of the file is in the chunk of its quotient. -/
theorem mem_chunk {x : Nat} (h : x < d.size) :
    x / d.chunkSize.toNat < d.chunkCount ∧
      x / d.chunkSize.toNat * d.chunkSize.toNat ≤ x ∧
      x < x / d.chunkSize.toNat * d.chunkSize.toNat + d.pieceLen (x / d.chunkSize.toNat) := by
  have hc := chunkSize_pos (d := d)
  have hle : x / d.chunkSize.toNat * d.chunkSize.toNat ≤ x := Nat.div_mul_le_self ..
  have hlt : x < x / d.chunkSize.toNat * d.chunkSize.toNat + d.chunkSize.toNat := by
    have := Nat.lt_mul_div_succ x hc
    rw [Nat.mul_add, Nat.mul_comm, Nat.mul_one] at this
    exact this
  refine ⟨mul_lt_size.mpr (by omega), hle, ?_⟩
  unfold pieceLen
  omega

/-! ### The walk over the pages -/

/-- From `start` on, add `page_len` to the offset until `page_len` refuses it. The walk visits
the offsets in the list and ends at the last argument. -/
inductive Pages (d : Description) : Nat → List Nat → Nat → Prop
  | stop {start : Nat} {e : Error} (h : d.pageLen start = .error e) : Pages d start [] start
  | page {start n stop : Nat} {starts : List Nat} (h : d.pageLen start = .ok n)
      (next : Pages d (start + n) starts stop) : Pages d start (start :: starts) stop

/-- The page starts from the page `k` on. -/
def pagesFrom (d : Description) (k : Nat) : List Nat :=
  (List.range' k (divCeil d.chunkCount pageChunks - k)).map (· * pageChunks)

/-- The pages from the first one are all pages. -/
theorem pagesFrom_zero : d.pagesFrom 0 = d.pageStarts := by
  simp [pagesFrom, pageStarts, List.range_eq_range']

/-- The first page and those after it. -/
theorem pagesFrom_cons {k : Nat} (h : k * pageChunks < d.chunkCount) :
    d.pagesFrom k = k * pageChunks :: d.pagesFrom (k + 1) := by
  have hk := lt_divCeil.mpr h
  unfold pagesFrom
  rw [show divCeil d.chunkCount pageChunks - k
    = (divCeil d.chunkCount pageChunks - (k + 1)) + 1 by omega, List.range'_succ, List.map_cons]

/-- No page is left after the last chunk. -/
theorem pagesFrom_end {k : Nat} (h : d.chunkCount ≤ k * pageChunks) : d.pagesFrom k = [] := by
  have hk := mt lt_divCeil.mp (Nat.not_lt.mpr h)
  unfold pagesFrom
  rw [Nat.sub_eq_zero_of_le (by omega)]
  rfl

/-- `page_len` refuses the end of the pages. -/
theorem pageLen_end : ∃ e, d.pageLen d.chunkCount = .error e :=
  ⟨_, by rw [pageLen_eq, if_neg (by omega)]⟩

/-- Where a walk stands is a page start or the end. -/
theorem pages_of_start {start stop : Nat} {starts : List Nat} (h : Pages d start starts stop)
    (hstart : ∃ k, start = min (k * pageChunks) d.chunkCount ∧ k ≤ divCeil d.chunkCount pageChunks) :
    starts = d.pagesFrom (divCeil start pageChunks) ∧ stop = d.chunkCount := by
  induction h with
  | @stop start e h =>
    obtain ⟨k, rfl, -⟩ := hstart
    rw [pageLen_eq] at h
    split at h
    · cases h
    · next hn =>
      -- A multiple of the page length is refused only from the number of chunks on.
      have hge : d.chunkCount ≤ k * pageChunks := by
        by_contra hlt
        exact hn ⟨by omega, by rw [Nat.min_eq_left (by omega)]; exact Nat.mul_mod_left ..⟩
      rw [Nat.min_eq_right hge]
      refine ⟨(pagesFrom_end ?_).symm, rfl⟩
      simp only [divCeil, pageChunks]
      omega
  | @page start n stop starts h next ih =>
    obtain ⟨hlt, hmod, rfl⟩ := pageLen_ok.mp h
    obtain ⟨k, hk, -⟩ := hstart
    have hk' : start = k * pageChunks := by omega
    have hdiv : divCeil start pageChunks = k := by
      rw [hk']
      simp only [divCeil, pageChunks]
      omega
    have hk1 : k + 1 ≤ divCeil d.chunkCount pageChunks := lt_divCeil.mpr (hk' ▸ hlt)
    obtain ⟨hs, hstop⟩ := ih ⟨k + 1, by simp only [pageChunks] at *; omega, hk1⟩
    refine ⟨?_, hstop⟩
    rw [hdiv, pagesFrom_cons (hk' ▸ hlt), hs, hk']
    -- The next offset is the next multiple, or the end, and both round up to the next page.
    congr 2
    simp only [divCeil, pageChunks] at *
    omega

/-- The pages from any page on are what the walk needs, by induction from the end. -/
theorem pages_from (k : Nat) (hk : k ≤ divCeil d.chunkCount pageChunks) :
    Pages d (min (k * pageChunks) d.chunkCount) (d.pagesFrom k) d.chunkCount := by
  -- The induction is on the number of pages still to go.
  obtain ⟨m, hm⟩ : ∃ m, divCeil d.chunkCount pageChunks - k = m := ⟨_, rfl⟩
  induction m generalizing k with
  | zero =>
    have hge : d.chunkCount ≤ k * pageChunks := by
      by_contra hlt
      have := lt_divCeil.mpr (Nat.lt_of_not_le hlt)
      omega
    obtain ⟨e, he⟩ := pageLen_end (d := d)
    rw [Nat.min_eq_right hge, pagesFrom_end hge]
    exact .stop he
  | succ m ih =>
    have hlt : k * pageChunks < d.chunkCount := lt_divCeil.mp (by omega)
    rw [Nat.min_eq_left hlt.le, pagesFrom_cons hlt]
    refine .page (pageLen_ok.mpr ⟨hlt, Nat.mul_mod_left .., rfl⟩) ?_
    have hnext := ih (k + 1) (by omega) (by omega)
    have hmin : k * pageChunks + min (d.chunkCount - k * pageChunks) pageChunks
        = min ((k + 1) * pageChunks) d.chunkCount := by
      simp only [pageChunks] at *
      omega
    rwa [hmin]

/-- There is one walk from the first page, through all page starts in order. -/
theorem pages_iff {starts : List Nat} {stop : Nat} :
    Pages d 0 starts stop ↔ starts = d.pageStarts ∧ stop = d.chunkCount := by
  constructor
  · intro h
    have := pages_of_start h ⟨0, by simp, by omega⟩
    rwa [show divCeil 0 pageChunks = 0 by rfl, pagesFrom_zero] at this
  · rintro ⟨rfl, rfl⟩
    have := pages_from (d := d) 0 (by omega)
    rwa [Nat.zero_mul, Nat.zero_min, pagesFrom_zero] at this

/-- A page starts at each multiple of its size within the file. -/
theorem mem_pageStarts {start : Nat} :
    start ∈ d.pageStarts ↔ start < d.chunkCount ∧ pageChunks ∣ start := by
  unfold pageStarts
  simp only [List.mem_map, List.mem_range, lt_divCeil]
  constructor
  · rintro ⟨k, hk, rfl⟩
    exact ⟨hk, Nat.dvd_mul_left ..⟩
  · rintro ⟨h, k, rfl⟩
    exact ⟨k, by rwa [Nat.mul_comm], Nat.mul_comm ..⟩

/-- The pages are in order. -/
theorem pageStarts_sorted : d.pageStarts.Pairwise (· < ·) := by
  unfold pageStarts
  rw [List.pairwise_map]
  refine List.pairwise_lt_range.imp fun h => ?_
  simp only [pageChunks]
  omega

end Description

/-! ### The names of the chunks -/

/-- The second part of the name of a chunk. -/
def chunkFileName (i : Nat) : String := hex8 i ++ ".chunk"

/-- The bytes of the name of a chunk file. -/
theorem utf8_chunkFileName (i : Nat) :
    (chunkFileName i).utf8 = (hex8 i).utf8 ++ ".chunk".utf8 := String.utf8_append ..

/-- Its first eight are the digits of the chunk. -/
theorem take_chunkFileName (i : Nat) : (chunkFileName i).utf8.take 8 = (hex8 i).utf8 := by
  rw [utf8_chunkFileName]
  exact List.take_left' (length_hex8 i)

/-- It is the name of a chunk for `payload_bytes`. -/
theorem chunkName_chunkFileName (i : Nat) : chunkName (chunkFileName i) = true := by
  have hlen : (chunkFileName i).utf8.length = 14 := by
    rw [utf8_chunkFileName, List.length_append, length_hex8, length_chunk]
  simp only [chunkName, Bool.and_eq_true, decide_eq_true_eq]
  refine ⟨⟨?_, hlen⟩, ?_⟩
  · rw [List.isSuffixOf_iff_suffix, utf8_chunkFileName]
    exact List.suffix_append ..
  · rw [take_chunkFileName]
    exact isHexDigit_hex8 i

/-- `payload_bytes` counts the file of a chunk in the shard of its name. -/
theorem shardBytes_chunk {i bytes : Nat} {m : Metadata} (hi : i < 2 ^ 32) (hm : m.isFile = true)
    (hlen : bytes + m.len < 2 ^ 64) :
    shardBytes (i / shardChunks) bytes (chunkFileName i, m) = .ok (bytes + m.len) := by
  unfold shardBytes
  simp only [chunkName_chunkFileName, if_true, take_chunkFileName, fromHex_hex8 hi, hm]
  refine bind_eq_ok.mpr ⟨i, rfl, bind_eq_ok.mpr ⟨true, ?_, ?_⟩⟩
  · exact congrArg Except.ok (decide_eq_true rfl)
  · simp only [ite_throw_bind_eq_ok, pure_eq_ok]
    exact ⟨by simp, Nat.not_le.mpr hlen, trivial⟩

namespace Description

/-- What the chunks, the pages and the names of a description of `n` chunks make up. -/
structure Partition (d : Description) (n : Nat) : Prop where
  chunks : d.chunks = .ok n
  /-- No arithmetic leaves its type. -/
  calm : ∀ i, Calm (d.length i) ∧ Calm (d.pageLen i) ∧ ∀ source, Calm (chunkFile source d i)
  /-- The chunks are numbered from zero on, below `n`. -/
  index : ∀ i, (∃ len, d.length i = .ok len) ↔ i < n
  nonempty : ∀ i len, d.length i = .ok len → 0 < len
  consecutive : ∀ i len, d.length i = .ok len → i * d.chunkSize.toNat + len
    = if i + 1 < n then (i + 1) * d.chunkSize.toNat else d.size
  /-- A byte offset is in the file exactly when it is in one of the chunks. -/
  cover : ∀ x, x < d.size ↔ ∃ i len, d.length i = .ok len ∧
    i * d.chunkSize.toNat ≤ x ∧ x < i * d.chunkSize.toNat + len
  page : ∀ start, (∃ len, d.pageLen start = .ok len) ↔ start < n ∧ pageChunks ∣ start
  /-- The walk over the pages visits every page start once and ends at `n`. -/
  walk : ∃ starts : List Nat, starts.Pairwise (· < ·) ∧
    (∀ start, start ∈ starts ↔ ∃ len, d.pageLen start = .ok len) ∧
    ∀ starts' stop, Pages d 0 starts' stop ↔ starts' = starts ∧ stop = n
  /-- The name of a chunk passes the checks of `payload_bytes`. -/
  name : ∀ i < n, ∃ shard child : String, Store.name d i = .ok (shard ++ "/" ++ child) ∧
    shardName shard = true ∧ ∃ k, fromHex shard.utf8 = .ok k ∧ chunkName child = true ∧
      ∀ bytes m, m.isFile = true → bytes + m.len < 2 ^ 64 →
        shardBytes k bytes (child, m) = .ok (bytes + m.len)
  distinct : ∀ i j s, Store.name d i = .ok s → Store.name d j = .ok s → i = j

/-- The pages, chunks and shards of a file partition it: everything `Partition` says holds of every
geometry that `count` accepts. -/
theorem partition_exact {size n : Nat} {c : UInt32} (h : count size c = .ok n) (d : Description)
    (hsize : d.size = size) (hc : d.chunkSize = c) : d.Partition n := by
  obtain rfl := chunkCount_eq h hsize hc
  -- A page starts at a multiple of the page size, within the file.
  have hpage (start : Nat) : (∃ len, d.pageLen start = .ok len) ↔
      start < d.chunkCount ∧ pageChunks ∣ start := by
    simp only [pageLen_ok, exists_and_left, exists_eq', and_true, Nat.dvd_iff_mod_eq_zero]
  refine
    { chunks := chunks_eq
      calm := fun i => ⟨fine_length.calm, fine_pageLen.calm, fun _ => fine_chunkFile.calm⟩
      index := fun i => by simp [length_ok]
      nonempty := fun i len hl => ?_
      consecutive := fun i len hl => ?_
      cover := fun x => ⟨fun hx => ?_, ?_⟩
      page := hpage
      walk := ⟨d.pageStarts, pageStarts_sorted, fun start => ?_, fun _ _ => pages_iff⟩
      name := fun i hi => ?_
      distinct := fun i j s hi hj => ?_ }
  · obtain ⟨hi, rfl⟩ := length_ok.mp hl
    exact pieceLen_pos hi
  · obtain ⟨hi, rfl⟩ := length_ok.mp hl
    exact end_of_chunk hi
  · obtain ⟨hi, hle, hlt⟩ := mem_chunk hx
    exact ⟨_, _, length_ok.mpr ⟨hi, rfl⟩, hle, hlt⟩
  · rintro ⟨i, len, hl, -, hlt⟩
    obtain ⟨hi, rfl⟩ := length_ok.mp hl
    unfold pieceLen at hlt
    have := mul_lt_size.mp hi
    omega
  · rw [mem_pageStarts, hpage]
  -- An index has 32 bits, so its name has eight digits.
  · have hi32 := hi.trans chunkCount_lt
    refine ⟨hex8 (i / shardChunks), chunkFileName i, ?_, shardName_hex8 _, i / shardChunks,
      fromHex_hex8 (by simp only [shardChunks]; omega), chunkName_chunkFileName i,
      fun bytes m hm hb => shardBytes_chunk hi32 hm hb⟩
    rw [name_eq, if_pos hi, chunkString, chunkFileName, String.append_assoc]
  · -- The name ends in the index, so the paths of two indices are different.
    rw [name_eq] at hi hj
    split at hi
    · split at hj
      · next hi' hj' =>
        have hs : chunkString i = chunkString j := by
          rw [Except.ok.inj hi, Except.ok.inj hj]
        refine @Root.chunkPath_injective .opened _ _ (hi'.trans chunkCount_lt)
          (hj'.trans chunkCount_lt) ?_
        rw [Root.chunkPath, hs, Root.chunkPath]
      · cases hj
    · cases hi

/-- A file of two chunks and one byte. -/
theorem partition_exact_small : (⟨8193, 4096, zeroHash, [], by decide⟩ : Description).Partition 3 :=
  partition_exact (show count 8193 4096 = .ok 3 by rfl) _ rfl rfl

end Description

end RrSync

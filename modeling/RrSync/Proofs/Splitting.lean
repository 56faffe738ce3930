import RrSync.Proofs.Slots

/-!
# `RrSync.Proofs.Splitting`: a file and its chunks

The sender cuts a file by a running remainder when it scans it and by offsets when it sends a
chunk; both give the same pieces (`scan_hashes`, `chunkFile_eq`), and the pieces in order are the
file (`flatMap_piece`). The hash pages of a description, sent one after the other, rebuild it
(`transmit_eq`).
-/

set_option autoImplicit false

namespace RrSync

open Lib

namespace Description

variable {d : Description} {f : Bytes} {i : Nat}

/-- The bytes of the chunk `i` of the file `f`. -/
def piece (d : Description) (f : Bytes) (i : Nat) : Bytes :=
  (f.drop (i * d.chunkSize.toNat)).take d.chunkSize.toNat

/-! ### Cutting a file -/

/-- The pieces of a file, by their number. -/
theorem pieces_get {n k : Nat} {data : Bytes} :
    (pieces n k data)[i]? = if i < k ∧ i * n < data.length
      then some ((data.drop (i * n)).take n) else none := by
  induction k generalizing data i with
  | zero => simp [pieces]
  | succ k ih =>
    unfold pieces
    -- Nothing is left to cut, or there is a first piece.
    by_cases h0 : data = []
    · simp [h0]
    · have hpos := List.length_pos_of_ne_nil h0
      rw [if_neg h0]
      cases i with
      | zero => simp [hpos]
      | succ i =>
        rw [List.getElem?_cons_succ, ih, List.length_drop, List.drop_drop]
        have h1 : n + i * n = (i + 1) * n := by rw [Nat.add_one_mul, Nat.add_comm]
        have h2 : (i < k ∧ i * n < data.length - n) ↔ (i + 1 < k + 1 ∧ (i + 1) * n < data.length) := by
          rw [← h1]
          omega
        simp only [h1, h2]

/-- A piece is as long as the description says. -/
theorem length_piece (hsize : d.size = f.length) : (d.piece f i).length = d.pieceLen i := by
  unfold piece pieceLen
  rw [List.length_take, List.length_drop, hsize]
  exact Nat.min_comm _ _

/-- The pieces before an offset are the bytes before it. -/
theorem flatMap_piece_take (n : Nat) :
    (List.range n).flatMap (d.piece f) = f.take (n * d.chunkSize.toNat) := by
  induction n with
  | zero => simp
  | succ n ih =>
    rw [List.range_succ, List.flatMap_append, ih, Nat.succ_mul, List.take_add]
    simp [piece]

/-- The pieces of a file, one after the other, are the file. -/
theorem flatMap_piece (hsize : d.size = f.length) :
    (List.range d.chunkCount).flatMap (d.piece f) = f := by
  rw [flatMap_piece_take]
  refine List.take_of_length_le ?_
  have h : ¬ d.chunkCount < d.chunkCount := Nat.lt_irrefl _
  rw [mul_lt_size] at h
  omega

/-- What the sender sends for a chunk. -/
theorem chunkFile_eq (hsize : d.size = f.length) (hi : i < d.chunkCount) :
    chunkFile f d i = .ok (d.piece f i) := by
  have hlt := mul_lt_size.mp hi
  have hmax := d.geometry.2.2
  simp only [maxFile] at hmax
  -- Both the offset and the length are in range, and the file is long enough.
  have hlen : (f.drop (i * d.chunkSize.toNat)).take (d.pieceLen i) = d.piece f i := by
    unfold piece pieceLen
    rw [List.take_eq_take_iff, List.length_drop]
    omega
  unfold chunkFile
  rw [length_eq, if_pos hi, checked64, if_neg (by omega)]
  show (if ((f.drop (i * d.chunkSize.toNat)).take (d.pieceLen i)).length ≠ d.pieceLen i then
    (throw (.protocol "short chunk snapshot") : Except Error Bytes) else
    pure ((f.drop (i * d.chunkSize.toNat)).take (d.pieceLen i))) = _
  rw [hlen, if_neg (not_not.mpr (length_piece hsize))]
  rfl

section
variable [Sha256] {c : UInt32}

/-- The description of a file accepts each of its pieces. -/
theorem accepts_piece (hsize : d.size = f.length)
    (hh : d.hashes = (List.range d.chunkCount).map fun i => digest (d.piece f i))
    (hi : i < d.chunkCount) : d.Accepts i (d.piece f i) := by
  refine ⟨length_piece hsize, ?_⟩
  rw [hh, List.getElem?_map, List.getElem?_range hi]
  rfl

/-- What a scan finds: the digests of the file and of its pieces. -/
theorem scan_hashes (h : scan f c = .ok d) : d.size = f.length ∧ d.chunkSize = c ∧
    d.hash = digest f ∧
      d.hashes = (List.range d.chunkCount).map fun i => digest (d.piece f i) := by
  simp only [scan, bind_eq_ok] at h
  obtain ⟨n, hn, h⟩ := h
  split at h
  · next hg =>
    obtain rfl := pure_eq_ok.mp h
    refine ⟨rfl, rfl, rfl, List.ext_getElem? fun i => ?_⟩
    obtain ⟨-, rfl⟩ := count_ok.mp hn
    set d : Description := ⟨f.length, c, digest f,
      (pieces c.toNat (divCeil f.length c.toNat) f).map digest, hg⟩ with hd
    have hiff : i < d.chunkCount ↔ i * c.toNat < f.length := mul_lt_size
    rw [List.getElem?_map, List.getElem?_map, pieces_get]
    -- The pieces are the chunks, and there are none after them.
    by_cases hi : i < d.chunkCount
    · rw [if_pos ⟨hi, hiff.mp hi⟩, List.getElem?_range hi]
      rfl
    · rw [if_neg fun h => hi h.1, List.getElem?_eq_none (by simpa using hi)]
      rfl
  · cases h

/-- When the number of chunks can be computed, the file has a description. -/
theorem scan_succeeds {n : Nat} (h : count f.length c = .ok n) : ∃ d, scan f c = .ok d := by
  obtain ⟨hg, -⟩ := count_ok.mp h
  refine ⟨⟨f.length, c, digest f, (pieces c.toNat n f).map digest, hg⟩, ?_⟩
  unfold scan
  rw [h]
  exact dif_pos hg

/-! ### Sending the hash pages -/

omit [Sha256] in
/-- Reading hashes one after the other gives a part of the table. -/
theorem mapM_chunkHash {start : Nat} {xs : List Nat}
    (h : ∀ k ∈ xs, start + k < d.chunkCount ∧ start + k < d.hashes.length) :
    xs.mapM (fun k => d.chunkHash (start + k)) = .ok (xs.map fun k => d.hashes.getD (start + k) zeroHash) := by
  induction xs with
  | nil => rfl
  | cons k xs ih =>
    obtain ⟨h1, h2⟩ := h k List.mem_cons_self
    have hk : d.chunkHash (start + k) = .ok (d.hashes.getD (start + k) zeroHash) :=
      chunkHash_ok.mpr ⟨h1, by rw [List.getD_eq_getElem?_getD, List.getElem?_eq_getElem h2]; rfl⟩
    rw [List.mapM_cons, hk, ih fun j hj => h j (List.mem_cons_of_mem _ hj)]
    rfl

omit [Sha256] in
/-- A page of a full table is a part of it. -/
theorem page_eq {start : Nat} (hfull : d.hashes.length = d.chunkCount)
    (hstart : start < d.chunkCount ∧ start % pageChunks = 0) :
    d.page start = .ok ((d.hashes.drop start).take pageChunks) := by
  unfold page
  rw [pageLen_eq, if_pos hstart]
  show (List.range _).mapM _ = _
  rw [mapM_chunkHash]
  · refine congrArg Except.ok (List.ext_getElem? fun k => ?_)
    rw [List.getElem?_map, List.getElem?_take, List.getElem?_drop]
    -- Within the page the hashes are those of the table.
    by_cases hk : k < min (d.chunkCount - start) pageChunks
    · have h1 : start + k < d.hashes.length := by omega
      rw [List.getElem?_range hk, if_pos (by omega), List.getElem?_eq_getElem h1]
      simp [List.getD_eq_getElem?_getD, List.getElem?_eq_getElem h1]
    · rw [List.getElem?_eq_none (by rw [List.length_range]; omega)]
      by_cases hp : k < pageChunks
      · rw [if_pos hp, List.getElem?_eq_none (by omega)]
        rfl
      · rw [if_neg hp]
        rfl
  · intro k hk
    have := List.mem_range.mp hk
    omega

omit [Sha256] in
/-- A page at the end of the table extends it. -/
theorem writePage_end {page : List Hash} {m : Nat} {table : List Hash}
    (h : table.length = i + m) :
    (page.zipIdx m).foldl (fun table h => writeAt table (i + h.2) h.1) table = table ++ page := by
  induction page generalizing m table with
  | nil => simp
  | cons x page ih =>
    have hw : writeAt table (i + m) x = table ++ [x] := by
      unfold writeAt
      rw [if_neg (by omega), h, Nat.sub_self]
      simp
    rw [List.zipIdx_cons, List.foldl_cons]
    show (page.zipIdx (m + 1)).foldl _ (writeAt table (i + m) x) = _
    rw [hw, ih (by rw [List.length_append, h]; rfl), List.append_assoc]
    rfl

/-- The offsets of the pages. -/
def pageStarts (d : Description) : List Nat :=
  (List.range (divCeil d.chunkCount pageChunks)).map (· * pageChunks)

/-- Send the pages of `d` into the description `d'`, in order. -/
def transmit (d d' : Description) : Except Error Description :=
  d.pageStarts.foldlM (fun d' start => do d'.setPage start (← d.page start)) d'

omit [Sha256] in
/-- A page exists when its first chunk does. -/
theorem lt_divCeil {k : Nat} : k < divCeil d.chunkCount pageChunks ↔ k * pageChunks < d.chunkCount := by
  unfold divCeil
  simp only [pageChunks]
  omega

omit [Sha256] in
/-- After the pages have been sent the second description is the first. -/
theorem transmit_eq (hfull : d.hashes.length = d.chunkCount) :
    d.transmit { d with hashes := [] } = .ok d := by
  -- After n pages the table has its first n pages.
  have key : ∀ n ≤ divCeil d.chunkCount pageChunks,
      ((List.range n).map (· * pageChunks)).foldlM
        (fun d' start => do setPage d' start (← d.page start)) { d with hashes := [] }
          = .ok { d with hashes := d.hashes.take (n * pageChunks) } := by
    intro n
    induction n with
    | zero => exact fun _ => by simp [pure, Except.pure]
    | succ n ih =>
      intro hn
      have hlt := lt_divCeil.mp (Nat.lt_of_succ_le hn)
      have hstart : n * pageChunks < d.chunkCount ∧ n * pageChunks % pageChunks = 0 :=
        ⟨hlt, Nat.mul_mod_left _ _⟩
      have hset : setPage { d with hashes := d.hashes.take (n * pageChunks) } (n * pageChunks)
          ((d.hashes.drop (n * pageChunks)).take pageChunks)
            = .ok { d with hashes := d.hashes.take ((n + 1) * pageChunks) } := by
        refine setPage_ok.mpr ⟨hstart.1, hstart.2, ?_, ?_⟩
        · rw [List.length_take, List.length_drop, hfull]
          exact Nat.min_comm _ _
        · have hlen : (d.hashes.take (n * pageChunks)).length = n * pageChunks + 0 := by
            rw [List.length_take, hfull]
            omega
          show ({ d with hashes := _ } : Description) = _
          rw [writePage_end hlen, Nat.succ_mul, List.take_add]
      rw [List.range_succ, List.map_append, List.foldlM_append, ih (by omega)]
      show ((d.page (n * pageChunks) >>= fun page =>
        setPage { d with hashes := d.hashes.take (n * pageChunks) } (n * pageChunks) page)
          >>= pure) = _
      rw [page_eq hfull hstart]
      exact (bind_pure _).trans hset
  have h := key _ le_rfl
  unfold transmit pageStarts
  rw [h]
  -- All pages together are the whole table.
  have hall : d.hashes.take (divCeil d.chunkCount pageChunks * pageChunks) = d.hashes := by
    refine List.take_of_length_le ?_
    have : ¬ divCeil d.chunkCount pageChunks < divCeil d.chunkCount pageChunks := Nat.lt_irrefl _
    rw [lt_divCeil] at this
    omega
  rw [hall]

/-- The header of a scanned file is accepted, and has no hashes yet. -/
theorem header_eq (h : scan f c = .ok d) :
    header d.size d.chunkSize d.hash = .ok { d with hashes := [] } := by
  obtain ⟨h1, h2, h3, -⟩ := scan_hashes h
  unfold header
  rw [count_ok.mpr ⟨d.geometry, rfl⟩]
  show (if d.size = 0 ∧ d.hash ≠ digest [] then _ else _) = _
  rw [if_neg, dif_pos d.geometry]
  · rfl
  · rintro ⟨h0, hne⟩
    rw [h1, List.length_eq_zero_iff] at h0
    exact hne (by rw [h3, h0])

end

end Description

end RrSync

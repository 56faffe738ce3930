import RrSync.Proofs.ProtocolV2
import RrSync.Proofs.Panics

/-!
# `RrSync.Proofs.Geometry`: chunks and pages of a description

The geometry of a description was checked when it was built. So `chunks` is a number, no
subtraction of `length` and `page_len` leaves its type, and the pieces of a file are the
chunks of its description.
-/

set_option autoImplicit false

namespace RrSync

open Lib

namespace Description

variable (d : Description)

/-- The number of chunks. -/
def chunkCount : Nat := divCeil d.size d.chunkSize.toNat

/-- The length of the chunk `i`. -/
def pieceLen (i : Nat) : Nat := min (d.size - i * d.chunkSize.toNat) d.chunkSize.toNat

variable {d} {i start n : Nat}

/-- A description has been checked, so the number of its chunks is known. -/
theorem chunks_eq : d.chunks = .ok d.chunkCount := by
  unfold chunks
  rw [count_ok.mpr ⟨d.geometry, rfl⟩]
  rfl

/-- No chunk is empty. -/
theorem chunkSize_pos : 0 < d.chunkSize.toNat := by
  have h := d.geometry.1
  simp only [minChunkSize] at h
  omega

/-- A chunk exists exactly when it starts within the file. -/
theorem mul_lt_size : i < d.chunkCount ↔ i * d.chunkSize.toNat < d.size := by
  have hc := chunkSize_pos (d := d)
  unfold chunkCount divCeil
  rw [Nat.lt_iff_add_one_le, Nat.le_div_iff_mul_le hc, Nat.add_one_mul]
  omega

/-- A file has no more chunks than bytes. -/
theorem chunkCount_le : d.chunkCount ≤ d.size := by
  by_contra h
  have h1 := mul_lt_size.mp (Nat.lt_of_not_le h)
  have h2 : d.size ≤ d.size * d.chunkSize.toNat := Nat.le_mul_of_pos_right _ chunkSize_pos
  omega

/-- A chunk index fits in 32 bits. -/
theorem chunkCount_lt : d.chunkCount < 2 ^ 32 := by
  have h1 := chunkCount_le (d := d)
  have h2 := d.geometry.2.2
  simp only [maxFile] at h2
  omega

/-- The length of a chunk, without the arithmetic that could overflow. -/
theorem length_eq : d.length i = if i < d.chunkCount then .ok (d.pieceLen i)
    else .error (.protocol "chunk index out of range") := by
  unfold length
  rw [chunks_eq]
  by_cases h : i < d.chunkCount
  · have hlt := mul_lt_size.mp h
    have hmax := d.geometry.2.2
    simp only [maxFile] at hmax
    show (if d.chunkCount ≤ i then _ else _) = _
    rw [if_neg (by omega), if_pos h, checked64, if_neg (by omega)]
    show (checkedSub d.size (i * d.chunkSize.toNat) _ >>= _) = _
    rw [checkedSub, if_neg (by omega)]
    rfl
  · show (if d.chunkCount ≤ i then _ else _) = _
    rw [if_pos (by omega), if_neg h]
    rfl

/-- The same, as what `length` returns. -/
theorem length_ok : d.length i = .ok n ↔ i < d.chunkCount ∧ d.pieceLen i = n := by
  rw [length_eq]
  by_cases h : i < d.chunkCount <;> simp [h]

/-- The length of a page, without the arithmetic that could overflow. -/
theorem pageLen_eq : d.pageLen start = if start < d.chunkCount ∧ start % pageChunks = 0 then
    .ok (min (d.chunkCount - start) pageChunks)
    else .error (.protocol "invalid hash page offset") := by
  unfold pageLen
  rw [chunks_eq]
  show (if d.chunkCount ≤ start ∨ start % pageChunks ≠ 0 then _ else _) = _
  by_cases h : start < d.chunkCount ∧ start % pageChunks = 0
  · rw [if_neg (by omega), if_pos h, checkedSub, if_neg (by omega)]
    rfl
  · rw [if_pos (by omega), if_neg h]
    rfl

/-- The same, as what `page_len` returns. -/
theorem pageLen_ok : d.pageLen start = .ok n ↔
    start < d.chunkCount ∧ start % pageChunks = 0 ∧ min (d.chunkCount - start) pageChunks = n := by
  rw [pageLen_eq]
  by_cases h : start < d.chunkCount ∧ start % pageChunks = 0
  · rw [if_pos h, Except.ok.injEq]
    tauto
  · rw [if_neg h]
    simp only [reduceCtorEq, false_iff]
    tauto

/-! ### The hash table -/

/-- A page is accepted when it starts and ends where a page of the file does. -/
theorem setPage_ok {page : List Hash} {d' : Description} : d.setPage start page = .ok d' ↔
    start < d.chunkCount ∧ start % pageChunks = 0 ∧
      page.length = min (d.chunkCount - start) pageChunks ∧
      { d with hashes := page.zipIdx.foldl (fun table h => writeAt table (start + h.2) h.1)
                 d.hashes } = d' := by
  simp only [setPage, bind_eq_ok, pageLen_ok, ite_throw_bind_eq_ok, pure_eq_ok, ne_eq,
    Decidable.not_not]
  constructor
  · rintro ⟨_, ⟨h1, h2, rfl⟩, h3, rfl⟩
    exact ⟨h1, h2, h3, rfl⟩
  · rintro ⟨h1, h2, h3, rfl⟩
    exact ⟨_, ⟨h1, h2, rfl⟩, h3, rfl⟩

/-- The hash of a chunk is the record of the table. -/
theorem chunkHash_ok {h : Hash} : d.chunkHash i = .ok h ↔
    i < d.chunkCount ∧ d.hashes[i]? = some h := by
  simp only [chunkHash, bind_eq_ok, length_ok]
  cases d.hashes[i]? with
  | some x => simp [pure_eq_ok]
  | none => simp [throw_eq_ok]

/-! ### No panic -/

/-- `length` does not panic. -/
theorem fine_length : Fine (fun n => i < d.chunkCount ∧ d.pieceLen i = n) (d.length i) := by
  rw [length_eq]
  split
  · next h => exact ⟨h, rfl⟩
  · exact id

/-- `page_len` does not panic. -/
theorem fine_pageLen : Fine (fun n => start < d.chunkCount ∧ start % pageChunks = 0 ∧
    min (d.chunkCount - start) pageChunks = n) (d.pageLen start) := by
  rw [pageLen_eq]
  split
  · next h => exact ⟨h.1, h.2, rfl⟩
  · exact id

/-- `chunk_hash` does not panic: a record that is missing is an ordinary error. -/
theorem fine_chunkHash : Fine (fun h => d.hashes[i]? = some h) (d.chunkHash i) := by
  unfold chunkHash
  refine fine_bind fine_length fun _ _ => ?_
  cases d.hashes[i]? with
  | some h => exact rfl
  | none => exact id

/-- `count` does not panic, and returns only for a possible geometry. -/
theorem fine_count {size : Nat} {c : UInt32} : Fine (fun _ => Geometry size c) (count size c) := by
  cases h : count size c with
  | ok n => exact (count_ok.mp h).1
  | error e =>
    unfold count at h
    simp only [] at h
    split at h
    · cases h
      exact id
    · split at h
      · cases h
        exact id
      · cases h

/-- `set_page` does not panic. -/
theorem fine_setPage {page : List Hash} :
    Fine (fun d' => d.setPage start page = .ok d') (d.setPage start page) := by
  have h : Fine (fun _ => True) (d.setPage start page) :=
    fine_bind fine_pageLen fun _ _ => fine_check id fun _ => trivial
  cases hs : d.setPage start page with
  | ok d' => rfl
  | error e =>
    rw [hs] at h
    exact h

/-- A loop over a list whose turns do not panic. -/
theorem fine_mapM {α β : Type} {R : β → Prop} {f : α → Except Error β} {xs : List α}
    (hf : ∀ x ∈ xs, Fine R (f x)) : Fine (fun ys => ys.length = xs.length) (xs.mapM f) := by
  induction xs with
  | nil => exact rfl
  | cons x xs ih =>
    rw [List.mapM_cons]
    refine fine_bind (hf x (by simp)) fun y _ => ?_
    refine fine_bind (ih fun z hz => hf z (by simp [hz])) fun ys hys => ?_
    show (y :: ys).length = (x :: xs).length
    simp [hys]

/-- `page` does not panic, and returns as many hashes as the page has. -/
theorem fine_page : Fine (fun page => start < d.chunkCount ∧ start % pageChunks = 0 ∧
    page.length = min (d.chunkCount - start) pageChunks) (d.page start) := by
  refine fine_bind fine_pageLen fun n hn => ?_
  refine (fine_mapM (R := fun _ => True) fun i _ =>
    fine_chunkHash.imp fun _ _ => trivial).imp fun page hp => ?_
  obtain ⟨h1, h2, rfl⟩ := hn
  exact ⟨h1, h2, by simpa using hp⟩

/-- The same, as a fact about what was returned. -/
theorem page_ok {page : List Hash} (h : d.page start = .ok page) :
    start < d.chunkCount ∧ start % pageChunks = 0 ∧
      page.length = min (d.chunkCount - start) pageChunks := by
  have hp := @fine_page d start
  rw [h] at hp
  exact hp

/-- `scan` does not panic. -/
theorem fine_scan [Sha256] {file : Bytes} {c : UInt32} :
    Fine (fun d => scan file c = .ok d) (scan file c) := by
  have h : Fine (fun _ => True) (scan file c) := by
    refine fine_bind fine_count fun n hg => ?_
    rw [dif_pos hg]
    trivial
  cases hs : scan file c with
  | ok d' => rfl
  | error e =>
    rw [hs] at h
    exact h

/-- A description has the chunk size that was asked for. -/
theorem scan_chunkSize [Sha256] {file : Bytes} {c : UInt32} (h : scan file c = .ok d) :
    d.chunkSize = c := by
  simp only [scan, bind_eq_ok] at h
  obtain ⟨n, -, h⟩ := h
  split at h
  · cases h
    rfl
  · cases h

/-- Cutting a chunk out of a file does not panic. -/
theorem fine_chunkFile {file : Bytes} : Fine (fun piece => chunkFile file d i = .ok piece)
    (chunkFile file d i) := by
  have h : Fine (fun _ => True) (chunkFile file d i) := by
    refine fine_bind fine_length fun n hn => ?_
    have hlt := mul_lt_size.mp hn.1
    have hmax := d.geometry.2.2
    simp only [maxFile] at hmax
    rw [checked64, if_neg (by omega)]
    exact fine_check (β := PUnit) id fun _ => trivial
  cases hs : chunkFile file d i with
  | ok d' => rfl
  | error e =>
    rw [hs] at h
    exact h

end Description

end RrSync

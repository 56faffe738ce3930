import RrSync.Proofs.Protocol
import RrSync.Model.ProtocolV2

/-!
# `RrSync.Proofs.ProtocolV2`: the codec of the second protocol

The same pair of equivalences as for the first protocol, `Message.encode_ok` and
`Message.decode_ok`. A DESCRIPTION carries the header of a description, so what is read back
has an empty hash table.
-/

set_option autoImplicit false

namespace RrSync

open Lib

/-- `count` returns exactly for a possible geometry. -/
theorem Description.count_ok {size n : Nat} {c : UInt32} :
    Description.count size c = .ok n ↔ Geometry size c ∧ n = divCeil size c.toNat := by
  simp only [count, ite_throw_bind_eq_ok, pure_eq_ok, Decidable.not_not, not_or,
    Nat.not_lt, Nat.not_le, Geometry]
  constructor
  · rintro ⟨⟨h1, h2⟩, ⟨h3, -⟩, rfl⟩
    exact ⟨⟨h1, h2, h3⟩, rfl⟩
  · rintro ⟨⟨h1, h2, h3⟩, rfl⟩
    refine ⟨⟨h1, h2⟩, ⟨h3, ?_⟩, rfl⟩
    -- A file has fewer chunks than bytes.
    have h4 : divCeil size c.toNat ≤ size := by
      simp only [minChunkSize] at h1
      cases size with
      | zero => exact Nat.le_of_eq (Nat.div_eq_of_lt (by omega))
      | succ s =>
        have h5 : s ≤ c.toNat * s := Nat.le_mul_of_pos_left _ (by omega)
        exact Nat.div_le_of_le_mul (by rw [Nat.mul_succ]; omega)
    simp only [maxFile] at h3
    omega

/-- `header` makes a description without hashes. An empty file has one hash only. -/
theorem Description.header_ok [Sha256] {size : Nat} {c : UInt32} {hash : Hash} {d : Description} :
    Description.header size c hash = .ok d ↔ d.size = size ∧ d.chunkSize = c ∧ d.hash = hash
      ∧ d.hashes = [] ∧ (size = 0 → hash = digest []) := by
  simp only [header, bind_eq_ok, count_ok, ite_throw_bind_eq_ok, dite_pure_eq_ok]
  constructor
  · rintro ⟨_, ⟨hg, rfl⟩, he, -, rfl⟩
    exact ⟨rfl, rfl, rfl, rfl, fun hs => Decidable.not_not.mp fun hh => he ⟨hs, hh⟩⟩
  · rintro ⟨rfl, rfl, rfl, hh, he⟩
    refine ⟨_, ⟨d.geometry, rfl⟩, fun h => h.2 (he h.1), d.geometry, ?_⟩
    cases d
    simp_all

namespace V2

/-- A page starts at a multiple of its size and does not leave the words. -/
theorem pageRange_ok {start : UInt32} {count : Nat} {u : Unit} : pageRange start count = .ok u ↔
    start.toNat % pageChunks = 0 ∧ 0 < count ∧ count ≤ pageChunks
      ∧ start.toNat + count < 2 ^ 32 := by
  unfold pageRange
  rw [ite_throw_eq_ok, pure_eq_ok]
  simp only [not_or, Decidable.not_not, ne_eq, Nat.not_lt, Nat.not_le, Nat.pos_iff_ne_zero,
    and_true]

/-! ### Lists of words and of hashes -/

/-- A list of missing chunks is not longer than its page. -/
theorem validateMissing_bound {chunks : List UInt32} {start : UInt32} {count : Nat}
    (h : validateMissing chunks start count = .ok ()) :
    pageRange start count = .ok () ∧ chunks.length ≤ count := by
  simp only [validateMissing, bind_eq_ok, ite_throw_bind_eq_ok, Nat.not_lt] at h
  obtain ⟨_, hp, hl, -⟩ := h
  exact ⟨hp, hl⟩

namespace Reader

/-- Words are read as they are written. -/
theorem words_flatMap (cs : List UInt32) : words cs.length (cs.flatMap Writer.u32) = cs := by
  induction cs with
  | nil => rfl
  | cons c cs ih =>
    have h4 : (Writer.u32 c).length = 4 := length_toBytes _ _
    have hlt : c.toNat < 256 ^ 4 := by
      have := c.toNat_lt
      omega
    rw [List.flatMap_cons, List.length_cons, words, List.take_left' h4, List.drop_left' h4, ih,
      Writer.u32, ofBytes_toBytes, Nat.mod_eq_of_lt hlt, UInt32.ofNat_toNat]

/-- They are written as they are read. -/
theorem flatMap_words {n : Nat} {raw : Bytes} (h : raw.length = n * 4) :
    (words n raw).length = n ∧ (words n raw).flatMap Writer.u32 = raw := by
  induction n generalizing raw with
  | zero =>
    obtain rfl := List.length_eq_zero_iff.mp (by omega : raw.length = 0)
    exact ⟨rfl, rfl⟩
  | succ n ih =>
    have h4 : (raw.take 4).length = 4 := by
      rw [List.length_take]
      omega
    have hdrop : (raw.drop 4).length = n * 4 := by
      rw [List.length_drop]
      omega
    obtain ⟨ih1, ih2⟩ := ih hdrop
    have hlt : ofBytes (raw.take 4) < 2 ^ 32 := by simpa [h4] using ofBytes_lt (raw.take 4)
    -- Four bytes make a number, which is written as the same bytes.
    have hw : Writer.u32 (UInt32.ofNat (ofBytes (raw.take 4))) = raw.take 4 := by
      rw [Writer.u32, UInt32.toNat_ofNat_of_lt' hlt]
      simpa [h4] using toBytes_ofBytes (raw.take 4)
    refine ⟨by rw [words, List.length_cons, ih1], ?_⟩
    rw [words, List.flatMap_cons, ih2, hw, List.take_append_drop]

/-- Arrays are read as their bytes, one after the other. -/
theorem exact_arrays (k n : Nat) : Exact (arrays k n) fun hs e =>
    hs.length = n ∧ e = hs.flatMap Vector.toList := by
  induction n with
  | zero =>
    refine (exact_pure []).congr fun hs e => ?_
    constructor
    · rintro ⟨rfl, rfl⟩
      exact ⟨rfl, rfl⟩
    · rintro ⟨hl, rfl⟩
      obtain rfl := List.length_eq_zero_iff.mp hl
      exact ⟨rfl, rfl⟩
  | succ n ih =>
    -- One array, then the others.
    refine (RrSync.Reader.exact_array.bind fun h => ih.bind fun hs => exact_pure _).congr
      fun as e => ?_
    constructor
    · rintro ⟨h, _, _, rfl, ⟨hs, _, _, ⟨rfl, rfl⟩, ⟨rfl, rfl⟩, rfl⟩, rfl⟩
      exact ⟨rfl, by simp⟩
    · rintro ⟨hl, rfl⟩
      match as, hl with
      | h :: hs, hl =>
        exact ⟨h, _, _, rfl, ⟨hs, _, [], ⟨Nat.succ.inj hl, rfl⟩, ⟨rfl, rfl⟩, rfl⟩, by simp⟩

end Reader

/-! ### Messages -/

namespace Message

/-- The tag of a message. -/
def tag : Message → UInt8
  | .common m => m.tag
  | .describe .. => 10
  | .description .. => 11
  | .missing .. => 12
  | .chunkBegin .. => 13
  | .chunkCommit .. => 14
  | .chunkGet .. => 15
  | .chunkVerified .. => 16
  | .fileCommit _ => 17
  | .fileVerified _ => 18
  | .hashesGet .. => 19
  | .hashes .. => 20

/-- The file a message of the second protocol is about. -/
def file? : Message → Option UInt32
  | .common _ => none
  | .describe i _ | .description i _ | .hashesGet i _ | .hashes i _ _ | .missing i _ _ _
  | .chunkBegin i _ | .chunkCommit i _ _ | .chunkGet i _ | .chunkVerified i _ | .fileCommit i
  | .fileVerified i => some i

/-- What follows the tag, and the file index if there is one. -/
def fields : Message → Bytes
  | .common m => m.fields
  | .describe _ chunkSize => Writer.u32 chunkSize
  | .description _ d => Writer.u64 d.size ++ Writer.u32 d.chunkSize ++ d.hash.toList
  | .hashesGet _ start => Writer.u32 start
  | .hashes _ start hs => Writer.u32 start ++ Writer.u32 (UInt32.ofNat hs.length)
    ++ hs.flatMap Vector.toList
  | .missing _ start count chunks => Writer.u32 start ++ Writer.u32 count
    ++ Writer.u32 (UInt32.ofNat chunks.length) ++ chunks.flatMap Writer.u32
  | .chunkBegin _ c | .chunkGet _ c | .chunkVerified _ c => Writer.u32 c
  | .chunkCommit _ c resource => Writer.u32 c ++ resource.toList
  | .fileCommit _ | .fileVerified _ => []

/-- The bytes of a message: version, tag, the index of a file when there is one, and the fields. -/
def bytes (m : Message) : Bytes :=
  Writer.u8 version ++ Writer.u8 m.tag ++ (m.file?.map Writer.u32).getD [] ++ m.fields

/-- What the encoder asks of a message, besides the length of its encoding. -/
def Sendable (m : Message) : Prop :=
  (∀ i ∈ m.file?, fileIndex i = .ok ()) ∧
  match m with
  | .common m => m.Sendable ∧ commonTag m.tag = true
  | .describe _ chunkSize => Geometry 0 chunkSize
  | .hashesGet _ start => pageRange start 1 = .ok ()
  | .hashes _ start hs => pageRange start hs.length = .ok ()
  | .missing _ start count chunks => validateMissing chunks start count.toNat = .ok ()
  | _ => True

/-- An ERROR whose text is written but not read. -/
def LongError : Message → Prop
  | .common m => m.LongError
  | _ => False

/-- What only a decoder gives: no long error, and a description that is a header. -/
def Received [Sha256] : Message → Prop
  | .common m => ¬ m.LongError
  | .description _ d => d.hashes = [] ∧ (d.size = 0 → d.hash = digest [])
  | _ => True

/-- A message about a file is written exactly when it is within the limits. -/
theorem write_ok {m : Message} {w : Bytes} (hm : m.file?.isSome) : m.write = .ok w ↔
    m.Sendable ∧ w = m.bytes := by
  cases m with
  | common m => cases hm
  | describe i c =>
    simp only [write, Sendable, bytes, fields, tag, file?, bind_eq_ok, Description.count_ok,
      pure_eq_ok]
    constructor
    · rintro ⟨_, hi, _, ⟨hg, rfl⟩, rfl⟩
      exact ⟨⟨by simpa using hi, hg⟩, by simp⟩
    · rintro ⟨⟨hi, hg⟩, rfl⟩
      exact ⟨(), hi i rfl, _, ⟨hg, rfl⟩, by simp⟩
  | description i d =>
    simp only [write, Sendable, bytes, fields, tag, file?, bind_eq_ok, ite_throw_bind_eq_ok,
      pure_eq_ok, and_true]
    constructor
    · rintro ⟨_, hi, -, rfl⟩
      exact ⟨by simpa using hi, by simp⟩
    · rintro ⟨hi, rfl⟩
      exact ⟨(), hi i rfl, Nat.not_lt.mpr d.geometry.2.2, by simp⟩
  -- hashes | missing => | A page has its range checked, and the other messages only their index.
  | hashesGet | hashes | missing =>
    simp only [write, Sendable, bytes, fields, tag, file?, bind_eq_ok, pure_eq_ok]
    constructor
    · rintro ⟨_, hi, _, hp, rfl⟩
      exact ⟨⟨by simpa using hi, hp⟩, by simp⟩
    · rintro ⟨⟨hi, hp⟩, rfl⟩
      exact ⟨(), hi _ rfl, (), hp, by simp⟩
  | chunkBegin | chunkCommit | chunkGet | chunkVerified | fileCommit | fileVerified =>
    simp only [write, Sendable, bytes, fields, tag, file?, bind_eq_ok, pure_eq_ok, and_true]
    constructor
    · rintro ⟨_, hi, rfl⟩
      exact ⟨by simpa using hi, by simp⟩
    · rintro ⟨hi, rfl⟩
      exact ⟨(), hi _ rfl, by simp⟩

/-- A common message gets the other version, and no message without a common tag does. -/
theorem retag_ok {m : RrSync.Message} {b : Bytes} : retag m.bytes = .ok b ↔
    commonTag m.tag = true ∧ b = (common m).bytes := by
  simp only [retag, RrSync.Message.bytes, Writer.u8, List.cons_append, List.nil_append, index,
    List.getElem?_cons_succ, List.getElem?_cons_zero, bind_eq_ok, Except.ok.injEq, exists_eq_left',
    ite_throw_bind_eq_ok, pure_eq_ok, Bool.not_eq_true', Bool.not_eq_false, bytes, tag, file?,
    Option.map_none, Option.getD_none, List.append_nil, fields, List.set_cons_zero]
  exact and_congr_right fun _ => eq_comm

/-- The encoder writes `bytes`, and this says what it asks. -/
theorem encode_ok {m : Message} {b : Bytes} : m.encode = .ok b ↔
    m.Sendable ∧ b = m.bytes ∧ b.length ≤ maxControl := by
  -- A message of the second protocol is written here, a common one by the first protocol under
  -- another version.
  by_cases hf : m.file?.isSome
  · have key : m.encode = (do
        let w ← m.write
        if maxControl < w.length then throw (.protocol "control message limit")
        pure w) := by
      cases m with
      | common m => cases hf
      | _ => rfl
    rw [key]
    simp only [bind_eq_ok, ite_throw_bind_eq_ok, pure_eq_ok, Nat.not_lt, write_ok hf]
    constructor
    · rintro ⟨_, ⟨hs, rfl⟩, hl, rfl⟩
      exact ⟨hs, rfl, hl⟩
    · rintro ⟨hs, rfl, hl⟩
      exact ⟨_, ⟨hs, rfl⟩, hl, rfl⟩
  · cases m with
    | common m =>
      have hl : (common m).bytes.length = m.bytes.length := by
        simp [bytes, RrSync.Message.bytes, tag, file?, fields, Writer.u8]
      simp only [encode, bind_eq_ok, RrSync.Message.encode_ok, Sendable, file?]
      constructor
      · rintro ⟨_, ⟨hs, rfl, hb⟩, h⟩
        obtain ⟨ht, rfl⟩ := retag_ok.mp h
        exact ⟨⟨by simp, hs, ht⟩, rfl, hl ▸ hb⟩
      · rintro ⟨⟨-, hs, ht⟩, rfl, hb⟩
        exact ⟨_, ⟨hs, rfl, hl ▸ hb⟩, retag_ok.mpr ⟨ht, rfl⟩⟩
    | _ => exact absurd rfl hf

end Message

namespace Reader

open RrSync.Reader

variable [Sha256]

/-- The messages of a tag that are read after their file index, and what from. -/
def Reads (tag : UInt8) (i : UInt32) (m : Message) (e : Bytes) : Prop :=
  m.tag = tag ∧ m.file? = some i ∧ (m.Sendable ∧ m.Received) ∧ e = m.fields

section
variable {i : UInt32} (hi : fileIndex i = .ok ())
include hi

/-- DESCRIBE. -/
theorem exact_describe : Exact (do
    let chunkSize ← u32
    let _ ← (Description.count 0 chunkSize : Except Error Nat)
    pure (.describe i chunkSize)) (Reads 10 i) := by
  refine (exact_u32.bind fun c => (exact_lift _).bind fun n => exact_pure _).congr fun m e => ?_
  simp only [Description.count_ok]
  constructor
  · rintro ⟨c, _, _, rfl, ⟨_, _, _, ⟨⟨hg, rfl⟩, rfl⟩, ⟨rfl, rfl⟩, rfl⟩, rfl⟩
    exact ⟨rfl, rfl, ⟨⟨by simpa [Message.file?] using hi, hg⟩, trivial⟩, by simp [Message.fields]⟩
  · rintro ⟨ht, hf, ⟨hs, -⟩, rfl⟩
    cases m with
    | describe j c =>
      cases hf
      exact ⟨c, _, _, rfl, ⟨_, _, [], ⟨⟨hs.2, rfl⟩, rfl⟩, ⟨rfl, rfl⟩, rfl⟩, by simp [Message.fields]⟩
    | common m => cases hf
    | _ => exact absurd ht (by simp [Message.tag])

/-- DESCRIPTION. -/
theorem exact_description : Exact (do
    let size ← u64
    if maxFile < size.toNat then throw (.protocol "file exceeds manifest limit")
    let chunkSize ← u32
    let _ ← (Description.count size.toNat chunkSize : Except Error Nat)
    let hash ← array 32
    let d ← (Description.header size.toNat chunkSize hash : Except Error Description)
    pure (.description i d)) (Reads 11 i) := by
  refine (exact_u64.bind fun size => Exact.guard (exact_u32.bind fun c => (exact_lift _).bind
    fun n => exact_array.bind fun hash => (exact_lift _).bind fun d => exact_pure _)).congr
      fun m e => ?_
  -- The geometry is checked before the description is made from it.
  simp only [Description.count_ok, Description.header_ok]
  constructor
  · rintro ⟨size, _, _, rfl, ⟨-, c, _, _, rfl, ⟨n, _, _, ⟨⟨hg, rfl⟩, rfl⟩, ⟨hash, _, _, rfl,
      ⟨d, _, _, ⟨⟨hsize, rfl, rfl, hh, he⟩, rfl⟩, ⟨rfl, rfl⟩, rfl⟩, rfl⟩, rfl⟩, rfl⟩, rfl⟩
    exact ⟨rfl, rfl, ⟨⟨by simpa [Message.file?] using hi, trivial⟩, hh, fun h => he (hsize ▸ h)⟩,
      by simp [Message.fields, hsize]⟩
  · rintro ⟨ht, hf, ⟨-, hr⟩, rfl⟩
    cases m with
    | description j d =>
      cases hf
      obtain ⟨hh, he⟩ := hr
      have hmax := d.geometry.2.2
      have hsize : (UInt64.ofNat d.size).toNat = d.size :=
        UInt64.toNat_ofNat_of_lt' (Nat.lt_of_le_of_lt hmax (by decide))
      refine ⟨.ofNat d.size, _, _, rfl, ⟨by omega, d.chunkSize, _, _, rfl, ⟨_, _, _,
        ⟨⟨by rw [hsize]; exact d.geometry, rfl⟩, rfl⟩, ⟨d.hash, _, _, rfl, ⟨d, _, [],
        ⟨⟨hsize.symm, rfl, rfl, hh, fun h => he (hsize ▸ h)⟩, rfl⟩, ⟨rfl, rfl⟩, rfl⟩, rfl⟩, rfl⟩,
        rfl⟩, ?_⟩
      simp [Message.fields, hsize]
    | common m => cases hf
    | _ => exact absurd ht (by simp [Message.tag])

/-- MISSING. -/
theorem exact_missing : Exact (do
    let start ← u32
    let pageCount ← u32
    let _ ← (pageRange start pageCount.toNat : Except Error Unit)
    let count ← u32
    if pageCount < count then throw (.protocol "missing page count")
    let raw ← take (count.toNat * 4)
    let chunks := words count.toNat raw
    let _ ← (validateMissing chunks start pageCount.toNat : Except Error Unit)
    pure (.missing i start pageCount chunks)) (Reads 12 i) := by
  refine (exact_u32.bind fun start => exact_u32.bind fun count => (exact_lift _).bind fun u =>
    exact_u32.bind fun n => Exact.guard (exact_take.bind fun raw => (exact_lift _).bind
      fun u => exact_pure _)).congr fun m e => ?_
  constructor
  · rintro ⟨start, _, _, rfl, ⟨count, _, _, rfl, ⟨_, _, _, ⟨-, rfl⟩, ⟨n, _, _, rfl, ⟨-, raw, _, _,
      ⟨rfl, hn⟩, ⟨_, _, _, ⟨hv, rfl⟩, ⟨rfl, rfl⟩, rfl⟩, rfl⟩, rfl⟩, rfl⟩, rfl⟩, rfl⟩
    obtain ⟨hlen, hraw⟩ := flatMap_words hn
    exact ⟨rfl, rfl, ⟨⟨by simpa [Message.file?] using hi, hv⟩, trivial⟩,
      by simp [Message.fields, hlen, hraw]⟩
  · rintro ⟨ht, hf, ⟨hs, -⟩, rfl⟩
    cases m with
    | missing j start count chunks =>
      cases hf
      have hv : validateMissing chunks start count.toNat = .ok () := hs.2
      -- What the reader checks before it takes the list is part of `validateMissing`.
      have hp := validateMissing_bound hv
      have hn : (UInt32.ofNat chunks.length).toNat = chunks.length :=
        UInt32.toNat_ofNat_of_lt' (Nat.lt_of_le_of_lt hp.2 count.toNat_lt)
      have hw : words chunks.length (chunks.flatMap Writer.u32) = chunks := words_flatMap chunks
      have hlen : (chunks.flatMap Writer.u32).length = chunks.length * 4 := by
        simp [List.length_flatMap, Writer.u32]
      refine ⟨start, _, _, rfl, ⟨count, _, _, rfl, ⟨(), _, _, ⟨hp.1, rfl⟩, ⟨_, _, _, rfl, ⟨?_, _, _,
        [], ⟨rfl, by rw [hn, hlen]⟩, ⟨(), _, [], ⟨?_, rfl⟩, ⟨?_, rfl⟩, rfl⟩, rfl⟩, rfl⟩, rfl⟩, rfl⟩, ?_⟩
      · rw [UInt32.lt_iff_toNat_lt, hn]
        omega
      · rw [hn, hw]
        exact hv
      · rw [hn, hw]
      · simp [Message.fields]
    | common m => cases hf
    | _ => exact absurd ht (by simp [Message.tag])

/-- HASHES_GET. -/
theorem exact_hashesGet : Exact (do
    let start ← u32
    let _ ← (pageRange start 1 : Except Error Unit)
    pure (.hashesGet i start)) (Reads 19 i) := by
  refine (exact_u32.bind fun start => (exact_lift _).bind fun u => exact_pure _).congr
    fun m e => ?_
  constructor
  · rintro ⟨start, _, _, rfl, ⟨_, _, _, ⟨hp, rfl⟩, ⟨rfl, rfl⟩, rfl⟩, rfl⟩
    exact ⟨rfl, rfl, ⟨⟨by simpa [Message.file?] using hi, hp⟩, trivial⟩, by simp [Message.fields]⟩
  · rintro ⟨ht, hf, ⟨hs, -⟩, rfl⟩
    cases m with
    | hashesGet j start =>
      cases hf
      exact ⟨start, _, _, rfl, ⟨(), _, [], ⟨hs.2, rfl⟩, ⟨rfl, rfl⟩, rfl⟩, by simp [Message.fields]⟩
    | common m => cases hf
    | _ => exact absurd ht (by simp [Message.tag])

/-- HASHES. -/
theorem exact_hashes : Exact (do
    let start ← u32
    let count ← u32
    let _ ← (pageRange start count.toNat : Except Error Unit)
    let hashes ← arrays 32 count.toNat
    pure (.hashes i start hashes)) (Reads 20 i) := by
  refine (exact_u32.bind fun start => exact_u32.bind fun count => (exact_lift _).bind fun u =>
    (exact_arrays 32 _).bind fun hs => exact_pure _).congr fun m e => ?_
  constructor
  · rintro ⟨start, _, _, rfl, ⟨count, _, _, rfl, ⟨_, _, _, ⟨hp, rfl⟩, ⟨hs, _, _, ⟨hl, rfl⟩,
      ⟨rfl, rfl⟩, rfl⟩, rfl⟩, rfl⟩, rfl⟩
    rw [← hl] at hp
    exact ⟨rfl, rfl, ⟨⟨by simpa [Message.file?] using hi, hp⟩, trivial⟩,
      by simp [Message.fields, hl]⟩
  · rintro ⟨ht, hf, ⟨hs, -⟩, rfl⟩
    cases m with
    | hashes j start hashes =>
      cases hf
      have hp : pageRange start hashes.length = .ok () := hs.2
      -- A page is short enough for its length to be written.
      have hn : (UInt32.ofNat hashes.length).toNat = hashes.length := by
        exact UInt32.toNat_ofNat_of_lt' (Nat.lt_of_le_of_lt (pageRange_ok.mp hp).2.2.1 (by decide))
      exact ⟨start, _, _, rfl, ⟨_, _, _, rfl, ⟨(), _, _, ⟨by rw [hn]; exact hp, rfl⟩, ⟨hashes, _, [],
        ⟨hn.symm, rfl⟩, ⟨rfl, rfl⟩, rfl⟩, rfl⟩, rfl⟩, by simp [Message.fields]⟩
    | common m => cases hf
    | _ => exact absurd ht (by simp [Message.tag])

/-- CHUNK_COMMIT. -/
theorem exact_chunkCommit : Exact (do
    let chunk ← u32
    let resource ← array 32
    pure (.chunkCommit i chunk resource)) (Reads 14 i) := by
  refine (exact_u32.bind fun c => exact_array.bind fun r => exact_pure _).congr fun m e => ?_
  constructor
  · rintro ⟨c, _, _, rfl, ⟨r, _, _, rfl, ⟨rfl, rfl⟩, rfl⟩, rfl⟩
    exact ⟨rfl, rfl, ⟨⟨by simpa [Message.file?] using hi, trivial⟩, trivial⟩,
      by simp [Message.fields]⟩
  · rintro ⟨ht, hf, -, rfl⟩
    cases m with
    | chunkCommit j c r =>
      cases hf
      exact ⟨c, _, _, rfl, ⟨r, _, [], rfl, ⟨rfl, rfl⟩, rfl⟩, by simp [Message.fields]⟩
    | common m => cases hf
    | _ => exact absurd ht (by simp [Message.tag])

end

/-- A message whose only field after the file index is a chunk index. -/
theorem exact_chunk {i : UInt32} {f : UInt32 → Message} {t : UInt8}
    (htag : ∀ m : Message, m.tag = t ∧ m.file? = some i ↔ ∃ c, m = f c)
    (hf : ∀ c, (f c).fields = Writer.u32 c ∧ (f c).Sendable ∧ (f c).Received) :
    Exact (do let c ← u32; pure (f c)) (Reads t i) := by
  refine (exact_u32.bind fun c => exact_pure _).congr fun m e => ?_
  unfold Reads
  rw [← and_assoc, htag]
  constructor
  · rintro ⟨c, _, _, rfl, ⟨rfl, rfl⟩, rfl⟩
    exact ⟨⟨c, rfl⟩, (hf c).2, by rw [(hf c).1, List.append_nil]⟩
  · rintro ⟨⟨c, rfl⟩, -, rfl⟩
    exact ⟨c, _, [], rfl, ⟨rfl, rfl⟩, by rw [(hf c).1, List.append_nil]⟩

/-- A message without fields after the file index. -/
theorem exact_constant {i : UInt32} {m₀ : Message} {t : UInt8}
    (htag : ∀ m : Message, m.tag = t ∧ m.file? = some i ↔ m = m₀)
    (hm : m₀.fields = [] ∧ m₀.Sendable ∧ m₀.Received) :
    Exact (pure m₀ : RrSync.Reader Message) (Reads t i) := by
  refine (exact_pure m₀).congr fun m e => ?_
  unfold Reads
  rw [← and_assoc, htag]
  constructor
  · rintro ⟨rfl, rfl⟩
    exact ⟨rfl, hm.2, hm.1.symm⟩
  · rintro ⟨rfl, -, rfl⟩
    exact ⟨rfl, hm.1⟩

/-- What follows the index is read as it is written. -/
theorem exact_body (tag : UInt8) (htag : 10 ≤ tag ∧ tag ≤ 20) {i : UInt32}
    (hi : fileIndex i = .ok ()) : Exact (body tag i) (Reads tag i) := by
  have hs : ∀ j ∈ (some i : Option UInt32), fileIndex j = .ok () := by simpa using hi
  unfold body
  split
  · next ht => exact ht ▸ exact_describe hi
  split
  · next ht => exact ht ▸ exact_description hi
  split
  · next ht => exact ht ▸ exact_missing hi
  split
  · next ht => exact ht ▸ exact_hashesGet hi
  split
  · next ht => exact ht ▸ exact_hashes hi
  split
  · next ht =>
    -- Four tags have a chunk in common.
    have h4 : tag = 13 ∨ tag = 14 ∨ tag = 15 ∨ tag = 16 := by
      simp only [← UInt8.toNat_inj, UInt8.le_iff_toNat_le] at ht ⊢
      simp at ht ⊢
      omega
    rcases h4 with rfl | rfl | rfl | rfl
    · exact exact_chunk (fun m => by cases m <;> simp [Message.tag, Message.file?])
        fun c => ⟨rfl, ⟨hs, trivial⟩, trivial⟩
    · exact exact_chunkCommit hi
    · exact exact_chunk (fun m => by cases m <;> simp [Message.tag, Message.file?])
        fun c => ⟨rfl, ⟨hs, trivial⟩, trivial⟩
    · exact exact_chunk (fun m => by cases m <;> simp [Message.tag, Message.file?])
        fun c => ⟨rfl, ⟨hs, trivial⟩, trivial⟩
  split
  · next ht =>
    exact ht ▸ exact_constant (fun m => by cases m <;> simp [Message.tag, Message.file?])
      ⟨rfl, ⟨hs, trivial⟩, trivial⟩
  split
  · next ht =>
    exact ht ▸ exact_constant (fun m => by cases m <;> simp [Message.tag, Message.file?])
      ⟨rfl, ⟨hs, trivial⟩, trivial⟩
  · -- No message has another tag.
    refine (exact_throw _).congr fun m e => ⟨False.elim, fun h => ?_⟩
    obtain ⟨rfl, hf, -⟩ := h
    cases m with
    | common m => cases hf
    | _ => simp_all [Message.tag]

end Reader

/-- The messages about a file have tags of their own. -/
theorem Message.tag_range {m : Message} (h : m.file?.isSome) :
    10 ≤ m.tag ∧ m.tag ≤ 20 ∧ commonTag m.tag = false := by
  cases m with
  | common m => cases h
  | _ => simp [tag, commonTag]

namespace Reader

variable [Sha256]

/-- A whole message about a file is read as it is written. -/
theorem exact_message (tag : UInt8) : Exact (message tag) fun m e =>
    m.tag = tag ∧ (m.Sendable ∧ m.Received) ∧
      ∃ i, m.file? = some i ∧ e = Writer.u32 i ++ m.fields := by
  unfold message
  by_cases ht : 10 ≤ tag ∧ tag ≤ 20
  · rw [if_neg (fun h => h ht)]
    refine (RrSync.Reader.exact_u32.bind fun i => (exact_lift (fileIndex i)).bind_of
      fun u e hu => exact_body tag ht hu.1).congr fun m e => ?_
    constructor
    · rintro ⟨i, _, _, rfl, ⟨_, _, _, ⟨-, rfl⟩, ⟨hm, hf, hs, rfl⟩, rfl⟩, rfl⟩
      exact ⟨hm, hs, i, hf, rfl⟩
    · rintro ⟨hm, hs, i, hf, rfl⟩
      exact ⟨i, _, _, rfl, ⟨(), [], _, ⟨hs.1.1 i hf, rfl⟩, ⟨hm, hf, hs, rfl⟩, rfl⟩, rfl⟩
  · rw [if_pos ht]
    refine (exact_throw _).congr fun m e => ⟨False.elim, ?_⟩
    rintro ⟨rfl, -, i, hf, -⟩
    have h := Message.tag_range (Option.isSome_iff_exists.mpr ⟨i, hf⟩)
    exact ht ⟨h.1, h.2.1⟩

end Reader

namespace Message

variable [Sha256]

/-- The decoder accepts `bytes` of the messages that may be sent, long errors apart. -/
theorem decode_ok {m : Message} {b : Bytes} : decode b = .ok m ↔
    (m.Sendable ∧ m.Received) ∧ b = m.bytes ∧ b.length ≤ maxControl := by
  simp only [decode, bind_eq_ok, ite_throw_bind_eq_ok, Nat.not_lt, ne_eq, Decidable.not_not]
  constructor
  · rintro ⟨hl, ⟨v, r⟩, h1, rfl, ⟨tag, r'⟩, h2, h⟩
    obtain ⟨_, rfl, rfl⟩ := RrSync.Reader.exact_u8.encoded h1
    obtain ⟨_, rfl, rfl⟩ := RrSync.Reader.exact_u8.encoded h2
    split at h
    · next ht =>
      simp only [bind_eq_ok, pure_eq_ok] at h
      obtain ⟨m, h, rfl⟩ := h
      obtain ⟨⟨hs, hr⟩, hb, -⟩ := RrSync.Message.decode_ok.mp h
      -- Both sides are a version, a tag and the fields.
      obtain ⟨rfl, rfl⟩ : tag = m.tag ∧ r' = m.fields := by
        simpa [RrSync.Message.bytes, Writer.u8] using hb
      exact ⟨⟨⟨by simp [file?], hs, ht⟩, hr⟩, rfl, hl⟩
    · simp only [bind_eq_ok, ite_throw_bind_eq_ok, pure_eq_ok, Decidable.not_not] at h
      obtain ⟨⟨m, rest⟩, h, rfl, rfl⟩ := h
      obtain ⟨_, ⟨rfl, hm, i, hf, rfl⟩, rfl⟩ := (Reader.exact_message _).encoded h
      refine ⟨hm, ?_, hl⟩
      simp [bytes, hf]
  · rintro ⟨hm, rfl, hl⟩
    have hb : m.bytes = Writer.u8 version ++ (Writer.u8 m.tag ++
        ((m.file?.map Writer.u32).getD [] ++ m.fields)) := by simp [bytes]
    refine ⟨hl, (version, _), hb ▸ RrSync.Reader.exact_u8.read rfl _, rfl, (m.tag, _),
      RrSync.Reader.exact_u8.read rfl _, ?_⟩
    by_cases hf : m.file?.isSome
    · obtain ⟨i, hi⟩ := Option.isSome_iff_exists.mp hf
      have h := (Reader.exact_message m.tag).read ⟨rfl, hm, i, hi, rfl⟩ []
      rw [List.append_nil] at h
      simp only [(tag_range hf).2.2, hi, Option.map_some, Option.getD_some, Bool.false_eq_true,
        if_false, bind_eq_ok, ite_throw_bind_eq_ok, pure_eq_ok, Decidable.not_not]
      exact ⟨(m, []), h, rfl, rfl⟩
    · cases m with
      | common m =>
        obtain ⟨⟨-, hs, ht⟩, hr⟩ := hm
        have h : RrSync.Message.decode m.bytes = .ok m :=
          RrSync.Message.decode_ok.mpr ⟨⟨hs, hr⟩, rfl, by
            simpa [bytes, RrSync.Message.bytes, tag, file?, fields, Writer.u8] using hl⟩
        have h1 : (common m).bytes.set 0 RrSync.version = m.bytes := by
          simp [bytes, RrSync.Message.bytes, tag, file?, fields, Writer.u8]
        rw [if_pos (show commonTag (common m).tag = true from ht), h1, h]
        rfl
      | _ => exact absurd rfl hf

end Message

end V2

end RrSync

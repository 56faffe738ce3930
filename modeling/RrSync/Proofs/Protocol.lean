import RrSync.Lib.Reader
import RrSync.Lib.Except
import RrSync.Proofs.Manifest
import RrSync.Model.Protocol

/-!
# `RrSync.Proofs.Protocol`: the codec of the first protocol

Each reader accepts exactly what the writer of the same name writes. For a whole message this
is `decode_ok`, and `encode_ok` says the same of the encoder: the two differ in one place, the
bound on the text of an error.
-/

set_option autoImplicit false

namespace RrSync

open Lib

/-! ### Numbers -/

/-- A number of `k` bytes has `k` bytes. -/
@[simp] theorem length_toBytes (k n : Nat) : (toBytes k n).length = k := by
  induction k generalizing n with
  | zero => rfl
  | succ k ih => simp [toBytes, ih]

/-- The last byte counts once, what is before it 256 times. -/
theorem ofBytes_append_singleton (b : Bytes) (x : UInt8) :
    ofBytes (b ++ [x]) = ofBytes b * 256 + x.toNat := by
  simp [ofBytes]

/-- The number that `k` bytes stand for. -/
theorem ofBytes_lt (b : Bytes) : ofBytes b < 256 ^ b.length := by
  induction b using List.reverseRecOn with
  | nil => decide
  | append_singleton b x ih =>
    rw [ofBytes_append_singleton, List.length_append, List.length_singleton, Nat.pow_succ]
    have := x.toNat_lt
    omega

/-- A number is read back, as far as it fits. -/
theorem ofBytes_toBytes (k n : Nat) : ofBytes (toBytes k n) = n % 256 ^ k := by
  induction k generalizing n with
  | zero => simp [toBytes, ofBytes, Nat.mod_one]
  | succ k ih =>
    have h1 : n % 256 ^ (k + 1) = n % 256 + 256 * (n / 256 % 256 ^ k) := by
      rw [Nat.pow_succ', Nat.mod_mul]
    rw [toBytes, ofBytes_append_singleton, ih, h1, UInt8.toNat_ofNat', Nat.mod_mod]
    omega

/-- Bytes are written back. -/
theorem toBytes_ofBytes (b : Bytes) : toBytes b.length (ofBytes b) = b := by
  induction b using List.reverseRecOn with
  | nil => rfl
  | append_singleton b x ih =>
    have hx := x.toNat_lt
    have h1 : ofBytes (b ++ [x]) / 256 = ofBytes b := by
      rw [ofBytes_append_singleton]
      omega
    have h2 : ofBytes (b ++ [x]) % 256 = x.toNat := by
      rw [ofBytes_append_singleton]
      omega
    rw [List.length_append, List.length_singleton, toBytes, h1, h2, ih, UInt8.ofNat_toNat]

/-! ### Fields -/

namespace Reader

variable {k n : Nat}

/-- `take` reads that many bytes. -/
theorem exact_take : Exact (take n) fun a e => e = a ∧ a.length = n := by
  intro s a rest
  unfold take
  constructor
  · intro h
    split at h
    · cases h
    · next hn =>
      have h1 := Prod.mk.inj (Except.ok.inj h)
      exact ⟨a, ⟨rfl, by rw [← h1.1, List.length_take]; omega⟩,
        by rw [← h1.1, ← h1.2, List.take_append_drop]⟩
  · rintro ⟨e, ⟨rfl, rfl⟩, rfl⟩
    rw [if_neg (by simp)]
    show Except.ok _ = _
    simp

/-- An array is read as its bytes. -/
theorem exact_array : Exact (array k) fun a e => e = a.toList := by
  intro s a rest
  unfold array
  constructor
  · intro h
    split at h
    · cases h
    · next hn =>
      have h1 := Prod.mk.inj (Except.ok.inj h)
      exact ⟨a.toList, rfl, by rw [← h1.1, ← h1.2]; simp [Vector.toList]⟩
  · rintro ⟨e, rfl, rfl⟩
    rw [dif_neg (by simp)]
    show Except.ok _ = _
    refine congrArg Except.ok (Prod.ext (Vector.toList_inj.mp ?_) ?_)
    · simp [Vector.toList]
    · simp

/-- A byte is read as it is written. -/
theorem exact_u8 : Exact u8 fun a e => e = Writer.u8 a := by
  refine (exact_array.bind fun b => exact_pure _).congr fun a e => ?_
  constructor
  · rintro ⟨b, e₁, e₂, rfl, ⟨rfl, rfl⟩, rfl⟩
    match b with
    | ⟨⟨[x]⟩, _⟩ => rfl
  · rintro rfl
    exact ⟨#v[a], _, _, rfl, ⟨rfl, rfl⟩, rfl⟩

/-- So is a boolean. -/
theorem exact_boolean : Exact boolean fun a e => e = Writer.u8 (Writer.bool a) := by
  refine (exact_u8.bind fun b => (Exact.ite (fun _ => exact_pure _) fun _ => Exact.ite
    (fun _ => exact_pure _) fun _ => exact_throw _)).congr fun a e => ?_
  constructor
  · rintro ⟨b, e₁, e₂, rfl, h, rfl⟩
    split at h
    · next hb => simp [← h.1, h.2, hb, Writer.bool]
    · split at h
      · next hb => simp [← h.1, h.2, hb, Writer.bool]
      · exact h.elim
  · rintro rfl
    refine ⟨Writer.bool a, _, [], rfl, ?_, (List.append_nil _).symm⟩
    cases a <;> simp [Writer.bool]

/-- So are four bytes. -/
theorem exact_u32 : Exact u32 fun a e => e = Writer.u32 a := by
  refine (exact_take.bind fun b => exact_pure _).congr fun a e => ?_
  constructor
  · rintro ⟨b, e₁, e₂, ⟨rfl, hb⟩, ⟨rfl, rfl⟩, rfl⟩
    have hlt : ofBytes e₁ < 2 ^ 32 := by simpa [hb] using ofBytes_lt e₁
    rw [List.append_nil, Writer.u32, UInt32.toNat_ofNat_of_lt' hlt, ← hb, toBytes_ofBytes]
  · rintro rfl
    refine ⟨_, _, [], ⟨rfl, length_toBytes _ _⟩, ⟨?_, rfl⟩, (List.append_nil _).symm⟩
    have hlt : a.toNat < 256 ^ 4 := by
      have := a.toNat_lt
      omega
    rw [ofBytes_toBytes, Nat.mod_eq_of_lt hlt, UInt32.ofNat_toNat]

/-- So are eight bytes. -/
theorem exact_u64 : Exact u64 fun a e => e = Writer.u64 a.toNat := by
  refine (exact_take.bind fun b => exact_pure _).congr fun a e => ?_
  constructor
  · rintro ⟨b, e₁, e₂, ⟨rfl, hb⟩, ⟨rfl, rfl⟩, rfl⟩
    have hlt : ofBytes e₁ < 2 ^ 64 := by simpa [hb] using ofBytes_lt e₁
    rw [List.append_nil, Writer.u64, UInt64.toNat_ofNat_of_lt' hlt, ← hb, toBytes_ofBytes]
  · rintro rfl
    refine ⟨_, _, [], ⟨rfl, length_toBytes _ _⟩, ⟨?_, rfl⟩, (List.append_nil _).symm⟩
    have hlt : a.toNat < 256 ^ 8 := by
      have := a.toNat_lt
      omega
    rw [ofBytes_toBytes, Nat.mod_eq_of_lt hlt, UInt64.ofNat_toNat]

/-- A string that is not too long is written as its length and its bytes. -/
theorem string_ok {s : String} {b : Bytes} : Writer.string s = .ok b ↔
    s.utf8.length ≤ maxPath ∧ b = Writer.u16 s.utf8.length ++ s.utf8 := by
  simp only [Writer.string, ite_throw_eq_ok, pure_eq_ok, Nat.not_lt]
  exact and_congr_right fun _ => eq_comm

/-- A reader that returns the string of the bytes `b`, and fails when there is none. -/
theorem exact_ofUtf8 {b : Bytes} {r : Reader String} (hsome : ∀ t, ofUtf8? b = some t → r = pure t)
    (hnone : ofUtf8? b = none → ∃ e, r = throw e) : Exact r fun s e => s.utf8 = b ∧ e = [] := by
  cases hs : ofUtf8? b with
  | none =>
    obtain ⟨err, rfl⟩ := hnone hs
    refine (exact_throw _).congr fun s e => ⟨False.elim, fun h => ?_⟩
    rw [ofUtf8?_eq_some.mpr h.1] at hs
    cases hs
  | some t =>
    rw [hsome t hs]
    refine (exact_pure t).congr fun s e => and_congr_left fun _ => ?_
    rw [← ofUtf8?_eq_some.mp hs, String.utf8_inj]
    exact eq_comm

/-- It is read as it is written, and no other bytes are read as a string. -/
theorem exact_string : Exact string fun s e => Writer.string s = .ok e := by
  refine (exact_take.bind fun n => Exact.guard (exact_take.bind fun b =>
    exact_ofUtf8 (b := b) (fun t ht => ?_) fun hb => ⟨.protocol "invalid UTF-8", ?_⟩)).congr
      fun s e => ?_
  · rw [ht]
  · rw [hb]
  -- The length has two bytes, which is enough for what the limit accepts.
  · rw [string_ok]
    constructor
    · rintro ⟨n, e₁, e₂, ⟨rfl, hn⟩, ⟨hmax, b, e₃, e₄, ⟨rfl, hb⟩, ⟨rfl, rfl⟩, rfl⟩, rfl⟩
      rw [← hb] at hmax
      have hlen : e₁ = Writer.u16 s.utf8.length := by
        rw [hb, Writer.u16, ← hn, toBytes_ofBytes]
      exact ⟨Nat.le_of_not_lt hmax, by rw [← hlen, List.append_nil]⟩
    · rintro ⟨hmax, rfl⟩
      have hlen : ofBytes (toBytes 2 s.utf8.length) = s.utf8.length := by
        rw [ofBytes_toBytes, Nat.mod_eq_of_lt]
        simp only [maxPath] at hmax
        omega
      refine ⟨_, _, _, ⟨rfl, length_toBytes _ _⟩, ⟨?_, _, _, [], ⟨rfl, hlen.symm⟩,
        ⟨rfl, rfl⟩, rfl⟩, by rw [List.append_nil]; rfl⟩
      omega

/-- A kind is read as it is written. -/
theorem exact_kind : Exact kind fun a e => e = Writer.u8 (Writer.kind a) := by
  refine (exact_u8.bind fun b => (Exact.ite (fun _ => exact_pure _) fun _ => Exact.ite
    (fun _ => exact_pure _) fun _ => Exact.ite (fun _ => exact_pure _)
    fun _ => exact_throw _)).congr fun a e => ?_
  constructor
  · rintro ⟨b, e₁, e₂, rfl, h, rfl⟩
    split at h
    · next hb => simp [← h.1, h.2, hb, Writer.kind]
    · split at h
      · next hb => simp [← h.1, h.2, hb, Writer.kind]
      · split at h
        · next hb => simp [← h.1, h.2, hb, Writer.kind]
        · exact h.elim
  · rintro rfl
    refine ⟨Writer.kind a, _, [], rfl, ?_, (List.append_nil _).symm⟩
    cases a <;> simp [Writer.kind]

/-- So is an optional hash. -/
theorem exact_hash : Exact hash fun a e => e = Writer.hash a := by
  refine (exact_boolean.bind fun b => Exact.ite (fun _ => exact_array.bind fun h => exact_pure _)
    fun _ => exact_pure _).congr fun a e => ?_
  constructor
  · rintro ⟨b, e₁, e₂, rfl, h, rfl⟩
    cases b with
    | false =>
      obtain ⟨rfl, rfl⟩ := h
      rfl
    | true =>
      obtain ⟨v, e₃, e₄, rfl, ⟨rfl, rfl⟩, rfl⟩ := h
      simp [Writer.hash]
  · rintro rfl
    cases a with
    | none => exact ⟨false, _, [], rfl, ⟨rfl, rfl⟩, rfl⟩
    | some v => exact ⟨true, _, v.toList, rfl, ⟨v, _, [], rfl, ⟨rfl, rfl⟩, by simp⟩, rfl⟩

end Reader

/-! ### Manifests -/

/-- What `Writer.entry` adds to the bytes written so far. -/
def Entry.bytes (e : Entry) : Bytes :=
  Writer.u16 e.path.utf8.length ++ e.path.utf8 ++ Writer.u8 (Writer.kind e.kind)
    ++ Writer.u64 e.size ++ Writer.u64 e.mtime.toUInt64.toNat ++ Writer.u32 e.ns
    ++ Writer.hash e.hash

/-- The bytes of a manifest: the number of its entries, and the entries. -/
def Manifest.bytes (m : Manifest) : Bytes :=
  Writer.u32 (UInt32.ofNat m.entries.length) ++ m.entries.flatMap Entry.bytes

/-- An entry is appended to what was written, within the limit. -/
theorem Writer.entry_ok {w w' : Bytes} {e : Entry} : Writer.entry w e = .ok w' ↔
    e.path.utf8.length ≤ maxPath ∧ w' = w ++ e.bytes ∧ w'.length ≤ maxControl := by
  simp only [Writer.entry, bind_eq_ok, Reader.string_ok, ite_throw_bind_eq_ok, pure_eq_ok,
    Entry.bytes, Nat.not_lt]
  constructor
  · rintro ⟨_, ⟨hp, rfl⟩, hl, rfl⟩
    exact ⟨hp, by simp, hl⟩
  · rintro ⟨hp, rfl, hl⟩
    exact ⟨_, ⟨hp, rfl⟩, by simpa using hl, by simp⟩

/-- The check in every turn of the loop says no more than the one after it. -/
theorem Writer.entries_ok {w w' : Bytes} {es : List Entry} :
    es.foldlM Writer.entry w = .ok w' ∧ w'.length ≤ maxControl ↔
      (∀ e ∈ es, e.path.utf8.length ≤ maxPath) ∧ w' = w ++ es.flatMap Entry.bytes
        ∧ w'.length ≤ maxControl := by
  induction es generalizing w with
  | nil =>
    simp only [List.foldlM_nil, pure_eq_ok, List.flatMap_nil, List.append_nil]
    constructor
    · rintro ⟨rfl, h⟩
      exact ⟨by simp, rfl, h⟩
    · rintro ⟨-, rfl, h⟩
      exact ⟨rfl, h⟩
  | cons e es ih =>
    simp only [List.foldlM_cons, bind_eq_ok, Writer.entry_ok, List.flatMap_cons,
      List.forall_mem_cons]
    constructor
    · rintro ⟨⟨_, ⟨hp, rfl, -⟩, hes⟩, hl⟩
      obtain ⟨hps, rfl, -⟩ := ih.mp ⟨hes, hl⟩
      exact ⟨⟨hp, hps⟩, by simp, hl⟩
    -- The limit holds for the whole, so it holds at each entry.
    · rintro ⟨⟨hp, hps⟩, rfl, hl⟩
      refine ⟨⟨_, ⟨hp, rfl, ?_⟩, ?_⟩, hl⟩
      · simp only [List.length_append] at hl ⊢
        omega
      · exact (ih.mpr ⟨hps, by simp, hl⟩).1

/-- The paths of a valid manifest are not too long to be written. -/
theorem Manifest.Valid.path_le {m : Manifest} {c : Bool} (h : m.Valid c) {e : Entry}
    (he : e ∈ m.entries) : e.path.utf8.length ≤ maxPath := by
  have hp := (h.entry e he).path
  simp only [RrSync.validate, ite_throw_eq_ok, Bool.or_eq_true, decide_eq_true_eq, not_or,
    Nat.not_lt] at hp
  exact hp.1.1.1.1.2

/-- The sizes of a valid manifest fit into eight bytes. -/
theorem Manifest.Valid.size_lt {m : Manifest} {c : Bool} (h : m.Valid c) {e : Entry}
    (he : e ∈ m.entries) : e.size < 2 ^ 64 := by
  by_cases hk : e.kind = .file
  · have := (h.entry e he).size hk
    simp only [maxFile] at this
    omega
  · rw [((h.entry e he).plain hk).1]
    decide

/-- Exactly the valid manifests are written, within the limit. -/
theorem Writer.manifest_ok {w w' : Bytes} {m : Manifest} :
    Writer.manifest w m = .ok w' ∧ w'.length ≤ maxControl ↔
      m.Valid false ∧ w' = w ++ m.bytes ∧ w'.length ≤ maxControl := by
  simp only [Writer.manifest, bind_eq_ok, Manifest.validate_ok, Manifest.bytes]
  constructor
  · rintro ⟨⟨_, hv, h⟩, hl⟩
    obtain ⟨-, rfl, -⟩ := Writer.entries_ok.mp ⟨h, hl⟩
    exact ⟨hv, List.append_assoc _ _ _, hl⟩
  · rintro ⟨hv, rfl, hl⟩
    refine ⟨⟨(), hv, ?_⟩, hl⟩
    exact (Writer.entries_ok.mpr ⟨fun e he => hv.path_le he, by simp, hl⟩).1

namespace Reader

/-- An entry is read as it is written. -/
theorem exact_entry : Exact entry fun a e =>
    a.path.utf8.length ≤ maxPath ∧ a.size < 2 ^ 64 ∧ e = a.bytes := by
  refine (exact_string.bind fun path => exact_kind.bind fun kind => exact_u64.bind fun size =>
    exact_u64.bind fun mtime => exact_u32.bind fun ns => exact_hash.bind fun hash =>
    exact_pure _).congr fun a e => ?_
  simp only [string_ok]
  constructor
  · rintro ⟨path, _, _, ⟨hp, rfl⟩, ⟨kind, _, _, rfl, ⟨size, _, _, rfl, ⟨mtime, _, _, rfl,
      ⟨ns, _, _, rfl, ⟨hash, _, _, rfl, ⟨rfl, rfl⟩, rfl⟩, rfl⟩, rfl⟩, rfl⟩, rfl⟩, rfl⟩
    exact ⟨hp, size.toNat_lt, by simp [Entry.bytes]⟩
  · rintro ⟨hp, hs, rfl⟩
    have hsize : (UInt64.ofNat a.size).toNat = a.size := UInt64.toNat_ofNat_of_lt' hs
    refine ⟨a.path, _, _, ⟨hp, rfl⟩, ⟨a.kind, _, _, rfl, ⟨.ofNat a.size, _, _, rfl,
      ⟨a.mtime.toUInt64, _, _, rfl, ⟨a.ns, _, _, rfl, ⟨a.hash, _, [], rfl, ⟨?_, rfl⟩, rfl⟩, rfl⟩,
      rfl⟩, rfl⟩, rfl⟩, ?_⟩
    · simp [hsize]
    · simp [Entry.bytes, hsize]

/-- So are several, when their number is known. -/
theorem exact_entries (n : Nat) : Exact (entries n) fun es e => es.length = n
    ∧ (∀ x ∈ es, x.path.utf8.length ≤ maxPath ∧ x.size < 2 ^ 64)
    ∧ e = es.flatMap Entry.bytes := by
  induction n with
  | zero =>
    refine (exact_pure []).congr fun es e => ?_
    constructor
    · rintro ⟨rfl, rfl⟩
      exact ⟨rfl, by simp, rfl⟩
    · rintro ⟨hl, -, rfl⟩
      obtain rfl := List.length_eq_zero_iff.mp hl
      exact ⟨rfl, rfl⟩
  | succ n ih =>
    -- One entry, then the others.
    refine (exact_entry.bind fun x => ih.bind fun xs => exact_pure _).congr fun es e => ?_
    constructor
    · rintro ⟨x, _, _, ⟨hp, hs, rfl⟩, ⟨xs, _, _, ⟨rfl, hxs, rfl⟩, ⟨rfl, rfl⟩, rfl⟩, rfl⟩
      exact ⟨rfl, List.forall_mem_cons.mpr ⟨⟨hp, hs⟩, hxs⟩, by simp⟩
    · rintro ⟨hl, hxs, rfl⟩
      obtain ⟨x, xs, rfl⟩ := List.exists_cons_of_length_eq_add_one hl
      obtain ⟨⟨hp, hs⟩, hxs⟩ := List.forall_mem_cons.mp hxs
      exact ⟨x, _, _, ⟨hp, hs, rfl⟩, ⟨xs, _, [], ⟨Nat.succ.inj hl, hxs, rfl⟩, ⟨rfl, rfl⟩, rfl⟩,
        by simp⟩

/-- A manifest is read as it is written, and nothing else is. -/
theorem exact_manifest : Exact manifest fun m e => m.Valid false ∧ e = m.bytes := by
  refine (exact_u32.bind fun n => Exact.guard ((exact_entries n.toNat).bind fun es =>
    (exact_lift _).bind fun u => exact_pure _)).congr fun m e => ?_
  constructor
  · rintro ⟨n, _, _, rfl, ⟨hn, es, _, _, ⟨hl, -, rfl⟩, ⟨u, _, _, ⟨hv, rfl⟩, ⟨rfl, rfl⟩, rfl⟩,
      rfl⟩, rfl⟩
    refine ⟨Manifest.validate_ok.mp hv, ?_⟩
    rw [Manifest.bytes, hl, UInt32.ofNat_toNat]
    simp
  · rintro ⟨hv, rfl⟩
    have hc := hv.count
    have hn : (UInt32.ofNat m.entries.length).toNat = m.entries.length :=
      UInt32.toNat_ofNat_of_lt' (Nat.lt_of_le_of_lt hc (by decide))
    refine ⟨_, _, _, rfl, ⟨by omega, m.entries, _, [], ⟨hn.symm, fun x hx =>
      ⟨hv.path_le hx, hv.size_lt hx⟩, rfl⟩, ⟨(), [], [], ⟨Manifest.validate_ok.mpr hv, rfl⟩,
      ⟨rfl, rfl⟩, rfl⟩, rfl⟩, ?_⟩
    simp [Manifest.bytes]

/-- A byte of flags without unknown bits is the one its options are written as. -/
theorem flags_options (flags : UInt8) (h : flags &&& ~~~7 = 0) :
    Writer.flags ⟨flags &&& 1 ≠ 0, flags &&& 2 ≠ 0, flags &&& 4 ≠ 0⟩ = flags := by
  obtain ⟨⟨f⟩⟩ := flags
  revert f
  decide +kernel

/-- The flags are read as they are written. -/
theorem exact_options : Exact options fun o e => e = Writer.u8 (Writer.flags o) := by
  refine (exact_u8.bind fun flags => Exact.guard (exact_pure _)).congr fun o e => ?_
  constructor
  · rintro ⟨flags, _, _, rfl, ⟨hf, rfl, rfl⟩, rfl⟩
    rw [flags_options flags (Decidable.not_not.mp hf), List.append_nil]
  · rintro rfl
    refine ⟨Writer.flags o, _, [], rfl, ⟨?_, ?_, rfl⟩, rfl⟩
    · obtain ⟨d, c, r⟩ := o
      revert d c r
      decide
    · obtain ⟨d, c, r⟩ := o
      revert d c r
      decide

end Reader

/-! ### Messages -/

namespace Message

/-- The tag of a message. -/
def tag : Message → UInt8
  | .start .. => 1
  | .manifest _ => 2
  | .begin _ => 3
  | .commit .. => 4
  | .get _ => 5
  | .verified _ => 6
  | .finish => 7
  | .ok => 8
  | .error .. => 9

/-- What follows the tag of a message. -/
def fields : Message → Bytes
  | .start push options path m => Writer.u8 (Writer.bool push) ++ Writer.u8 (Writer.flags options)
    ++ Writer.u16 path.utf8.length ++ path.utf8 ++ m.bytes
  | .manifest m => m.bytes
  | .begin i | .get i | .verified i => Writer.u32 i
  | .commit i resource => Writer.u32 i ++ resource.toList
  | .finish | .ok => []
  | .error code text => Writer.u8 code ++ Writer.u16 text.utf8.length ++ text.utf8

/-- The bytes of a message. -/
def bytes (m : Message) : Bytes := Writer.u8 version ++ Writer.u8 m.tag ++ m.fields

/-- What the encoder asks of a message, besides the length of its encoding. -/
def Sendable : Message → Prop
  | .start _ _ path m => path.utf8.length ≤ maxPath ∧ m.Valid false
  | .manifest m => m.Valid false
  | .error _ text => text.utf8.length ≤ maxPath
  | _ => True

/-- An error whose text is longer than the decoder takes. -/
def LongError : Message → Prop
  | .error _ text => 1024 < text.utf8.length
  | _ => False

instance (m : Message) : Decidable m.LongError := by
  cases m <;> unfold LongError <;> infer_instance

/-- Exactly the messages within the limits are written, as their bytes. -/
theorem write_ok {m : Message} {w : Bytes} : m.write = .ok w ∧ w.length ≤ maxControl ↔
    m.Sendable ∧ w = m.bytes ∧ w.length ≤ maxControl := by
  cases m with
  -- START writes its manifest after the other fields.
  | start push options path m =>
    simp only [write, Sendable, bytes, fields, tag, bind_eq_ok, Reader.string_ok]
    constructor
    · rintro ⟨⟨_, ⟨hp, rfl⟩, h⟩, hl⟩
      obtain ⟨hv, rfl, -⟩ := Writer.manifest_ok.mp ⟨h, hl⟩
      exact ⟨⟨hp, hv⟩, by simp, hl⟩
    · rintro ⟨⟨hp, hv⟩, rfl, hl⟩
      exact ⟨⟨_, ⟨hp, rfl⟩, (Writer.manifest_ok.mpr ⟨hv, by simp, hl⟩).1⟩, hl⟩
  | manifest m => exact Writer.manifest_ok
  | error code text =>
    simp only [write, Sendable, bytes, fields, tag, bind_eq_ok, Reader.string_ok, pure_eq_ok]
    constructor
    · rintro ⟨⟨_, ⟨ht, rfl⟩, rfl⟩, hl⟩
      exact ⟨ht, by simp, hl⟩
    · rintro ⟨ht, rfl, hl⟩
      exact ⟨⟨_, ⟨ht, rfl⟩, by simp⟩, hl⟩
  | _ =>
    simp only [write, Sendable, bytes, fields, tag, pure_eq_ok, true_and, List.append_assoc,
      List.append_nil]
    exact and_congr_left fun _ => eq_comm

/-- The encoder writes `bytes`, and this says what it asks. -/
theorem encode_ok {m : Message} {b : Bytes} : m.encode = .ok b ↔
    m.Sendable ∧ b = m.bytes ∧ b.length ≤ maxControl := by
  rw [← write_ok]
  simp only [encode, bind_eq_ok, ite_throw_bind_eq_ok, pure_eq_ok, Nat.not_lt]
  constructor
  · rintro ⟨_, h, hl, rfl⟩
    exact ⟨h, hl⟩
  · rintro ⟨h, hl⟩
    exact ⟨_, h, hl, rfl⟩

end Message

namespace Reader

/-- The messages of a tag that are read, and what they are read from. -/
def Reads (tag : UInt8) (m : Message) (e : Bytes) : Prop :=
  m.tag = tag ∧ (m.Sendable ∧ ¬ m.LongError) ∧ e = m.fields

/-- START. -/
theorem exact_start : Exact (do
    let push ← boolean
    let options ← options
    let path ← string
    let m ← manifest
    pure (.start push options path m)) (Reads 1) := by
  refine (exact_boolean.bind fun push => exact_options.bind fun options =>
    exact_string.bind fun path => exact_manifest.bind fun m => exact_pure _).congr fun m e => ?_
  simp only [string_ok]
  constructor
  · rintro ⟨push, _, _, rfl, ⟨options, _, _, rfl, ⟨path, _, _, ⟨hp, rfl⟩, ⟨m, _, _, ⟨hv, rfl⟩,
      ⟨rfl, rfl⟩, rfl⟩, rfl⟩, rfl⟩, rfl⟩
    exact ⟨rfl, ⟨⟨hp, hv⟩, id⟩, by simp [Message.fields]⟩
  · rintro ⟨ht, ⟨hs, -⟩, rfl⟩
    cases m with
    | start push options path m =>
      exact ⟨_, _, _, rfl, ⟨_, _, _, rfl, ⟨_, _, _, ⟨hs.1, rfl⟩, ⟨_, _, [], ⟨hs.2, rfl⟩,
        ⟨rfl, rfl⟩, rfl⟩, rfl⟩, rfl⟩, by simp [Message.fields]⟩
    | _ => exact absurd ht (by simp [Message.tag])

/-- MANIFEST. -/
theorem exact_manifestMessage :
    Exact (do let m ← manifest; pure (.manifest m)) (Reads 2) := by
  refine (exact_manifest.bind fun m => exact_pure _).congr fun m e => ?_
  constructor
  · rintro ⟨m, _, _, ⟨hv, rfl⟩, ⟨rfl, rfl⟩, rfl⟩
    exact ⟨rfl, ⟨hv, id⟩, by simp [Message.fields]⟩
  · rintro ⟨ht, ⟨hs, -⟩, rfl⟩
    cases m with
    | manifest m => exact ⟨_, _, [], ⟨hs, rfl⟩, ⟨rfl, rfl⟩, by simp [Message.fields]⟩
    | _ => exact absurd ht (by simp [Message.tag])

/-- A message whose only field is a file index. -/
theorem exact_indexed {f : UInt32 → Message} {t : UInt8}
    (htag : ∀ m : Message, m.tag = t ↔ ∃ i, m = f i)
    (hf : ∀ i, (f i).fields = Writer.u32 i ∧ (f i).Sendable ∧ ¬ (f i).LongError) :
    Exact (do let i ← u32; pure (f i)) (Reads t) := by
  refine (exact_u32.bind fun i => exact_pure _).congr fun m e => ?_
  unfold Reads
  rw [htag]
  constructor
  · rintro ⟨i, _, _, rfl, ⟨rfl, rfl⟩, rfl⟩
    exact ⟨⟨i, rfl⟩, (hf i).2, by rw [(hf i).1, List.append_nil]⟩
  · rintro ⟨⟨i, rfl⟩, -, rfl⟩
    exact ⟨i, _, [], rfl, ⟨rfl, rfl⟩, by rw [(hf i).1, List.append_nil]⟩

/-- COMMIT. -/
theorem exact_commit : Exact (do
    let index ← u32
    let resource ← array 32
    pure (.commit index resource)) (Reads 4) := by
  refine (exact_u32.bind fun i => exact_array.bind fun r => exact_pure _).congr fun m e => ?_
  constructor
  · rintro ⟨i, _, _, rfl, ⟨r, _, _, rfl, ⟨rfl, rfl⟩, rfl⟩, rfl⟩
    exact ⟨rfl, ⟨trivial, id⟩, by simp [Message.fields]⟩
  · rintro ⟨ht, -, rfl⟩
    cases m with
    | commit i r => exact ⟨i, _, _, rfl, ⟨r, _, [], rfl, ⟨rfl, rfl⟩, rfl⟩, by simp [Message.fields]⟩
    | _ => exact absurd ht (by simp [Message.tag])

/-- A message without fields. -/
theorem exact_constant {m₀ : Message} {t : UInt8} (htag : ∀ m : Message, m.tag = t ↔ m = m₀)
    (hm : m₀.fields = [] ∧ m₀.Sendable ∧ ¬ m₀.LongError) :
    Exact (pure m₀ : Reader Message) (Reads t) := by
  refine (exact_pure m₀).congr fun m e => ?_
  unfold Reads
  rw [htag]
  constructor
  · rintro ⟨rfl, rfl⟩
    exact ⟨rfl, hm.2, hm.1.symm⟩
  · rintro ⟨rfl, -, rfl⟩
    exact ⟨rfl, hm.1⟩

/-- ERROR, whose text is shorter than other strings. -/
theorem exact_error : Exact (do
    let code ← u8
    let text ← string
    if 1024 < text.utf8.length then throw (.protocol "error text limit")
    pure (.error code text)) (Reads 9) := by
  refine (exact_u8.bind fun code => exact_string.bind fun text =>
    Exact.guard (exact_pure _)).congr fun m e => ?_
  simp only [string_ok]
  constructor
  · rintro ⟨code, _, _, rfl, ⟨text, _, _, ⟨ht, rfl⟩, ⟨hl, rfl, rfl⟩, rfl⟩, rfl⟩
    exact ⟨rfl, ⟨ht, hl⟩, by simp [Message.fields]⟩
  · rintro ⟨ht, ⟨hs, hl⟩, rfl⟩
    cases m with
    | error code text =>
      exact ⟨code, _, _, rfl, ⟨text, _, [], ⟨hs, rfl⟩, ⟨hl, rfl, rfl⟩, rfl⟩,
        by simp [Message.fields]⟩
    | _ => exact absurd ht (by simp [Message.tag])

/-- What follows the tag is read as it is written. -/
theorem exact_body (tag : UInt8) : Exact (body tag) (Reads tag) := by
  unfold body
  split
  · next ht => exact ht ▸ exact_start
  split
  · next ht => exact ht ▸ exact_manifestMessage
  split
  · next ht =>
    exact ht ▸ exact_indexed (fun m => by cases m <;> simp [Message.tag]) fun i => ⟨rfl, trivial, id⟩
  split
  · next ht => exact ht ▸ exact_commit
  split
  · next ht =>
    exact ht ▸ exact_indexed (fun m => by cases m <;> simp [Message.tag]) fun i => ⟨rfl, trivial, id⟩
  split
  · next ht =>
    exact ht ▸ exact_indexed (fun m => by cases m <;> simp [Message.tag]) fun i => ⟨rfl, trivial, id⟩
  split
  · next ht =>
    exact ht ▸ exact_constant (fun m => by cases m <;> simp [Message.tag]) ⟨rfl, trivial, id⟩
  split
  · next ht =>
    exact ht ▸ exact_constant (fun m => by cases m <;> simp [Message.tag]) ⟨rfl, trivial, id⟩
  split
  · next ht => exact ht ▸ exact_error
  · -- No message has another tag.
    refine (exact_throw _).congr fun m e => ⟨False.elim, fun h => ?_⟩
    have ht := h.1
    cases m <;> simp_all [Message.tag]

/-- A whole message is read as it is written, except for an ERROR with a long text, which is not
read at all. -/
theorem exact_message : Exact message fun m e => (m.Sendable ∧ ¬ m.LongError) ∧ e = m.bytes := by
  refine (exact_u8.bind fun v => Exact.guard (exact_u8.bind fun tag => exact_body tag)).congr
    fun m e => ?_
  constructor
  · rintro ⟨v, _, _, rfl, ⟨hv, tag, _, _, rfl, ⟨rfl, hm, rfl⟩, rfl⟩, rfl⟩
    rw [Decidable.not_not.mp hv]
    exact ⟨hm, (List.append_assoc _ _ _).symm⟩
  · rintro ⟨hm, rfl⟩
    exact ⟨version, _, _, rfl, ⟨fun h => h rfl, m.tag, _, _, rfl, ⟨rfl, hm, rfl⟩, rfl⟩,
      List.append_assoc _ _ _⟩

end Reader

namespace Message

/-- The decoder accepts `bytes` of the messages that may be sent, long errors apart. -/
theorem decode_ok {m : Message} {b : Bytes} : decode b = .ok m ↔
    (m.Sendable ∧ ¬ m.LongError) ∧ b = m.bytes ∧ b.length ≤ maxControl := by
  simp only [decode, bind_eq_ok, ite_throw_bind_eq_ok, pure_eq_ok, Nat.not_lt, ne_eq,
    Decidable.not_not]
  constructor
  · rintro ⟨hl, ⟨m, rest⟩, h, rfl, rfl⟩
    obtain ⟨_, ⟨hm, rfl⟩, rfl⟩ := Reader.exact_message.encoded h
    exact ⟨hm, List.append_nil _, hl⟩
  · rintro ⟨hm, rfl, hl⟩
    have h := Reader.exact_message.read ⟨hm, rfl⟩ []
    rw [List.append_nil] at h
    exact ⟨hl, (m, []), h, rfl, rfl⟩

end Message

end RrSync

import RrSync.Proofs.ProtocolV2
import RrSync.Model.Run

/-!
# `RrSync.Proofs.Codec`: what both codecs promise

Decoding is canonical and prefix-free (`decode_canonical`), and what was encoded is decoded to
the message it came from except for an error with a long text (`decode_encode`).
-/

set_option autoImplicit false

namespace RrSync

open Lib

/-! ### Prefixes -/

/-- The bytes of a message never begin with those of another one. -/
theorem Message.bytes_prefix_free {m m' : Message} (hm : m.Sendable ∧ ¬ m.LongError)
    (hm' : m'.Sendable ∧ ¬ m'.LongError) (h : m'.bytes <+: m.bytes) : m' = m := by
  obtain ⟨t, ht⟩ := h
  have key := Reader.exact_message.prefix_free ⟨hm', rfl⟩ ⟨hm, rfl⟩
    (ht.trans (List.append_nil _).symm)
  exact key.1

/-- A message of the second protocol as its receiver sees it: the hash table of a description
stays with the sender. -/
def V2.Message.sent : V2.Message → V2.Message
  | .description i d => .description i { d with hashes := [] }
  | m => m

/-- What is sent of a message determines its bytes. -/
theorem V2.Message.bytes_sent (m : V2.Message) : m.sent.bytes = m.bytes := by
  cases m <;> rfl

/-- The same for the messages of the second protocol. -/
theorem V2.Message.bytes_prefix_free [Sha256] {m m' : V2.Message} (hm : m.Sendable ∧ m.Received)
    (hm' : m'.Sendable ∧ m'.Received) (h : m'.bytes <+: m.bytes) : m' = m := by
  obtain ⟨t, ht⟩ := h
  -- Both messages have the same tag, so both come from the same reader.
  have htag : m'.tag = m.tag := by
    have := congrArg (fun b : Bytes => b[1]?) ht
    simpa [V2.Message.bytes, Writer.u8] using this
  have hrest : (m'.file?.map Writer.u32).getD [] ++ m'.fields ++ t
      = (m.file?.map Writer.u32).getD [] ++ m.fields ++ [] := by
    have := congrArg (List.drop 2) ht
    simpa [V2.Message.bytes, Writer.u8] using this
  have hcommon {m : V2.Message} (hf : m.file? = none) (hs : m.Sendable) :
      ∃ c, m = .common c ∧ commonTag m.tag = true := by
    cases m with
    | common c => exact ⟨c, rfl, hs.2.2⟩
    | _ => cases hf
  cases hf : m.file? with
  | some i =>
    cases hf' : m'.file? with
    | some i' =>
      rw [hf, hf'] at hrest
      exact ((V2.Reader.exact_message m.tag).prefix_free ⟨htag, hm', i', hf', rfl⟩
        ⟨rfl, hm, i, hf, rfl⟩ hrest).1
    | none =>
      obtain ⟨c, rfl, hc⟩ := hcommon hf' hm'.1
      have h := (V2.Message.tag_range (Option.isSome_iff_exists.mpr ⟨i, hf⟩)).2.2
      rw [← htag, hc] at h
      cases h
  | none =>
    obtain ⟨c, rfl, hc⟩ := hcommon hf hm.1
    cases hf' : m'.file? with
    | some i' =>
      have h := (V2.Message.tag_range (Option.isSome_iff_exists.mpr ⟨i', hf'⟩)).2.2
      rw [htag, hc] at h
      cases h
    | none =>
      obtain ⟨c', rfl, -⟩ := hcommon hf' hm'.1
      exact congrArg _ ((RrSync.Reader.exact_body c.tag).prefix_free
        ⟨htag, ⟨hm'.1.2.1, hm'.2⟩, rfl⟩ ⟨rfl, ⟨hm.1.2.1, hm.2⟩, rfl⟩ hrest).1

/-! ### Canonical decoding -/

/-- What is decoded is encoded back to the same bytes, so no other bytes decode to it, and
neither a proper prefix nor a proper extension of the bytes is decoded. -/
theorem decode_canonical [Sha256] :
    (∀ (b : Bytes) (m : Message), Message.decode b = .ok m → m.encode = .ok b ∧
      (∀ b', Message.decode b' = .ok m → b' = b) ∧
      ∀ b' m', b' <+: b ∨ b <+: b' → Message.decode b' = .ok m' → b' = b) ∧
    ∀ (b : Bytes) (m : V2.Message), V2.Message.decode b = .ok m → m.encode = .ok b ∧
      (∀ b' m', V2.Message.decode b' = .ok m' → m'.sent = m.sent → b' = b) ∧
      ∀ b' m', b' <+: b ∨ b <+: b' → V2.Message.decode b' = .ok m' → b' = b := by
  constructor
  -- What is decoded is the bytes of the message.
  · intro b m h
    obtain ⟨hm, rfl, hl⟩ := Message.decode_ok.mp h
    refine ⟨Message.encode_ok.mpr ⟨hm.1, rfl, hl⟩, ?_, ?_⟩
    · intro b' h'
      exact (Message.decode_ok.mp h').2.1
    · intro b' m' hp h'
      obtain ⟨hm', rfl, -⟩ := Message.decode_ok.mp h'
      -- hp | No such bytes continue others.
      rcases hp with hp | hp
      · rw [Message.bytes_prefix_free hm hm' hp]
      · rw [Message.bytes_prefix_free hm' hm hp]
  · intro b m h
    obtain ⟨hm, rfl, hl⟩ := V2.Message.decode_ok.mp h
    refine ⟨V2.Message.encode_ok.mpr ⟨hm.1, rfl, hl⟩, ?_, ?_⟩
    · intro b' m' h' hs
      obtain ⟨-, rfl, -⟩ := V2.Message.decode_ok.mp h'
      rw [← m'.bytes_sent, hs, m.bytes_sent]
    · intro b' m' hp h'
      obtain ⟨hm', rfl, -⟩ := V2.Message.decode_ok.mp h'
      rcases hp with hp | hp
      · rw [V2.Message.bytes_prefix_free hm hm' hp]
      · rw [V2.Message.bytes_prefix_free hm' hm hp]

/-- FINISH is two bytes in either version. -/
theorem decode_canonical_finish :
    Message.finish.encode = .ok [1, 7] ∧ (V2.Message.common .finish).encode = .ok [2, 7] :=
  ⟨((@decode_canonical emptySha).1 [1, 7] .finish (by decide +kernel)).1,
    ((@decode_canonical emptySha).2 [2, 7] (.common .finish) (by decide +kernel)).1⟩

/-! ### What is sent can be read -/

/-- A description that `header` or `scan` has made. -/
def Description.Made [Sha256] (d : Description) : Prop :=
  (∃ size c hash, Description.header size c hash = .ok d)
    ∨ ∃ file c, Description.scan file c = .ok d

/-- The hash of an empty file is that of no bytes. -/
theorem Description.Made.empty_hash [Sha256] {d : Description} (h : d.Made) (hd : d.size = 0) :
    d.hash = digest [] := by
  rcases h with ⟨size, c, hash, h⟩ | ⟨file, c, h⟩
  · obtain ⟨hs, -, rfl, -, he⟩ := Description.header_ok.mp h
    exact he (hs ▸ hd)
  · simp only [Description.scan, bind_eq_ok, dite_pure_eq_ok] at h
    obtain ⟨_, -, _, rfl⟩ := h
    exact congrArg digest (List.length_eq_zero_iff.mp hd)

/-- The descriptions in a message are made by `header` or `scan`. -/
def V2.Message.Built [Sha256] : V2.Message → Prop
  | .description _ d => d.Made
  | _ => True

/-- What was encoded is decoded to the message it came from, if and only if it is not an error
with a text of more than 1024 bytes. -/
theorem decode_encode [Sha256] :
    (∀ (m : Message) (b : Bytes), m.encode = .ok b →
      (Message.decode b = .ok m ↔ ¬ m.LongError)) ∧
    ∀ (m : V2.Message) (b : Bytes), m.Built → m.encode = .ok b →
      (V2.Message.decode b = .ok m.sent ↔ ¬ m.LongError) := by
  constructor
  · intro m b h
    obtain ⟨hs, rfl, hl⟩ := Message.encode_ok.mp h
    rw [Message.decode_ok]
    exact ⟨fun h => h.1.2, fun h => ⟨⟨hs, h⟩, rfl, hl⟩⟩
  · intro m b hb h
    obtain ⟨hs, rfl, hl⟩ := V2.Message.encode_ok.mp h
    rw [V2.Message.decode_ok, m.bytes_sent]
    cases m with
    | common m => exact ⟨fun h => h.1.2, fun h => ⟨⟨hs, h⟩, rfl, hl⟩⟩
    | description i d =>
      have he : d.size = 0 → d.hash = digest [] := Description.Made.empty_hash hb
      exact ⟨fun _ => id, fun _ => ⟨⟨hs, rfl, he⟩, rfl, hl⟩⟩
    | _ => exact ⟨fun _ => id, fun _ => ⟨⟨hs, trivial⟩, rfl, hl⟩⟩

/-- OK is read back in either version. -/
theorem decode_encode_ok : Message.decode [1, 8] = .ok .ok ∧
    @V2.Message.decode emptySha [2, 8] = .ok (.common .ok) :=
  ⟨((@decode_encode emptySha).1 .ok [1, 8] (by decide +kernel)).mpr id,
    ((@decode_encode emptySha).2 (.common .ok) [2, 8] trivial (by decide +kernel)).mpr id⟩

/-- A text of 1025 bytes. -/
def longText : String := String.ofList (List.replicate 1025 'a')

/-- The text has one byte more than is read. -/
theorem length_longText : longText.utf8.length = 1025 := by decide +kernel

/-- An error that is encoded, and not read back. -/
theorem long_error_unreadable : ∃ b b', (Message.error 5 longText).encode = .ok b ∧
    Message.decode b ≠ .ok (.error 5 longText) ∧
    (V2.Message.common (.error 5 longText)).encode = .ok b' ∧
    @V2.Message.decode emptySha b' ≠ .ok (.common (.error 5 longText)) := by
  have hl := length_longText
  have hmax : longText.utf8.length ≤ maxPath := by rw [hl]; decide
  refine ⟨_, _, Message.encode_ok.mpr ⟨hmax, rfl, ?_⟩, fun h => ?_,
    V2.Message.encode_ok.mpr ⟨⟨nofun, hmax, rfl⟩, rfl, ?_⟩, fun h => ?_⟩
  · simp [Message.bytes, Message.fields, Writer.u8, Writer.u16, hl, maxControl]
  · exact (Message.decode_ok.mp h).1.2 (by rw [Message.LongError, hl]; decide)
  · simp [V2.Message.bytes, V2.Message.fields, V2.Message.file?, Message.fields, Writer.u8,
      Writer.u16, hl, maxControl]
  · exact ((@V2.Message.decode_ok emptySha _ _).mp h).1.2 (by
      rw [Message.LongError, hl]; decide)

end RrSync

import RrSync.Proofs.Geometry
import RrSync.Proofs.Ops

/-!
# `RrSync.Proofs.Names`: the names in the cache directory

A transfer directory is named by the hexadecimal digits of a digest, a shard and a chunk by the
eight digits of a number. The lemmas say that the names are paths that every operation accepts,
that `payload_bytes` and `expire` recognise them, and that different numbers have different
names.
-/

set_option autoImplicit false

namespace RrSync

open Lib

/-! ### Hexadecimal digits -/

/-- The byte of a hexadecimal digit. -/
def hexByte (n : Nat) : UInt8 := if n < 10 then .ofNat (48 + n) else .ofNat (87 + n)

/-- A hex digit is one byte. -/
theorem utf8_hexDigit {n : Nat} (h : n < 16) :
    (String.ofList [Description.hexDigit n]).utf8 = [hexByte n] := by
  revert n
  decide

/-- Its value is read back. -/
theorem hexValue_hexByte {n : Nat} (h : n < 16) : hexValue? (hexByte n) = some n := by
  revert n
  decide

/-- Two digits for each byte. -/
theorem utf8_hex (b : Bytes) : (Description.hex b).utf8
    = b.flatMap fun x => [hexByte (x.toNat / 16), hexByte (x.toNat % 16)] := by
  unfold Description.hex
  induction b with
  | nil => rfl
  | cons x b ih =>
    have hx := x.toNat_lt
    rw [List.flatMap_cons, List.flatMap_cons]
    simp only [List.cons_append, List.nil_append]
    rw [String.utf8_ofList_cons, String.utf8_ofList_cons (Description.hexDigit (x.toNat % 16)), ih,
      utf8_hexDigit (n := x.toNat / 16) (by omega), utf8_hexDigit (n := x.toNat % 16) (by omega)]
    rfl

/-- So the text has twice as many characters. -/
@[simp] theorem length_hex (b : Bytes) : (Description.hex b).utf8.length = 2 * b.length := by
  rw [utf8_hex]
  induction b with
  | nil => rfl
  | cons x b ih =>
    rw [List.flatMap_cons, List.length_append, ih, List.length_cons]
    simp only [List.length_cons, List.length_nil]
    omega

/-- Every byte of the digits of `b` is a digit. -/
theorem isHexDigit_hex (b : Bytes) : (Description.hex b).utf8.all isHexDigit = true := by
  rw [utf8_hex, List.all_eq_true]
  intro y hy
  obtain ⟨x, -, hy⟩ := List.mem_flatMap.mp hy
  have hx := x.toNat_lt
  rcases List.mem_cons.mp hy with rfl | hy
  · simp [isHexDigit, hexValue_hexByte (n := x.toNat / 16) (by omega)]
  · rw [List.mem_singleton.mp hy]
    simp [isHexDigit, hexValue_hexByte (n := x.toNat % 16) (by omega)]

/-- Reading the digits of `b` gives the number that `b` is. -/
theorem fromHex_hex (b : Bytes) : fromHex (Description.hex b).utf8 = .ok (ofBytes b) := by
  have hmap : (Description.hex b).utf8.mapM hexValue?
      = some (b.flatMap fun x => [x.toNat / 16, x.toNat % 16]) := by
    rw [utf8_hex]
    induction b with
    | nil => rfl
    | cons x b ih =>
      have hx := x.toNat_lt
      rw [List.flatMap_cons, List.flatMap_cons, List.mapM_append, ih]
      simp [List.mapM_cons, hexValue_hexByte (n := x.toNat / 16) (by omega),
        hexValue_hexByte (n := x.toNat % 16) (by omega)]
  -- Two digits are one byte.
  have hfold : ∀ b : Bytes, (b.flatMap fun x => [x.toNat / 16, x.toNat % 16]).foldl
      (fun n x => n * 16 + x) 0 = ofBytes b := by
    intro b
    induction b using List.reverseRecOn with
    | nil => rfl
    | append_singleton b x ih =>
      rw [List.flatMap_append, List.foldl_append, ih, ofBytes_append_singleton]
      simp only [List.flatMap_cons, List.flatMap_nil, List.append_nil, List.foldl_cons,
        List.foldl_nil]
      omega
  unfold fromHex
  rw [hmap, ← hfold]
  rfl

/-- The digits determine the bytes, when the number of the bytes is known. -/
theorem hex_injective {a b : Bytes} (hlen : a.length = b.length)
    (h : Description.hex a = Description.hex b) : a = b := by
  have h1 : ofBytes a = ofBytes b := by
    have := fromHex_hex a
    rw [h, fromHex_hex] at this
    exact (Except.ok.inj this).symm
  rw [← toBytes_ofBytes a, ← toBytes_ofBytes b, hlen, h1]

/-- A word has eight digits. -/
@[simp] theorem length_hex8 (n : Nat) : (hex8 n).utf8.length = 8 := by
  rw [hex8, length_hex, length_toBytes]

/-- All of them are digits. -/
theorem isHexDigit_hex8 (n : Nat) : (hex8 n).utf8.all isHexDigit = true := isHexDigit_hex _

/-- They are the name of a shard. -/
theorem shardName_hex8 (n : Nat) : shardName (hex8 n) = true := by
  simp only [shardName, length_hex8, decide_true, Bool.true_and]
  exact isHexDigit_hex8 n

/-- The word is read back. -/
theorem fromHex_hex8 {n : Nat} (h : n < 2 ^ 32) : fromHex (hex8 n).utf8 = .ok n := by
  have h1 : n % 256 ^ 4 = n := Nat.mod_eq_of_lt (by omega)
  rw [hex8, fromHex_hex, ofBytes_toBytes, h1]

/-- Different words have different digits. -/
theorem hex8_injective {m n : Nat} (hm : m < 2 ^ 32) (hn : n < 2 ^ 32) (h : hex8 m = hex8 n) :
    m = n := by
  have h1 := fromHex_hex8 hm
  rw [h, fromHex_hex8 hn] at h1
  exact (Except.ok.inj h1).symm

/-! ### Paths of names -/

/-- A string of hexadecimal digits is a name. -/
theorem nameOk_of_digits {n : Path} (hne : n ≠ []) (h : n.all isHexDigit = true) : NameOk n := by
  rw [List.all_eq_true] at h
  refine ⟨hne, fun hs => ?_, fun h0 => ?_, ?_, ?_⟩
  · exact absurd (h slash hs) (by decide)
  · exact absurd (h 0 h0) (by decide)
  · rintro rfl
    exact absurd (h 0x2e (by decide)) (by decide)
  · rintro rfl
    exact absurd (h 0x2e (by decide)) (by decide)

/-- The digits of a word are a name. -/
theorem nameOk_hex8 (n : Nat) : NameOk (hex8 n).utf8 :=
  nameOk_of_digits (List.ne_nil_of_length_pos (by simp)) (isHexDigit_hex _)

/-- The last name of a path of digits may have a suffix with a dot in it. -/
theorem nameOk_append {n s : Path} (hn : n.all isHexDigit = true) (hs : slash ∉ s) (h0 : 0 ∉ s)
    (hlen : 3 ≤ (n ++ s).length) : NameOk (n ++ s) := by
  rw [List.all_eq_true] at hn
  refine ⟨List.ne_nil_of_length_pos (by omega), fun h => ?_, fun h => ?_, fun h => ?_, fun h => ?_⟩
  · rcases List.mem_append.mp h with h | h
    · exact absurd (hn slash h) (by decide)
    · exact hs h
  · rcases List.mem_append.mp h with h | h
    · exact absurd (hn 0 h) (by decide)
    · exact h0 h
  · rw [h] at hlen
    exact absurd hlen (by decide)
  · rw [h] at hlen
    exact absurd hlen (by decide)

/-- A name that is not too long is a component that `validate` accepts. -/
theorem badComponent_of_nameOk {n : Path} (hn : NameOk n) (hlen : n.length ≤ 255) :
    badComponent n = false := by
  obtain ⟨h1, -, -, h2, h3⟩ := hn
  simp only [badComponent, Bool.or_eq_false_iff, decide_eq_false_iff_not, List.isEmpty_eq_false_iff]
  exact ⟨⟨⟨h1, h2⟩, h3⟩, by omega⟩

/-- Short paths of a few names are valid. -/
theorem validate_of_names {s : String} (hs : CleanPath s.utf8)
    (hlen : ∀ c ∈ s.utf8.splitOn slash, c.length ≤ 255) (hcount : (s.utf8.splitOn slash).length ≤ 128)
    (hmax : s.utf8.length ≤ maxPath) : validate s = .ok () := by
  have hne := hs.ne_nil
  -- A zero byte would be in one of the components.
  have h0 : (0 : UInt8) ∉ s.utf8 := by
    intro h
    obtain ⟨c, hc, hm⟩ : ∃ c ∈ s.utf8.splitOn slash, (0 : UInt8) ∈ c := by
      by_contra hno
      have hall : ∀ c ∈ s.utf8.splitOn slash, (0 : UInt8) ∉ c := fun c hc hm => hno ⟨c, hc, hm⟩
      clear hno hne hs hlen hcount hmax
      generalize s.utf8 = p at h hall
      induction p using SepPath.induction_on_names slash with
      | hlast n hn => exact hall n (by rw [List.splitOn_eq_singleton hn]; simp) h
      | hcons n p hn ih =>
        rw [SepPath.splitOn_append_sep hn] at hall
        rcases List.mem_append.mp h with h | h
        · exact hall n List.mem_cons_self h
        · rcases List.mem_cons.mp h with h | h
          · cases h
          · exact ih h fun c hc => hall c (List.mem_cons_of_mem _ hc)
    exact (hs c hc).2.2.1 hm
  simp only [validate, ite_throw_eq_ok, Bool.or_eq_true, not_or, Bool.not_eq_true,
    List.any_eq_false]
  refine ⟨⟨⟨⟨⟨?_, ?_⟩, ?_⟩, ?_⟩, fun c hc => ?_⟩, rfl⟩
  · simpa using hne
  · simpa using hmax
  · simpa using h0
  · simpa using hcount
  · rw [badComponent_of_nameOk (hs c hc) (hlen c hc)]

/-- So a short name is a path. -/
theorem validate_of_name {s : String} (hs : NameOk s.utf8) (hlen : s.utf8.length ≤ 255) :
    validate s = .ok () := by
  have hsplit := List.splitOn_eq_singleton hs.2.1
  refine validate_of_names ((SepPath.clean_of_notMem hs.2.1).mpr hs) ?_ ?_ ?_
  · intro c hc
    rw [hsplit, List.mem_singleton] at hc
    exact hc ▸ hlen
  · rw [hsplit, List.length_singleton]
    omega
  · simp only [maxPath]
    omega

/-- So are two names with a slash between them. -/
theorem validate_of_two {s : String} {a b : Path} (hs : s.utf8 = a ++ slash :: b) (ha : NameOk a)
    (hb : NameOk b) (hla : a.length ≤ 255) (hlb : b.length ≤ 255) : validate s = .ok () := by
  have hsplit : s.utf8.splitOn slash = [a, b] := by
    rw [hs, SepPath.splitOn_append_sep ha.2.1, List.splitOn_eq_singleton hb.2.1]
  refine validate_of_names ?_ ?_ ?_ ?_
  · rw [hs]
    exact SepPath.clean_append_sep.mpr ⟨(SepPath.clean_of_notMem ha.2.1).mpr ha,
      (SepPath.clean_of_notMem hb.2.1).mpr hb⟩
  · intro c hc
    rw [hsplit] at hc
    rcases List.mem_cons.mp hc with rfl | hc
    · exact hla
    · rw [List.mem_singleton.mp hc]
      exact hlb
  · rw [hsplit, List.length_cons, List.length_singleton]
    omega
  · rw [hs, List.length_append, List.length_cons]
    simp only [maxPath]
    omega

end RrSync

import Mathlib.Algebra.Ring.Nat
import Mathlib.Data.List.Basic
import RrSync.Lib.SepPath

/-!
# `RrSync.Model.Basic`: words, hashes and errors

The data every other module of the model shares. A Rust `String` is a Lean `String`: both
are valid UTF-8. What the program does with a path (length, order, splitting at `/`) it does
on the bytes, so the model works on `String.utf8`, and `Path` is the type of such bytes.

SHA-256 comes from a third-party crate. It is the parameter `Sha256.digest`, about which
nothing is assumed here.
-/

set_option autoImplicit false

/-- The UTF-8 bytes of a string. -/
def String.utf8 (s : String) : List UInt8 := s.toByteArray.data.toList

/-- A string is determined by its bytes. -/
theorem String.utf8_injective {s t : String} (h : s.utf8 = t.utf8) : s = t := by
  have h1 : s.toByteArray.data = t.toByteArray.data := Array.toList_inj.mp h
  exact String.toByteArray_inj.mp (ByteArray.ext h1)

/-- The bytes of two strings joined. -/
@[simp] theorem String.utf8_append (s t : String) : (s ++ t).utf8 = s.utf8 ++ t.utf8 := by
  simp [String.utf8, String.toByteArray_append]

/-- The empty string has no bytes. -/
@[simp] theorem String.utf8_empty : ("" : String).utf8 = [] := rfl

/-- Only the empty string has no bytes. -/
theorem String.utf8_eq_nil {s : String} : s.utf8 = [] ↔ s = "" :=
  ⟨fun h => String.utf8_injective (h.trans String.utf8_empty.symm), fun h => h ▸ rfl⟩

/-- Strings are equal exactly when their bytes are. -/
theorem String.utf8_inj {s t : String} : s.utf8 = t.utf8 ↔ s = t :=
  ⟨String.utf8_injective, congrArg String.utf8⟩

/-- The bytes of a string that starts with the character `c`. -/
theorem String.utf8_ofList_cons (c : Char) (cs : List Char) :
    (String.ofList (c :: cs)).utf8 = (String.ofList [c]).utf8 ++ (String.ofList cs).utf8 := by
  rw [show c :: cs = [c] ++ cs from rfl, String.ofList_append, String.utf8_append]

/-- A character has as many bytes as its encoding. -/
theorem String.length_utf8_singleton (c : Char) :
    (String.ofList [c]).utf8.length = c.utf8Size := by
  simp [String.utf8, List.utf8Encode_singleton]

/-- What comes after a slash in a string is a string. -/
theorem String.exists_utf8_after {s : String} {a b : List UInt8} (h : s.utf8 = a ++ 0x2f :: b) :
    ∃ t : String, t.utf8 = b := by
  have hlen : s.utf8ByteSize = a.length + (b.length + 1) := by
    have := congrArg List.length h
    simpa [String.utf8] using this
  have hlt : (⟨a.length⟩ : String.Pos.Raw) < s.rawEndPos := by
    rw [String.Pos.Raw.lt_iff, String.byteIdx_rawEndPos, hlen]
    exact Nat.lt_add_of_pos_right (Nat.succ_pos _)
  have hbyte : s.getUTF8Byte ⟨a.length⟩ hlt = 0x2f := by
    have h1 : s.utf8[a.length]? = some 0x2f := by rw [h]; simp
    obtain ⟨h2, h3⟩ := List.getElem?_eq_some_iff.mp h1
    exact h3
  -- the byte of the slash is a character of its own, so a valid string is cut before it
  have hval : (⟨a.length⟩ : String.Pos.Raw).IsValid s :=
    String.Pos.Raw.isValid_iff_isUTF8FirstByte.mpr (Or.inr ⟨hlt, by rw [hbyte]; decide⟩)
  have hrest := (String.Pos.Raw.isValid_iff_isValidUTF8_extract_utf8ByteSize.mp hval).2
  -- what is left is that character and the bytes after it
  have hsplit : s.toByteArray.extract a.length s.utf8ByteSize
      = ['/'].utf8Encode ++ ⟨b.toArray⟩ := by
    apply ByteArray.ext
    apply Array.toList_inj.mp
    have h4 : s.toByteArray.data.toList = a ++ 0x2f :: b := h
    rw [ByteArray.data_extract, Array.toList_extract, h4, hlen, List.extract_eq_take_drop,
      Nat.add_sub_cancel_left, List.drop_left]
    exact List.take_of_length_le (by simp)
  rw [show (⟨a.length⟩ : String.Pos.Raw).byteIdx = a.length from rfl, hsplit,
    ByteArray.isValidUTF8_utf8Encode_singleton_append_iff] at hrest
  exact ⟨⟨⟨b.toArray⟩, hrest⟩, by simp [String.utf8]⟩

namespace RrSync

open Lib

/-- Rust's `Vec<u8>` and `[u8]`. -/
abbrev Bytes := List UInt8

/-- The characters at the start of `b`, at most `k` of them. -/
def decodeChars : Nat → Bytes → List Char
  | 0, _ => []
  | k + 1, b => match (ByteArray.mk b.toArray).utf8DecodeChar? 0 with
    | none => []
    | some c => c :: decodeChars k (b.drop c.utf8Size)

/-- The string with the UTF-8 bytes `b`, if there is one. -/
def ofUtf8? (b : Bytes) : Option String :=
  let s := String.ofList (decodeChars b.length b)
  if s.utf8 = b then some s else none

/-- Decoding gives back the characters, when there is fuel for each of them. -/
theorem decodeChars_utf8 (cs : List Char) (k : Nat) (hk : cs.length ≤ k) :
    decodeChars k (String.ofList cs).utf8 = cs := by
  induction cs generalizing k with
  | nil => cases k <;> rfl
  | cons c cs ih =>
    obtain ⟨k, rfl⟩ : ∃ j, k = j + 1 := ⟨k - 1, by simp at hk; omega⟩
    have h1 : (ByteArray.mk (String.ofList (c :: cs)).utf8.toArray).utf8DecodeChar? 0 = some c := by
      rw [String.utf8, Array.toArray_toList]
      exact List.utf8DecodeChar?_utf8Encode_cons
    have h2 : (String.ofList (c :: cs)).utf8.drop c.utf8Size = (String.ofList cs).utf8 := by
      rw [String.utf8_ofList_cons]
      exact List.drop_left' (String.length_utf8_singleton c)
    unfold decodeChars
    rw [h1]
    simp only [h2, ih k (by simpa using hk)]

/-- A character has at least one byte, so the number of bytes is fuel enough. -/
theorem length_le_utf8 (cs : List Char) : cs.length ≤ (String.ofList cs).utf8.length := by
  induction cs with
  | nil => exact Nat.zero_le _
  | cons c cs ih =>
    rw [String.utf8_ofList_cons, List.length_append, String.length_utf8_singleton, List.length_cons]
    have := c.utf8Size_pos
    omega

/-- `String::from_utf8` accepts exactly the bytes of strings. -/
theorem ofUtf8?_eq_some {b : Bytes} {s : String} : ofUtf8? b = some s ↔ s.utf8 = b := by
  unfold ofUtf8?
  constructor
  · intro h
    simp only [] at h
    split at h
    · next hs => exact Option.some.inj h ▸ hs
    · exact absurd h (by simp)
  · rintro rfl
    have h : String.ofList (decodeChars s.utf8.length s.utf8) = s := by
      have h1 := decodeChars_utf8 s.toList s.utf8.length
      rw [String.ofList_toList] at h1
      rw [h1 (by simpa using length_le_utf8 s.toList), String.ofList_toList]
    simp [h]

/-- A path relative to an open directory, as bytes. `[]` is the directory itself. -/
abbrev Path := List UInt8

/-- A SHA-256 value. -/
abbrev Hash := Vector UInt8 32

/-- A 16-byte identity: a connection, a Link or a peer. -/
abbrev Id := Vector UInt8 16

/-- SHA-256, from the `sha2` crate. -/
class Sha256 where
  digest : Bytes → Hash

export Sha256 (digest)

/-! ### Paths -/

/-- The byte `/`. -/
abbrev slash : UInt8 := 0x2f

/-- What is before the last slash of a path. -/
abbrev dirName (p : Path) : Path := SepPath.dirName slash p

/-- What is after the last slash of a path. -/
abbrev baseName (p : Path) : Path := SepPath.baseName slash p

/-- Two paths joined by a slash, or the one of them that is not empty. -/
abbrev join (a b : Path) : Path := SepPath.join slash a b

/-- `p` is `a` or an object under the directory `a`. -/
abbrev Below (p a : Path) : Prop := SepPath.Below slash p a

/-- A name of a directory entry: not empty, not `.` or `..`, without `/` and NUL. -/
def NameOk (n : Path) : Prop :=
  n ≠ [] ∧ slash ∉ n ∧ 0 ∉ n ∧ n ≠ ".".utf8 ∧ n ≠ "..".utf8

instance (n : Path) : Decidable (NameOk n) := inferInstanceAs (Decidable (_ ∧ _))

/-- A relative path all of whose names are names of directory entries. -/
abbrev CleanPath (p : Path) : Prop := SepPath.Clean NameOk slash p

/-- The empty name is no name. -/
theorem not_nameOk_nil : ¬ NameOk [] := fun h => h.1 rfl

/-- A clean path is not empty. -/
theorem CleanPath.ne_nil {p : Path} (h : CleanPath p) : p ≠ [] :=
  SepPath.Clean.ne_nil not_nameOk_nil h

/-! ### Errors -/

/-- The operating system errors the program distinguishes or meets. -/
inductive Errno where
  | noent | exist | notDir | isDir | notEmpty | symlinkLoop | inval | io | unexpectedEof
  deriving DecidableEq, Repr

/-- What Rust prints for the error. -/
def Errno.text : Errno → String
  | .noent => "No such file or directory (os error 2)"
  | .exist => "File exists (os error 17)"
  | .notDir => "Not a directory (os error 20)"
  | .isDir => "Is a directory (os error 21)"
  | .notEmpty => "Directory not empty (os error 39)"
  | .symlinkLoop => "Too many levels of symbolic links (os error 40)"
  | .inval => "Invalid argument (os error 22)"
  | .io => "Input/output error (os error 5)"
  | .unexpectedEof => "failed to fill whole buffer"

/-- `crate::Error`. The constructor `panic` is not one of the source's: it stands for the
abort of a slice or map index that is out of range, at the place named by `site`. -/
inductive Error where
  | io (kind : Errno) (text : String)
  | invalidPath (path : String)
  | protocol (text : String)
  | permissionDenied
  | changed (path : String)
  | hashMismatch (path : String)
  | transport (text : String)
  | connection (text : String)
  | busy
  | remote (code : UInt8) (text : String)
  | config (text : String)
  | panic (site : String)
  deriving DecidableEq, Repr

/-- `From<Errno> for Error`. -/
def Errno.toError (e : Errno) : Error := .io e e.text

/-- `Display for Error`. -/
def Error.display : Error → String
  | .io _ text => "filesystem: " ++ text
  | .invalidPath path => "invalid path: " ++ path
  | .protocol text => "protocol: " ++ text
  | .permissionDenied => "permission denied"
  | .changed path => "source or destination changed: " ++ path ++ "; run synchronization again"
  | .hashMismatch path => "hash mismatch: " ++ path
  | .transport text => "transport: " ++ text
  | .connection text => "connection: " ++ text
  | .busy => "server export is busy"
  | .remote code text => "remote error " ++ toString code ++ ": " ++ text
  | .config text => "configuration: " ++ text
  | .panic site => "panic: " ++ site

/-- `xs[i]` of the source: an index out of range is a panic. -/
def index {α : Type} (xs : List α) (i : Nat) (site : String) : Except Error α :=
  match xs[i]? with
  | some x => .ok x
  | none => .error (.panic site)

end RrSync

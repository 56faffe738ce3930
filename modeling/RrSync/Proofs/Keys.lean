import RrSync.Proofs.Slots

/-!
# `RrSync.Proofs.Keys`: transfers of different contexts have different keys

The key of a transfer is the digest of a digest. Both inputs are made of fields of fixed width
and of fields with their length before them, so they determine their fields
(`scopeInput_injective`, `keyInput_injective`). When no two of the inputs collide, a key
therefore determines the context (`key_injective`).
-/

set_option autoImplicit false

namespace RrSync

open Lib

/-- What the cached bytes of a transfer are bound to: the peer and the receiving context, and
the description without its hash pages. -/
@[ext] structure Context where
  peer : Id
  push : Bool
  root : String
  path : String
  size : Nat
  chunkSize : UInt32
  hash : Hash
  geometry : Geometry size chunkSize

namespace Context

instance : DecidableEq Context := fun _ _ => decidable_of_iff _ Context.ext_iff.symm

variable (t : Context)

/-- The description of the context with the hash pages set so far. -/
def description (hashes : List Hash) : Description :=
  ⟨t.size, t.chunkSize, t.hash, hashes, t.geometry⟩

/-- A string, with its length before it. -/
def field (s : String) : Bytes := toBytes 4 s.utf8.length ++ s.utf8

/-- What `scope` hashes. -/
def scopeInput : Bytes := "rrsync-local-scope-v1".utf8 ++ [0] ++ t.peer.toList
  ++ [if t.push then 1 else 0] ++ field t.root ++ field t.path

/-- What `key` hashes. -/
def keyInput (scope : Hash) : Bytes := "rrsync-local-chunks-paged".utf8 ++ [0] ++ scope.toList
  ++ toBytes 8 t.size ++ toBytes 4 t.chunkSize.toNat ++ t.hash.toList

/-- `scope` accepts the root and the path. -/
def Accepted : Prop := validate t.path = .ok () ∧ t.root.utf8 ≠ [] ∧
  t.root.utf8.length ≤ maxPath ∧ 0 ∉ t.root.utf8

section
variable [Sha256]

/-- The scope of the context. -/
def scope : Except Error Hash := RrSync.scope t.peer t.push t.root t.path

variable {t}

/-- The scope is the digest of the input, when the lengths are accepted. -/
theorem scope_ok {h : Hash} : t.scope = .ok h ↔ t.Accepted ∧ digest t.scopeInput = h := by
  have hinput : t.scope = (do
      validate t.path
      if t.root.utf8 = [] ∨ maxPath < t.root.utf8.length ∨ 0 ∈ t.root.utf8 then
        throw (.invalidPath t.root)
      pure (digest t.scopeInput)) := rfl
  rw [hinput]
  simp only [bind_eq_ok, ite_throw_bind_eq_ok, pure_eq_ok, exists_and_right, not_or, not_lt,
    Accepted]
  constructor
  · rintro ⟨⟨⟨⟩, h1⟩, h2, h3⟩
    exact ⟨⟨h1, h2⟩, h3⟩
  · rintro ⟨⟨h1, h2⟩, h3⟩
    exact ⟨⟨(), h1⟩, h2, h3⟩

/-- The key is written from the digest of its input. -/
theorem key_eq (hashes : List Hash) (scope : Hash) :
    (t.description hashes).key scope = Description.hex (digest (t.keyInput scope)).toList := rfl

end

/-! ### The inputs determine their fields -/

variable {t} {u : Context}

/-- Numbers that fit in as many bytes are told apart by them. -/
theorem toBytes_injective {k m n : Nat} (hm : m < 256 ^ k) (hn : n < 256 ^ k)
    (h : toBytes k m = toBytes k n) : m = n := by
  have h1 := congrArg ofBytes h
  rwa [ofBytes_toBytes, ofBytes_toBytes, Nat.mod_eq_of_lt hm, Nat.mod_eq_of_lt hn] at h1

/-- A field is read back, whatever follows it. -/
theorem field_injective {a b : String} {x y : Bytes} (ha : a.utf8.length ≤ maxPath)
    (hb : b.utf8.length ≤ maxPath) (h : field a ++ x = field b ++ y) : a = b ∧ x = y := by
  unfold field at h
  rw [List.append_assoc, List.append_assoc] at h
  obtain ⟨h1, h2⟩ := List.append_inj h (by rw [length_toBytes, length_toBytes])
  have hlen : a.utf8.length = b.utf8.length := by
    refine toBytes_injective (k := 4) ?_ ?_ h1
    · exact Nat.lt_of_le_of_lt ha (by decide)
    · exact Nat.lt_of_le_of_lt hb (by decide)
  obtain ⟨h3, h4⟩ := List.append_inj h2 hlen
  exact ⟨String.utf8_injective h3, h4⟩

/-- The input of a scope determines the peer, the direction, the root and the path, since the
lengths come first. -/
theorem scopeInput_injective (ht : t.Accepted) (hu : u.Accepted)
    (h : t.scopeInput = u.scopeInput) :
    t.peer = u.peer ∧ t.push = u.push ∧ t.root = u.root ∧ t.path = u.path := by
  unfold scopeInput at h
  simp only [List.append_assoc] at h
  have h0 := List.append_cancel_left (List.append_cancel_left h)
  obtain ⟨hpeer, h1⟩ := List.append_inj h0 (by simp)
  obtain ⟨hpush, h2⟩ := List.append_inj h1 rfl
  obtain ⟨hroot, h3⟩ := field_injective ht.2.2.1 hu.2.2.1 h2
  rw [← List.append_nil (field t.path), ← List.append_nil (field u.path)] at h3
  obtain ⟨hpath, -⟩ := field_injective (length_of_validate ht.1) (length_of_validate hu.1) h3
  refine ⟨Vector.toList_inj.mp hpeer, ?_, hroot, hpath⟩
  revert hpush
  cases t.push <;> cases u.push <;> decide

/-- The input of a key determines the scope, the size, the chunk size and the hash. -/
theorem keyInput_injective {a b : Hash} (h : t.keyInput a = u.keyInput b) :
    a = b ∧ t.size = u.size ∧ t.chunkSize = u.chunkSize ∧ t.hash = u.hash := by
  unfold keyInput at h
  simp only [List.append_assoc] at h
  have h0 := List.append_cancel_left (List.append_cancel_left h)
  obtain ⟨hscope, h1⟩ := List.append_inj h0 (by simp)
  obtain ⟨hsize, h2⟩ := List.append_inj h1 (by simp)
  obtain ⟨hchunk, h3⟩ := List.append_inj h2 (by simp)
  have hmax : ∀ t : Context, t.size < 256 ^ 8 := fun t =>
    Nat.lt_of_le_of_lt t.geometry.2.2 (by decide)
  have hmax' : ∀ t : Context, t.chunkSize.toNat < 256 ^ 4 := fun t =>
    Nat.lt_of_lt_of_eq t.chunkSize.toNat_lt (by decide)
  exact ⟨Vector.toList_inj.mp hscope, toBytes_injective (hmax t) (hmax u) hsize,
    UInt32.toNat_inj.mp (toBytes_injective (hmax' t) (hmax' u) hchunk), Vector.toList_inj.mp h3⟩

variable [Sha256]

/-- The key of the context. -/
def key (t : Context) : Except Error String := do
  let scope ← t.scope
  pure ((t.description []).key scope)

/-- What is hashed for the contexts of a list. -/
def Hashed (ts : List Context) (x : Bytes) : Prop :=
  ∃ t ∈ ts, x = t.scopeInput ∨ x = t.keyInput (digest t.scopeInput)

/-- No two of the inputs for the contexts have the same digest. -/
def CollisionFree (ts : List Context) : Prop :=
  ∀ x y, Hashed ts x → Hashed ts y → digest x = digest y → x = y

/-- The key of a context, from both digests. -/
theorem key_ok {k : String} : t.key = .ok k ↔ t.Accepted ∧
    Description.hex (digest (t.keyInput (digest t.scopeInput))).toList = k := by
  simp only [key, bind_eq_ok, scope_ok, pure_eq_ok, key_eq]
  constructor
  · rintro ⟨_, ⟨h1, rfl⟩, h2⟩
    exact ⟨h1, h2⟩
  · rintro ⟨h1, h2⟩
    exact ⟨_, ⟨h1, rfl⟩, h2⟩

/-- Without collisions, a key determines the context. -/
theorem key_injective {ts : List Context} (hcf : CollisionFree ts) (ht : t ∈ ts) (hu : u ∈ ts)
    {k : String} (hk : t.key = .ok k) (hk' : u.key = .ok k) : t = u := by
  obtain ⟨hta, h1⟩ := key_ok.mp hk
  obtain ⟨hua, h2⟩ := key_ok.mp hk'
  have hdigest := Vector.toList_inj.mp (hex_injective (by simp) (h1.trans h2.symm))
  obtain ⟨hscope, hsize, hchunk, hhash⟩ := keyInput_injective
    (hcf _ _ ⟨t, ht, Or.inr rfl⟩ ⟨u, hu, Or.inr rfl⟩ hdigest)
  obtain ⟨hpeer, hpush, hroot, hpath⟩ := scopeInput_injective hta hua
    (hcf _ _ ⟨t, ht, Or.inl rfl⟩ ⟨u, hu, Or.inl rfl⟩ hscope)
  cases t
  cases u
  simp only at hpeer hpush hroot hpath hsize hchunk hhash
  subst hpeer hpush hroot hpath hsize hchunk hhash
  rfl

end Context

end RrSync

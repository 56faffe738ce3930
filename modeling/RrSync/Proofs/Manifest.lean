import Mathlib.Data.List.Induction
import RrSync.Model.Sync

/-!
# `RrSync.Proofs.Manifest`: what `Manifest.validate` accepts

`Manifest.Valid` says in one place what a manifest has to be: bounded, entry by entry well
formed, sorted by path, and with a directory entry for every parent. `validate_ok` is the
equivalence with the loop of the source, which checks all this in one pass against the
entries it has seen.
-/

set_option autoImplicit false

namespace RrSync

open Lib

/-- What an entry has to be on its own. -/
structure Entry.Ok (checksum : Bool) (e : Entry) : Prop where
  path : validate e.path = .ok ()
  reserved : (e.path.utf8.splitOn slash).any reserved = true → e.kind = .guarded
  plain : e.kind ≠ .file → e.size = 0 ∧ e.hash = none
  ns : e.ns < 1000000000
  size : e.kind = .file → e.size ≤ maxFile
  hash : e.kind = .file → checksum = true → e.hash.isSome

/-- What the validation remembers of an entry: its path and its kind. -/
def Entry.key (e : Entry) : Path × Kind := (e.path.utf8, e.kind)

namespace Manifest

/-- A manifest that the validation accepts: not too many entries, each of them in order, sorted by
path, and with the directory of each entry before it. -/
structure Valid (checksum : Bool) (m : Manifest) : Prop where
  count : m.entries.length ≤ maxEntries
  entry : ∀ e ∈ m.entries, e.Ok checksum
  sorted : m.entries.Pairwise fun a b => a.path.utf8 < b.path.utf8
  parent : ∀ e ∈ m.entries, slash ∈ e.path.utf8 →
    ∃ d ∈ m.entries, d.path.utf8 = dirName e.path.utf8 ∧ d.kind = .directory

variable {checksum : Bool} {seen : List (Path × Kind)} {e : Entry} {u : Unit}

/-- One entry passes when it is in order by itself, comes after the last one and has its directory
among those seen. -/
theorem validateEntry_ok : validateEntry checksum seen e = .ok u ↔
    e.Ok checksum ∧ (∀ k ∈ seen.head?, k.1 < e.path.utf8) ∧
      (slash ∈ e.path.utf8 → seen.lookup (dirName e.path.utf8) = some .directory) := by
  simp only [validateEntry, bind_eq_ok, ite_throw_bind_eq_ok, ite_throw_eq_ok, pure_eq_ok,
    and_true, Bool.and_eq_true, Bool.or_eq_true, decide_eq_true_eq, Option.any_eq_true, not_exists,
    not_and, not_or, ne_eq, Decidable.not_not, List.not_le, Option.mem_def]
  constructor
  · rintro ⟨v, hv, hres, hplain, hmeta, hsorted, hparent⟩
    refine ⟨⟨hv, hres, fun hk => ?_, ?_, fun hk => ?_, fun hk hc => ?_⟩, hsorted, hparent⟩
    · simpa using hplain hk
    · simpa using hmeta.1
    · simpa using (hmeta.2 hk).1
    · exact Option.isSome_iff_ne_none.mpr (by simpa using (hmeta.2 hk).2 hc)
  · rintro ⟨⟨hv, hres, hplain, hns, hsize, hhash⟩, hsorted, hparent⟩
    refine ⟨(), hv, hres, fun hk => ?_, ⟨by simpa using hns, fun hk => ⟨?_, fun hc => ?_⟩⟩,
      hsorted, hparent⟩
    · simpa using hplain hk
    · simpa using hsize hk
    · simpa using Option.isSome_iff_ne_none.mp (hhash hk hc)

/-- The keys of a sorted manifest, last one first, as the loop has them. -/
theorem lookup_seen {pre : List Entry} {p : Path}
    (hs : pre.Pairwise fun a b => a.path.utf8 < b.path.utf8) {k : Kind} :
    (pre.map Entry.key).reverse.lookup p = some k ↔
      ∃ d ∈ pre, d.path.utf8 = p ∧ d.kind = k := by
  induction pre using List.reverseRecOn with
  | nil => simp
  | append_singleton pre d ih =>
    obtain ⟨h1, -, h3⟩ := List.pairwise_append.mp hs
    rw [List.map_append, List.reverse_append]
    show List.lookup p ((d.path.utf8, d.kind) :: (pre.map Entry.key).reverse) = some k ↔ _
    rw [List.lookup_cons]
    by_cases hp : p = d.path.utf8
    · subst hp
      -- No earlier entry has the path of the last one.
      have hne : ∀ x ∈ pre, x.path.utf8 ≠ d.path.utf8 := fun x hx he =>
        absurd (h3 x hx d (by simp)) (by rw [he]; exact List.lt_irrefl _)
      simp only [BEq.rfl, Option.some.injEq, List.mem_append, List.mem_singleton]
      constructor
      · exact fun hk => ⟨d, Or.inr rfl, rfl, hk⟩
      · rintro ⟨x, hx | rfl, hxp, hk⟩
        · exact absurd hxp (hne x hx)
        · exact hk
    · rw [beq_false_of_ne hp]
      simp only [ih h1, List.mem_append, List.mem_singleton]
      constructor
      · rintro ⟨x, hx, h⟩
        exact ⟨x, Or.inl hx, h⟩
      · rintro ⟨x, hx | rfl, hxp, hk⟩
        · exact ⟨x, hx, hxp, hk⟩
        · exact absurd hxp.symm hp

/-- The parent of a path comes before it. -/
theorem dirName_lt {p : Path} (h : slash ∈ p) : dirName p < p :=
  (SepPath.below_dirName h).lt (SepPath.dirName_ne (List.ne_nil_of_mem h)).symm

/-- One more entry after the sorted entries `pre`. -/
theorem pairwise_snoc {pre : List Entry}
    (hs : pre.Pairwise fun a b => a.path.utf8 < b.path.utf8) :
    (∀ k ∈ (pre.map Entry.key).reverse.head?, k.1 < e.path.utf8) ↔
      (pre ++ [e]).Pairwise fun a b => a.path.utf8 < b.path.utf8 := by
  rw [List.pairwise_append, List.head?_reverse, List.getLast?_map]
  cases pre using List.reverseRecOn with
  | nil => simp
  | append_singleton pre d =>
    simp only [List.getLast?_concat, Option.map_some, Option.mem_def, Option.some.injEq,
      forall_eq', List.mem_append, List.mem_singleton, hs, List.pairwise_singleton, true_and,
      forall_eq]
    constructor
    · rintro hd x (hx | rfl)
      · exact List.lt_trans ((List.pairwise_append.mp hs).2.2 x hx d (by simp)) hd
      · exact hd
    · exact fun h => h d (Or.inr rfl)

/-- The loop accepts the entries `post` after the sorted entries `pre`. -/
theorem validateFrom_ok {pre post : List Entry}
    (hs : pre.Pairwise fun a b => a.path.utf8 < b.path.utf8) :
    validateFrom checksum (pre.map Entry.key).reverse post = .ok u ↔
      (∀ e ∈ post, e.Ok checksum) ∧
      (pre ++ post).Pairwise (fun a b => a.path.utf8 < b.path.utf8) ∧
      ∀ e ∈ post, slash ∈ e.path.utf8 →
        ∃ d ∈ pre ++ post, d.path.utf8 = dirName e.path.utf8 ∧ d.kind = .directory := by
  induction post generalizing pre with
  | nil => simpa [validateFrom, pure_eq_ok] using hs
  | cons e post ih =>
    have hnext : (e.path.utf8, e.kind) :: (pre.map Entry.key).reverse
        = ((pre ++ [e]).map Entry.key).reverse := by simp [Entry.key]
    have happ : pre ++ e :: post = pre ++ [e] ++ post := by simp
    simp only [validateFrom, bind_eq_ok, validateEntry_ok, exists_const, hnext, pairwise_snoc hs,
      lookup_seen hs, List.forall_mem_cons]
    constructor
    · rintro ⟨⟨he, hsort, hpar⟩, hrest⟩
      obtain ⟨h1, h2, h3⟩ := (ih hsort).mp hrest
      rw [happ]
      refine ⟨⟨he, h1⟩, h2, fun hsl => ?_, h3⟩
      obtain ⟨d, hd, h⟩ := hpar hsl
      exact ⟨d, by simp [hd], h⟩
    · rintro ⟨⟨he, h1⟩, h2, hpar, h3⟩
      rw [happ] at h2 h3
      have hsort := (List.pairwise_append.mp h2).1
      refine ⟨⟨he, hsort, fun hsl => ?_⟩, (ih hsort).mpr ⟨h1, h2, h3⟩⟩
      -- The parent is among the entries before `e`, because it is smaller.
      obtain ⟨d, hd, hp, hk⟩ := hpar hsl
      have hlt : d.path.utf8 < e.path.utf8 := hp ▸ dirName_lt hsl
      rcases List.mem_append.mp hd with hd | hd
      · exact ⟨d, hd, hp, hk⟩
      · rcases List.mem_cons.mp hd with rfl | hd
        · exact absurd hlt (List.lt_irrefl _)
        · have := (List.pairwise_append.mp h2).2.2 e (by simp) d hd
          exact absurd (List.lt_trans hlt this) (List.lt_irrefl _)

/-- The validation accepts exactly the valid manifests. The loop is unrolled from the end, where the
entries seen so far are those of the list. -/
theorem validate_ok {m : Manifest} : m.validate checksum = .ok u ↔ m.Valid checksum := by
  have h := @validateFrom_ok checksum u [] m.entries List.Pairwise.nil
  simp only [validate, ite_throw_bind_eq_ok, not_lt]
  rw [show ([] : List (Path × Kind)) = (([] : List Entry).map Entry.key).reverse from rfl, h]
  exact ⟨fun ⟨h1, h2, h3, h4⟩ => ⟨h1, h2, h3, h4⟩, fun h => ⟨h.count, h.entry, h.sorted, h.parent⟩⟩

/-! ### Entries of a valid manifest -/

/-- There is no entry at a path exactly when no entry has this path. -/
theorem get?_eq_none {m : Manifest} {path : String} :
    m.get? path = none ↔ ∀ e ∈ m.entries, e.path ≠ path := by
  simp [get?, List.find?_eq_none]

/-- What is found at a path is an entry with this path. -/
theorem mem_of_get? {m : Manifest} {path : String} (h : m.get? path = some e) :
    e ∈ m.entries ∧ e.path = path :=
  ⟨List.mem_of_find?_eq_some h, by simpa using List.find?_some h⟩

namespace Valid

variable {m : Manifest} {e e' : Entry} (h : m.Valid checksum)
include h

/-- Two entries with one path are the same. -/
theorem eq_of_path (he : e ∈ m.entries) (he' : e' ∈ m.entries) (hp : e.path = e'.path) :
    e = e' := by
  obtain ⟨i, hi, rfl⟩ := List.getElem_of_mem he
  obtain ⟨j, hj, rfl⟩ := List.getElem_of_mem he'
  have hs := List.pairwise_iff_getElem.mp h.sorted
  rcases Nat.lt_trichotomy i j with hij | rfl | hij
  · exact absurd (hs i j hi hj hij) (by rw [hp]; exact List.lt_irrefl _)
  · rfl
  · exact absurd (hs j i hj hi hij) (by rw [hp]; exact List.lt_irrefl _)

/-- In a valid manifest an entry is the one that is found at its path. -/
theorem get?_eq_some {path : String} : m.get? path = some e ↔ e ∈ m.entries ∧ e.path = path := by
  refine ⟨mem_of_get?, fun ⟨he, hp⟩ => ?_⟩
  cases hg : m.get? path with
  | none => exact absurd hp (get?_eq_none.mp hg e he)
  | some d =>
    obtain ⟨hd, hdp⟩ := mem_of_get? hg
    rw [h.eq_of_path hd he (hdp.trans hp.symm)]

/-- The path of an entry is a clean relative path. -/
theorem clean (he : e ∈ m.entries) : CleanPath e.path.utf8 :=
  cleanPath_of_validate (h.entry e he).path

/-- The path of an entry has bytes. -/
theorem path_ne_nil (he : e ∈ m.entries) : e.path.utf8 ≠ [] := (h.clean he).ne_nil

/-- The path of an entry is not the empty string. -/
theorem path_ne_empty (he : e ∈ m.entries) : e.path ≠ "" := fun hp =>
  h.path_ne_nil he (String.utf8_eq_nil.mpr hp)

/-- Every proper ancestor of an entry is a directory entry. -/
theorem ancestor (he : e ∈ m.entries) {a : Path} (hb : Below e.path.utf8 a)
    (hne : e.path.utf8 ≠ a) : ∃ d ∈ m.entries, d.path.utf8 = a ∧ d.kind = .directory := by
  have hsl := hb.sep_mem hne
  refine SepPath.Below.induction (P := fun p => ∃ d ∈ m.entries, d.path.utf8 = p ∧
    d.kind = .directory) ?_ (hb.dirName hne) (h.parent e he hsl)
  rintro p hp ⟨d, hd, rfl, -⟩
  exact h.parent d hd hp

end Valid

end Manifest
/-- What a manifest has to be, said of the list as a whole. -/
structure Manifest.Specified (checksum : Bool) (m : Manifest) : Prop where
  count : m.entries.length ≤ maxEntries
  path : ∀ e ∈ m.entries, RrSync.validate e.path = .ok ()
  sorted : m.entries.Pairwise fun a b => a.path.utf8 < b.path.utf8
  ancestor : ∀ e ∈ m.entries, ∀ a, Below e.path.utf8 a → e.path.utf8 ≠ a →
    ∃ d ∈ m.entries, d.path.utf8 = a ∧ d.kind = .directory
  reserved : ∀ e ∈ m.entries, (∃ c ∈ e.path.utf8.splitOn slash, ".rrsync-".utf8 <+: c) →
    e.kind = .guarded
  plain : ∀ e ∈ m.entries, e.kind ≠ .file → e.size = 0 ∧ e.hash = none
  ns : ∀ e ∈ m.entries, e.ns < 1000000000
  size : ∀ e ∈ m.entries, e.kind = .file → e.size ≤ maxFile
  hash : checksum = true → ∀ e ∈ m.entries, e.kind = .file → e.hash.isSome

/-- A component is reserved when it begins with the reserved prefix. -/
theorem any_reserved {p : Path} : (p.splitOn slash).any reserved = true ↔
    ∃ c ∈ p.splitOn slash, ".rrsync-".utf8 <+: c := by
  simp only [List.any_eq_true, reserved, List.isPrefixOf_iff_prefix]

/-- The checks of one entry against the ones before it make the list what it has to be. -/
theorem Manifest.valid_iff_specified {checksum : Bool} {m : Manifest} :
    m.Valid checksum ↔ m.Specified checksum := by
  constructor
  · intro h
    refine ⟨h.count, fun e he => (h.entry e he).path, h.sorted,
      fun e he a hb hne => h.ancestor he hb hne, fun e he hr => ?_, fun e he => (h.entry e he).plain,
      fun e he => (h.entry e he).ns, fun e he => (h.entry e he).size,
      fun hc e he hk => (h.entry e he).hash hk hc⟩
    exact (h.entry e he).reserved (any_reserved.mpr hr)
  · intro h
    refine ⟨h.count, fun e he => ?_, h.sorted, fun e he hslash => ?_⟩
    · exact ⟨h.path e he, fun hr => h.reserved e he (any_reserved.mp hr), h.plain e he, h.ns e he,
        h.size e he, fun hk hc => h.hash hc e he hk⟩
    · have hne : e.path.utf8 ≠ [] := List.ne_nil_of_mem hslash
      exact h.ancestor e he _ (SepPath.below_dirName hslash) (SepPath.dirName_ne hne).symm

/-- `validate` accepts exactly these manifests, and none of them has an entry below one that is
no directory. -/
theorem validate_accepts (m : Manifest) (checksum : Bool) :
    (m.validate checksum = .ok () ↔ m.Specified checksum) ∧
    (m.validate checksum = .ok () → ∀ e ∈ m.entries, ∀ d ∈ m.entries,
      Below e.path.utf8 d.path.utf8 → e ≠ d → d.kind = .directory) := by
  have hiff : m.validate checksum = .ok () ↔ m.Specified checksum :=
    Manifest.validate_ok.trans Manifest.valid_iff_specified
  refine ⟨hiff, fun hok e he d hd hb hne => ?_⟩
  have hv : m.Valid checksum := Manifest.validate_ok.mp hok
  have hpath : e.path.utf8 ≠ d.path.utf8 := fun h =>
    hne (hv.eq_of_path he hd (String.utf8_injective h))
  obtain ⟨a, ha, hap, hk⟩ := (hiff.mp hok).ancestor e he _ hb hpath
  rw [← hv.eq_of_path ha hd (String.utf8_injective hap)]
  exact hk

end RrSync

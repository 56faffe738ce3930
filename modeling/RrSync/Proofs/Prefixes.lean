import RrSync.Proofs.Accepted
import RrSync.Proofs.Confined
import RrSync.Proofs.Manifest
import RrSync.Proofs.EngineV2

/-!
# `RrSync.Proofs.Prefixes`: the paths of the two engines below a session

A session has a path of its own, and its entries lie below it. Version 1 checks the path of
the session, the path of the entry, and the length of the two together (`Root::full`). Version
2 joins them and checks the joined path (`chunks::scope`), so there the components count
together too: `open_accepts_iff`. What else can give `InvalidPath` when a store is opened lies in
the cache directory and not in the path, and `Tree.Plain` keeps it out.
-/

set_option autoImplicit false

namespace RrSync

open Lib

/-! ### The components of joined paths -/

/-- The number of components of a path. -/
def levels (path : String) : Nat := (path.utf8.splitOn slash).length

/-- What `validate` accepts, read component by component. -/
theorem validate_iff {path : String} : validate path = .ok () ↔ path.utf8 ≠ [] ∧
    path.utf8.length ≤ maxPath ∧ 0 ∉ path.utf8 ∧ levels path ≤ 128 ∧
      ∀ c ∈ path.utf8.splitOn slash, badComponent c = false := by
  simp only [validate, levels, ite_throw_eq_ok, Bool.or_eq_true, not_or, decide_eq_true_eq,
    Nat.not_lt, List.isEmpty_iff, List.contains_iff_mem, List.any_eq_true, not_exists, not_and,
    Bool.not_eq_true, and_assoc, ne_eq]
  constructor
  · rintro ⟨h1, h2, h3, h4, h5, -⟩
    exact ⟨h1, h2, h3, h4, h5⟩
  · rintro ⟨h1, h2, h3, h4, h5⟩
    exact ⟨h1, h2, h3, h4, h5, rfl⟩

/-- The name of an entry below the path of a session. -/
def scopePath (pre path : String) : String := if pre = "" then path else pre ++ "/" ++ path

/-- Without a prefix a path stays as it is. -/
theorem scopePath_empty {path : String} : scopePath "" path = path := if_pos rfl

/-- The bytes of a path behind a prefix. -/
theorem utf8_scopePath {pre path : String} (h : pre ≠ "") :
    (scopePath pre path).utf8 = pre.utf8 ++ slash :: path.utf8 := by
  unfold scopePath
  rw [if_neg h, String.utf8_append, String.utf8_append, List.append_assoc]
  rfl

/-- The components of the prefix come first, then those of the path. -/
theorem splitOn_scopePath {pre path : String} (h : pre ≠ "") :
    (scopePath pre path).utf8.splitOn slash = pre.utf8.splitOn slash ++ path.utf8.splitOn slash := by
  rw [utf8_scopePath h, List.splitOn_append_cons_self]

/-- Valid paths make a valid path together when it is neither too long nor too deep. -/
theorem validate_scopePath {pre path : String} (hpre : pre = "" ∨ validate pre = .ok ())
    (hpath : validate path = .ok ()) (hlen : (scopePath pre path).utf8.length ≤ maxPath) :
    validate (scopePath pre path) = .ok () ↔ levels (scopePath pre path) ≤ 128 := by
  constructor
  · intro h
    exact (validate_iff.mp h).2.2.2.1
  · intro hlevels
    by_cases h0 : pre = ""
    · rwa [h0, scopePath_empty]
    -- No component is new, and the slash between them is no NUL.
    have h1 := validate_iff.mp (hpre.resolve_left h0)
    have h2 := validate_iff.mp hpath
    refine validate_iff.mpr ⟨?_, hlen, ?_, hlevels, ?_⟩
    · rw [utf8_scopePath h0]
      simp
    · rw [utf8_scopePath h0]
      simp only [List.mem_append, List.mem_cons, not_or]
      exact ⟨h1.2.2.1, by decide, h2.2.2.1⟩
    · rw [splitOn_scopePath h0]
      intro c hc
      rcases List.mem_append.mp hc with hc | hc
      · exact h1.2.2.2.2 c hc
      · exact h2.2.2.2.2 c hc

/-- A prefix that `subtree` accepts is empty or passes `validate`. -/
theorem Root.subtree_validate {root r : Root} {pre : String} (h : root.subtree pre = .ok r) :
    pre = "" ∨ validate pre = .ok () := by
  unfold Root.subtree at h
  by_cases hp : pre = ""
  · exact .inl hp
  · rw [if_pos hp] at h
    obtain ⟨u, hu, -⟩ := bind_eq_ok.mp h
    exact .inr hu

/-- The path below the session is part of the path that `Root::full` bounds. -/
theorem Root.length_scopePath {root r : Root} {pre path p : String} (hs : root.subtree pre = .ok r)
    (hf : r.full path = .ok p) (hpath : path ≠ "") : (scopePath pre path).utf8.length ≤ maxPath := by
  have hne : path.utf8 ≠ [] := mt String.utf8_eq_nil.mp hpath
  have hlen := (r.full_ok.mp hf).2.1
  have hbase : r.base.utf8 = root.pathOf pre := Root.subtree_base hs
  unfold Root.pathOf at hlen hbase
  rw [hbase] at hlen
  by_cases h0 : pre = ""
  · rw [h0, scopePath_empty]
    by_cases hr : join root.base.utf8 pre.utf8 = []
    · rwa [hr, join, SepPath.join_nil_left] at hlen
    · rw [join, SepPath.join_of_ne hr hne] at hlen
      simp only [List.length_append, List.length_cons] at hlen
      omega
  · have hpre : pre.utf8 ≠ [] := mt String.utf8_eq_nil.mp h0
    rw [utf8_scopePath h0]
    -- The path on the disk has the root in front of it, so it is not shorter than the path of the
    -- request.
    have hle : pre.utf8.length ≤ (join root.base.utf8 pre.utf8).length := by
      by_cases hr : root.base.utf8 = []
      · rw [hr, join, SepPath.join_nil_left]
      · rw [join, SepPath.join_of_ne hr hpre]
        simp only [List.length_append, List.length_cons]
        omega
    have hj : join root.base.utf8 pre.utf8 ≠ [] := by
      intro hnil
      rw [hnil] at hle
      exact hpre (List.length_eq_zero_iff.mp (by simpa using hle))
    rw [join, SepPath.join_of_ne hj hne] at hlen
    simp only [List.length_append, List.length_cons] at hlen ⊢
    omega

/-! ### Opening a store for a path -/

section
variable [Sha256]

/-- `Cache::open` after the path has been hashed into a scope. -/
def V2.Cache.openStore (cache : Cache) (d : Description) (hash : Hash) : FsM Store :=
  match cache.limits with
  | some limits => Store.openLimited Root.opened hash d limits
  | none => Store.openShared Root.opened hash d

variable {cache : Cache} {peer : Id} {push : Bool} {pre : String} {e : Entry} {d : Description}

/-- `Cache::open` computes the scope of the joined path and opens the store for it. -/
theorem open_eq : V2.Cache.open cache peer push pre e d
    = (liftM (scope peer push cache.rootId (scopePath pre e.path)) >>= V2.Cache.openStore cache d)
  := rfl

/-- The accepted path is only hashed. -/
theorem open_of_scope {hash : Hash}
    (h : scope peer push cache.rootId (scopePath pre e.path) = .ok hash) :
    V2.Cache.open cache peer push pre e d = V2.Cache.openStore cache d hash := by
  rw [open_eq, h]
  rfl

/-- A refused path is refused before anything is opened. -/
theorem open_refused (h : validate (scopePath pre e.path) ≠ .ok ()) :
    V2.Cache.open cache peer push pre e d
      = .done (.error (.invalidPath (scopePath pre e.path))) := by
  have hscope : scope peer push cache.rootId (scopePath pre e.path)
      = .error (.invalidPath (scopePath pre e.path)) := by
    unfold scope
    cases hv : validate (scopePath pre e.path) with
    | ok u => exact absurd hv h
    | error err =>
      rw [validate_error hv]
      rfl
  rw [open_eq, hscope]
  rfl

/-- A root that is accepted with one path is accepted with every valid path. -/
theorem scope_of_accepted {path path' : String} {hash : Hash}
    (h : scope peer push cache.rootId path = .ok hash) (hv : validate path' = .ok ()) :
    ∃ hash', scope peer push cache.rootId path' = .ok hash' := by
  unfold scope at h ⊢
  rw [hv]
  obtain ⟨-, -, h⟩ := bind_eq_ok.mp h
  obtain ⟨hroot, -⟩ := ite_throw_bind_eq_ok.mp h
  exact ⟨_, ite_throw_bind_eq_ok.mpr ⟨hroot, rfl⟩⟩

/-- The chunk store opens on a plain cache directory whatever the scope is. Calls may fail, and
quotas and locks may stop it, but none of this is `InvalidPath`. -/
theorem accepts_openStore {hash : Hash} :
    Accepts (fun _ => True) (V2.Cache.openStore cache d hash) := by
  unfold V2.Cache.openStore
  cases cache.limits with
  | some limits => exact Store.accepts_openLimited
  | none => exact Store.accepts_openShared

/-- Which paths of version 1 the second engine takes. `Root::subtree` accepts the path of the
session and `Root::full` the entry below it, so version 1 can stage and install the file. On
every disk whose cache directory holds nothing strange, `Cache::open` of version 2 gives no
`InvalidPath` exactly when the components of both paths together are at most 128. -/
theorem open_accepts_iff {m : Manifest} {checksum : Bool} {root r : Root} {p path : String}
    {hash : Hash} (hm : m.validate checksum = .ok ()) (he : e ∈ m.entries)
    (hs : root.subtree pre = .ok r) (hf : r.full e.path = .ok p)
    (hroot : scope peer push cache.rootId path = .ok hash) (d : Description) :
    (∀ w : Disk, w.tree.Plain →
      ∀ text, ((V2.Cache.open cache peer push pre e d).run exec w).1 ≠ .error (.invalidPath text))
    ↔ levels (scopePath pre e.path) ≤ 128 := by
  have hpath : validate e.path = .ok () := ((Manifest.validate_ok.mp hm).entry e he).path
  have hne : e.path ≠ "" := by
    intro h
    rw [h] at hpath
    exact absurd hpath (by decide)
  have hv := validate_scopePath (Root.subtree_validate hs) hpath (Root.length_scopePath hs hf hne)
  constructor
  · -- The refusal does not depend on the disk, so the empty one shows it.
    intro h
    by_contra hlevels
    have hrun := h Disk.empty plain_empty (scopePath pre e.path)
    rw [open_refused (mt hv.mp hlevels)] at hrun
    exact hrun rfl
  · intro hlevels w hw text
    -- The scope is computed, and what follows refuses no path.
    obtain ⟨hash', hscope⟩ := scope_of_accepted hroot (hv.mpr hlevels)
    rw [open_of_scope hscope]
    exact (accepts_openStore w hw).2.ne text

end

/-- An entry in the root of a session. -/
def flatEntry : Entry := ⟨"b", .file, 1, 0, 0, none⟩

/-- A path of 128 components. -/
def deepPath : String := "/".intercalate (List.replicate 128 "a")

/-- One byte in one chunk is a geometry that the descriptions allow. -/
theorem flat_geometry : Geometry 1 4096 := by decide

/-- A description with this geometry. -/
def flatDescription : Description := ⟨1, 4096, emptyHash, [], flat_geometry⟩

/-- A session may start at a path of 128 components, and the file below it has a path on the
disk. -/
theorem subtree_deepPath : ∃ r p, Root.opened.subtree deepPath = .ok r ∧ r.full "b" = .ok p := by
  have h : (Root.opened.subtree deepPath >>= fun r => r.full "b").toOption
      = some (scopePath deepPath "b") := by decide +kernel
  cases hx : Root.opened.subtree deepPath >>= fun r => r.full "b" with
  | ok p =>
    obtain ⟨r, hr, hp⟩ := bind_eq_ok.mp hx
    exact ⟨r, p, hr, hp⟩
  | error e =>
    rw [hx] at h
    cases h

/-- The file `b` of a session on the export itself, with quotas, on an empty disk: the store
opens, and so there is no `InvalidPath`. -/
theorem open_accepts_iff_small :
    (((@V2.Cache.open emptySha ⟨"export", some ⟨4096, 2, 60⟩⟩ (Vector.replicate 16 0) true ""
      flatEntry flatDescription).run exec Disk.empty).1.toOption.isSome = true) ∧
    ((@V2.Cache.open emptySha ⟨"export", some ⟨4096, 2, 60⟩⟩ (Vector.replicate 16 0) true ""
      flatEntry flatDescription).run exec Disk.empty).1 ≠ .error (.invalidPath "b") := by
  have hm : (⟨[flatEntry]⟩ : Manifest).validate false = .ok () := by decide +kernel
  have hs : Root.opened.subtree "" = .ok Root.opened := rfl
  have hf : Root.opened.full "b" = .ok "b" := by decide +kernel
  have hroot : @scope emptySha (Vector.replicate 16 0) true "export" "b" = .ok emptyHash := by
    decide +kernel
  have h := (@open_accepts_iff emptySha ⟨"export", some ⟨4096, 2, 60⟩⟩ (Vector.replicate 16 0) true
    "" flatEntry _ _ _ _ _ _ _ hm List.mem_cons_self hs hf hroot flatDescription).mpr
      (by decide +kernel)
  exact ⟨by decide +kernel, h Disk.empty plain_empty "b"⟩

/-- A session on a path of 128 components: the file `b` in it has one component too many. No
call fails on the empty disk, so the refusal is the only thing in the way. -/
theorem open_refuses_deep : ¬ ∀ (m : Manifest) (checksum : Bool) (root r : Root)
    (p path pre : String) (hash : Hash) (cache : Cache) (peer : Id) (push : Bool) (e : Entry)
    (d : Description), m.validate checksum = .ok () → e ∈ m.entries →
      root.subtree pre = .ok r → r.full e.path = .ok p →
      @scope emptySha peer push cache.rootId path = .ok hash →
      ∀ w : Disk, w.tree.Plain → ∀ text,
        ((@V2.Cache.open emptySha cache peer push pre e d).run exec w).1
          ≠ .error (.invalidPath text) := by
  intro h
  obtain ⟨r, p, hs, hf⟩ := subtree_deepPath
  have hm : (⟨[flatEntry]⟩ : Manifest).validate false = .ok () := by decide +kernel
  have hroot : @scope emptySha (Vector.replicate 16 0) true "export" "b" = .ok emptyHash := by
    decide +kernel
  -- The joined path has one component more than is allowed.
  have hbad : validate (scopePath deepPath flatEntry.path) ≠ .ok () := by
    intro hv
    have hlevels := (validate_iff.mp hv).2.2.2.1
    exact absurd hlevels (by decide +kernel)
  have hrun := h _ _ _ _ _ _ _ _ ⟨"export", none⟩ (Vector.replicate 16 0) true flatEntry
    flatDescription hm List.mem_cons_self hs hf hroot Disk.empty plain_empty
    (scopePath deepPath flatEntry.path)
  rw [@open_refused emptySha _ _ _ _ _ _ hbad] at hrun
  exact hrun rfl

end RrSync

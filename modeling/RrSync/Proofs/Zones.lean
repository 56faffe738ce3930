import RrSync.Spec.Goal

/-!
# `RrSync.Proofs.Zones`: how the paths of a plan lie to each other

The steps of a run do not get in each other's way, because the paths they are about lie in
separate zones. A type conflict is about the destination objects at and below its entry, and
the zones of two conflicts are disjoint (`clash_unique`). A removal is in no such zone, and
its path is none of the source. From this follows what `goal` is at the paths of each kind.
-/

set_option autoImplicit false

namespace RrSync

open Lib

section
variable {source destination : Manifest} {options : Options} {p : Plan} {root : Root}
  {e c x : Entry}

/-- The test for paths below each other. -/
theorem below_iff {a b : String} : below a b = true ↔ Below a.utf8 b.utf8 := decide_eq_true_iff

/-- A directory that is made is not left alone. -/
theorem live_of_makes {g : List String} (h : makes g e = true) :
    live g e = true ∧ e.kind = .directory := by
  simpa [makes] using h

/-- A file that is sent is not left alone. -/
theorem live_of_transfers {g : List String} (h : transfers destination options g e = true) :
    live g e = true ∧ e.kind = .file := by
  simp only [transfers, Bool.and_eq_true, decide_eq_true_eq] at h
  exact h.1

/-- An entry with a conflict is not left alone. -/
theorem live_of_clashes {g : List String} (h : clashes destination g e = true) :
    live g e = true := by
  simp only [clashes, Bool.and_eq_true] at h
  exact h.1

/-- What is not left alone is at or below no guarded path. -/
theorem not_below_of_live (h : live (guardedPaths source destination) e = true) {s : String}
    (hs : s ∈ guardedPaths source destination) : ¬ Below e.path.utf8 s.utf8 := by
  intro hb
  have : (guardedPaths source destination).any (fun s => below e.path s) = true :=
    List.any_eq_true.mpr ⟨s, hs, below_iff.mpr hb⟩
  rw [live, this] at h
  cases h

/-- So it is not guarded itself. -/
theorem kind_of_live (he : e ∈ source.entries)
    (h : live (guardedPaths source destination) e = true) : e.kind ≠ .guarded := fun hk =>
  not_below_of_live h (mem_guardedPaths.mpr ⟨e, Or.inl he, hk, rfl⟩) SepPath.Below.refl

/-- An entry above a live one is live. -/
theorem live_of_below (h : live (guardedPaths source destination) e = true)
    (hb : Below e.path.utf8 c.path.utf8) : live (guardedPaths source destination) c = true := by
  unfold live
  rw [Bool.not_eq_true', List.any_eq_false]
  intro s hs hbs
  exact not_below_of_live h hs (hb.trans (below_iff.mp hbs))

variable (hp : plan source destination options = .ok p)
include hp

/-- The old entry of a type conflict: one of the two is a file and the other a directory. -/
theorem old_of_clashes (he : e ∈ source.entries)
    (hc : clashes destination (guardedPaths source destination) e = true) :
    ∃ old ∈ destination.entries, destination.get? e.path = some old ∧ old.path = e.path ∧
      (e.kind = .file ∧ old.kind = .directory ∨ e.kind = .directory ∧ old.kind = .file) := by
  obtain ⟨-, -, hall, -⟩ := plan_ok.mp hp
  have hlive := live_of_clashes hc
  have hk := kind_of_live he hlive
  have hall' := (hall e he hc).2
  simp only [clashes, Bool.and_eq_true, Option.any_eq_true] at hc
  obtain ⟨-, old, hold, hne⟩ := hc
  obtain ⟨hmem, hpath⟩ := Manifest.mem_of_get? hold
  -- A guarded object would have been in the way of the plan.
  have hok : old.kind ≠ .guarded := by
    intro hg
    rw [List.any_eq_false] at hall'
    refine hall' old.path (mem_guardedPaths.mpr ⟨old, Or.inr hmem, hg, rfl⟩) ?_
    rw [hpath]
    exact below_iff.mpr SepPath.Below.refl
  refine ⟨old, hmem, hold, hpath, ?_⟩
  have hne' : old.kind ≠ e.kind := of_decide_eq_true hne
  cases h1 : e.kind <;> cases h2 : old.kind <;> simp_all

/-- No destination object in the zone of a conflict is protected. -/
theorem kind_of_clash_zone (he : e ∈ source.entries)
    (hc : clashes destination (guardedPaths source destination) e = true)
    (hx : x ∈ destination.entries) (hb : Below x.path.utf8 e.path.utf8) : x.kind ≠ .guarded := by
  obtain ⟨-, -, hall, -⟩ := plan_ok.mp hp
  intro hk
  have h1 := (hall e he hc).2
  rw [List.any_eq_false] at h1
  exact h1 x.path (mem_guardedPaths.mpr ⟨x, Or.inr hx, hk, rfl⟩) (below_iff.mpr hb)

/-- A source entry in the zone of a conflict at whose path the destination has something is
the entry of the conflict. -/
theorem eq_of_clash_zone (he : e ∈ source.entries)
    (hc : clashes destination (guardedPaths source destination) e = true)
    (hx : x ∈ destination.entries) (hxe : Below x.path.utf8 e.path.utf8)
    (hcs : c ∈ source.entries) (hxc : Below x.path.utf8 c.path.utf8)
    (hce : Below c.path.utf8 e.path.utf8) : c = e := by
  obtain ⟨hsrc, hdst, -, -⟩ := plan_ok.mp hp
  by_cases hpath : c.path = e.path
  · exact hsrc.eq_of_path hcs he hpath
  have hne : c.path.utf8 ≠ e.path.utf8 := fun h => hpath (String.utf8_injective h)
  -- `e` is above `c` in the source and above `x` in the destination: both have a directory.
  obtain ⟨d, hd, hdp, hdk⟩ := hsrc.ancestor hcs hce hne
  obtain rfl := hsrc.eq_of_path hd he (String.utf8_injective hdp)
  have hxne : x.path.utf8 ≠ d.path.utf8 := fun h => by
    rw [h] at hxc
    exact hne (hce.antisymm hxc)
  obtain ⟨y, hy, hyp, hyk⟩ := hdst.ancestor hx hxe hxne
  obtain ⟨old, hold, -, hop, hkinds⟩ := old_of_clashes hp he hc
  obtain rfl := hdst.eq_of_path hy hold (String.utf8_injective (hyp.trans (by rw [hop])))
  rcases hkinds with ⟨h1, -⟩ | ⟨-, h2⟩
  · rw [hdk] at h1
    cases h1
  · rw [hyk] at h2
    cases h2

/-- The zones of two conflicts have no destination object in common. -/
theorem clash_unique (he : e ∈ source.entries)
    (hce : clashes destination (guardedPaths source destination) e = true)
    (hc : c ∈ source.entries)
    (hcc : clashes destination (guardedPaths source destination) c = true)
    (hx : x ∈ destination.entries) (hxe : Below x.path.utf8 e.path.utf8)
    (hxc : Below x.path.utf8 c.path.utf8) : c = e := by
  rcases hxc.comparable hxe with h | h
  · exact eq_of_clash_zone hp he hce hx hxe hc hxc h
  · exact (eq_of_clash_zone hp hc hcc hx hxc he hxe h).symm

omit hp in
/-- What the removal loop drops is none of the source, unrelated to protected entries, and in
no conflict. -/
theorem removes_iff : removes source destination x = true ↔
    source.get? x.path = none ∧
    (∀ s ∈ guardedPaths source destination, ¬ Below x.path.utf8 s.utf8 ∧
      ¬ Below s.utf8 x.path.utf8) ∧
    ∀ c ∈ source.entries, clashes destination (guardedPaths source destination) c = true →
      ¬ Below x.path.utf8 c.path.utf8 := by
  simp only [removes, Bool.and_eq_true, Option.isNone_iff_eq_none, Bool.not_eq_true',
    List.any_eq_false, Bool.or_eq_true, not_or, below_iff, not_and, and_assoc]

omit hp in
/-- An entry of the destination goes away as a removal, or with a conflict above it. -/
theorem dropsEntry_iff : dropsEntry source destination options x = true ↔
    (options.delete = true ∧ removes source destination x = true) ∨
    ∃ c ∈ source.entries, clashes destination (guardedPaths source destination) c = true ∧
      Below x.path.utf8 c.path.utf8 := by
  simp only [dropsEntry, Bool.or_eq_true, Bool.and_eq_true, List.any_eq_true, below_iff]

end

/-! ### The goal at the paths of the plan -/

section
variable {source destination : Manifest} {options : Options} {root : Root}
  {contents : Entry → Bytes} {v : View} {e x : Entry}

/-- The root of a session is below no path of an entry. -/
theorem not_base {path : String} (h : path ≠ "") :
    ¬ (root.pathOf path ≠ [] ∧ Below (root.pathOf "") (root.pathOf path)) := fun hb =>
  not_below_base h hb.1 hb.2 SepPath.Below.refl

/-- The entry with a path is found by its place below the root. -/
theorem Manifest.Valid.find_pathOf {m : Manifest} {cs : Bool} (hm : m.Valid cs)
    (he : e ∈ m.entries) :
    m.entries.find? (fun e' => root.pathOf e'.path = root.pathOf e.path) = some e := by
  cases hf : m.entries.find? fun e' => root.pathOf e'.path = root.pathOf e.path with
  | none => simpa using List.find?_eq_none.mp hf e he
  | some d =>
    have hd := List.find?_some hf
    rw [decide_eq_true_eq] at hd
    rw [hm.eq_of_path (List.mem_of_find?_eq_some hf) he (pathOf_injective hd)]

/-- Nothing is at the goal where an entry goes away and none comes. -/
theorem goal_drops (root : Root) (contents : Entry → Bytes) (v : View)
    (hd : destination.Valid options.checksum) (hx : x ∈ destination.entries)
    (hsrc : source.get? x.path = none)
    (hdrop : dropsEntry source destination options x = true) :
    goal root source destination options contents v (root.pathOf x.path) = none := by
  have hfind : source.entries.find? (fun e => root.pathOf e.path = root.pathOf x.path) = none := by
    rw [List.find?_eq_none]
    intro e he h
    rw [decide_eq_true_eq] at h
    exact Manifest.get?_eq_none.mp hsrc e he (pathOf_injective h)
  unfold goal
  rw [if_neg (not_base (hd.path_ne_empty hx)), hfind]
  refine if_pos (List.any_eq_true.mpr ⟨x, hx, ?_⟩)
  simp [hdrop]

/-- The goal leaves every path alone that the plan says nothing about. -/
theorem goal_else {q : Path} (hbase : ¬ (q ≠ [] ∧ Below (root.pathOf "") q))
    (hsrc : ∀ e ∈ source.entries, root.pathOf e.path ≠ q)
    (hdst : ∀ x ∈ destination.entries, root.pathOf x.path = q →
      dropsEntry source destination options x = false) :
    goal root source destination options contents v q = v q := by
  have hfind : source.entries.find? (fun e => root.pathOf e.path = q) = none := by
    rw [List.find?_eq_none]
    intro e he h
    exact hsrc e he (by simpa using h)
  unfold goal
  rw [if_neg hbase, hfind]
  refine if_neg ?_
  rw [List.any_eq_true]
  rintro ⟨x, hx, h⟩
  simp only [Bool.and_eq_true, decide_eq_true_eq] at h
  rw [hdst x hx h.1] at h
  cases h.2

end

section
variable [Sha256] {source destination : Manifest} {options : Options} {p : Plan} {root : Root}
  {contents : Entry → Bytes} {t : Tree} {e x : Entry}

/-- What a run starts from: a plan, a tree that the destination manifest describes, paths
that the operations accept, and the bytes of the files that are transferred. -/
structure Start (root : Root) (source destination : Manifest) (options : Options) (p : Plan)
    (contents : Entry → Bytes) (t : Tree) : Prop where
  plan : plan source destination options = .ok p
  mirrors : Mirrors options.checksum root destination t
  clear : root.Clear t
  base : root.base.utf8.length ≤ maxPath
  takesMade : ∀ e ∈ source.entries, makes (guardedPaths source destination) e = true →
    root.Takes e.path
  takesFile : ∀ e ∈ source.entries,
    transfers destination options (guardedPaths source destination) e = true → root.Takes e.path
  takesDropped : ∀ x ∈ destination.entries, dropsEntry source destination options x = true →
    root.Takes x.path
  bytes : ∀ e ∈ source.entries,
    transfers destination options (guardedPaths source destination) e = true →
    (contents e).length = e.size ∧ ∀ h, e.hash = some h → h = digest (contents e)

variable (hs : Start root source destination options p contents t) {v : View}
include hs

/-- The manifest of the source is valid. -/
theorem Start.source_valid : source.Valid options.checksum := (plan_ok.mp hs.plan).1

/-- So is that of the destination. -/
theorem Start.destination_valid : destination.Valid options.checksum := (plan_ok.mp hs.plan).2.1

/-- A directory is at the goal where the plan makes one. -/
theorem goal_makes (he : e ∈ source.entries)
    (hm : makes (guardedPaths source destination) e = true) :
    goal root source destination options contents v (root.pathOf e.path) = some Core.dir := by
  unfold goal
  rw [if_neg (not_base (hs.source_valid.path_ne_empty he)), hs.source_valid.find_pathOf he]
  exact if_pos hm

/-- The file of the source is at the goal where the plan sends one. -/
theorem goal_transfers (he : e ∈ source.entries)
    (ht : transfers destination options (guardedPaths source destination) e = true) :
    goal root source destination options contents v (root.pathOf e.path)
      = some (Core.file (contents e) e.time) := by
  have hm : makes (guardedPaths source destination) e ≠ true := fun hm => by
    have h1 := (live_of_makes hm).2
    rw [(live_of_transfers ht).2] at h1
    cases h1
  unfold goal
  rw [if_neg (not_base (hs.source_valid.path_ne_empty he)), hs.source_valid.find_pathOf he]
  exact (if_neg hm).trans (if_pos ht)

/-- The goal leaves the source entries alone that the plan neither makes nor transfers. -/
theorem goal_same (he : e ∈ source.entries)
    (hm : makes (guardedPaths source destination) e = false)
    (ht : transfers destination options (guardedPaths source destination) e = false) :
    goal root source destination options contents v (root.pathOf e.path)
      = v (root.pathOf e.path) := by
  unfold goal
  rw [if_neg (not_base (hs.source_valid.path_ne_empty he)), hs.source_valid.find_pathOf he]
  simp only [hm, ht, Bool.false_eq_true, if_false]

end

end RrSync

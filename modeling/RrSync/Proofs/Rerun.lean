import RrSync.Proofs.Run

/-!
# `RrSync.Proofs.Rerun`: planning again after a cut

A run is cut while its view is anywhere on the way to the goal, and the destination is
planned anew from a manifest of what is there then (`Start.Cut`). The second plan protects
the same paths, has no conflict and no file that the first did not have, and leads to the
same goal (`Cut.goal_eq`). Every object it meets is one of the start or one that the first
run has put there (`Cut.origin`).
-/

set_option autoImplicit false

namespace RrSync

open Lib

/-! ### What the goal puts somewhere -/

section
variable {root : Root} {source destination : Manifest} {options : Options}
  {contents : Entry → Bytes} {v : View} {q : Path} {c : Core}

/-- What the goal has at a path was there, or is a directory or a file of the plan. -/
theorem goal_cases (h : goal root source destination options contents v q = some c) :
    v q = some c ∨ (q ≠ [] ∧ Below (root.pathOf "") q) ∨
    (∃ e ∈ source.entries, makes (guardedPaths source destination) e = true ∧
      root.pathOf e.path = q ∧ c = Core.dir) ∨
    ∃ e ∈ source.entries,
      transfers destination options (guardedPaths source destination) e = true ∧
      root.pathOf e.path = q ∧ c = Core.file (contents e) e.time := by
  unfold goal at h
  -- The root and its parents come first, then the entries of the source, then what is dropped.
  split at h
  · next hb => exact Or.inr (Or.inl hb)
  · split at h
    · next e he =>
      have hq : root.pathOf e.path = q := by simpa using List.find?_some he
      have hmem := List.mem_of_find?_eq_some he
      split at h
      · next hm => exact Or.inr (Or.inr (Or.inl ⟨e, hmem, hm, hq, (Option.some.inj h).symm⟩))
      · split at h
        · next ht => exact Or.inr (Or.inr (Or.inr ⟨e, hmem, ht, hq, (Option.some.inj h).symm⟩))
        · exact Or.inl h
    · split at h
      · cases h
      · exact Or.inl h

end

/-- Whether an entry is live depends only on which paths are guarded. -/
theorem live_congr {g g' : List String} (h : ∀ s, s ∈ g' ↔ s ∈ g) (e : Entry) :
    live g' e = live g e := by
  unfold live
  congr 1
  rw [Bool.eq_iff_iff, List.any_eq_true, List.any_eq_true]
  exact exists_congr fun s => and_congr_left fun _ => h s

/-- The kind of an object depends on its type, and on its path for the reserved names. -/
theorem kindOf_congr {path : String} {m m' : Metadata} (h : m.type = m'.type) :
    kindOf path m = kindOf path m' := by
  unfold kindOf Metadata.isFile Metadata.isDir
  rw [h]

/-- Every proper ancestor of an entry has a name that is not reserved. -/
theorem Manifest.Valid.visible' {m : Manifest} {checksum : Bool} {e : Entry}
    (hm : m.Valid checksum) (he : e ∈ m.entries) : Visible e.path.utf8 := by
  intro a hb hne
  obtain ⟨d, hd, rfl, hk⟩ := hm.ancestor he hb (Ne.symm hne)
  exact hm.unreserved hd (by rw [hk]; simp) SepPath.Below.refl

section
variable [Sha256] {checksum : Bool} {x y : Entry} {n n' : Node}

/-- Two descriptions of one object at one path agree. -/
theorem Entry.Describes.same (hx : x.Describes checksum n) (hy : y.Describes checksum n')
    (hpath : y.path = x.path) (hcore : n'.core = n.core) : y.kind = x.kind ∧ y.size = x.size ∧
      (x.kind = .file → y.mtime = x.mtime ∧ y.ns = x.ns ∧ (checksum = true → y.hash = x.hash)) := by
  have hbody : n'.body = n.body := (Prod.mk.inj hcore).1
  have hkind : y.kind = x.kind := by
    rw [hx.kind, hy.kind, hpath]
    exact kindOf_congr (congrArg Body.type hbody)
  refine ⟨hkind, by rw [hx.size, hy.size, hkind, hbody], fun hk => ?_⟩
  have htime : n'.mtime = n.mtime := by
    obtain ⟨data, -, hb, -⟩ := hx.file hk
    have := (Prod.mk.inj hcore).2
    rw [if_neg (by rw [hbody, hb]; simp), if_neg (by rw [hb]; simp)] at this
    exact Option.some.inj this
  refine ⟨by rw [hx.mtime, hy.mtime, htime], by rw [hx.ns, hy.ns, htime], fun hc => ?_⟩
  rw [hx.hash hk hc, hy.hash (hkind.trans hk) hc, hbody]

end

/-! ### The second manifest -/

section
variable [Sha256] {root : Root} {source destination : Manifest} {options : Options} {p : Plan}
  {contents : Entry → Bytes} {t t' : Tree} {D' : Manifest} {e x y : Entry} {q : Path}

/-- The tree `t'` that a cut run has left, and the manifest of it. -/
structure Start.Cut (hs : Start root source destination options p contents t) (t' : Tree)
    (D' : Manifest) : Prop where
  reach : hs.Before ⟨p.directories, p.files, p.removals⟩ t'.view
  valid : D'.Valid options.checksum
  mirrors : Mirrors options.checksum root D' t'

variable {hs : Start root source destination options p contents t} (hc : hs.Cut t' D')
include hc

/-- What the second manifest lists is on the disk and described by its entry. -/
theorem Start.Cut.described (hy : y ∈ D'.entries) :
    ∃ n, t'.get (root.pathOf y.path) = some n ∧ t'.view (root.pathOf y.path) = some n.core ∧
      y.Describes options.checksum n := by
  obtain ⟨n, hn, hd⟩ := hc.mirrors.entry y hy
  exact ⟨n, hn, by simp [Tree.view, hn], hd⟩

omit hc in
/-- The time of an entry is set as it is listed. -/
theorem Start.time_eq (hs : Start root source destination options p contents t)
    (he : e ∈ source.entries) : e.time.sec = e.mtime ∧ e.time.ns = e.ns := by
  have hns := (hs.source_valid.entry e he).ns
  have htime : e.time = ⟨e.mtime, e.ns, hns⟩ := dif_pos hns
  rw [htime]
  exact ⟨rfl, rfl⟩

omit hc in
/-- The entry of a directory where the run has made one. -/
theorem Start.kind_of_made (hs : Start root source destination options p contents t)
    (he : e ∈ source.entries) (hlive : live (guardedPaths source destination) e = true)
    (hpath : e.path = y.path) {n : Node} (hd : y.Describes options.checksum n)
    (hcore : n.core = Core.dir) : y.kind = .directory := by
  have hres := hs.source_valid.unreserved he (kind_of_live he hlive) SepPath.Below.refl
  rw [hd.kind, ← hpath]
  unfold kindOf
  rw [hres]
  simp [Metadata.isFile, Metadata.isDir, Node.metadata, Node.core_eq_dir.mp hcore, Body.type]

omit hc in
/-- The entry of a file where the run has put one is the same as the source's. -/
theorem Start.same_of_put (hs : Start root source destination options p contents t)
    (he : e ∈ source.entries)
    (ht : transfers destination options (guardedPaths source destination) e = true)
    (hpath : e.path = y.path) {n : Node} (hd : y.Describes options.checksum n)
    (hcore : n.core = Core.file (contents e) e.time) : sameFile options e y = true := by
  obtain ⟨hlive, hk⟩ := live_of_transfers ht
  have hres := hs.source_valid.unreserved he (kind_of_live he hlive) SepPath.Below.refl
  obtain ⟨hlen, hhash⟩ := hs.bytes e he ht
  obtain ⟨hsec, hns⟩ := hs.time_eq he
  have hbody : n.body = .file (contents e) := (Prod.mk.inj hcore).1
  have htime : n.mtime = e.time := by
    have := (Prod.mk.inj hcore).2
    rw [if_neg (by rw [hbody]; simp)] at this
    exact Option.some.inj this
  -- The path is not reserved, so the object is listed as what it is, with the content and the time
  -- of the entry.
  have hkind : y.kind = .file := by
    rw [hd.kind, ← hpath]
    unfold kindOf
    rw [hres]
    simp [Metadata.isFile, Node.metadata, hbody, Body.type]
  have hsize : y.size = e.size := by
    rw [hd.size, if_pos hkind, hbody]
    exact hlen
  have hyhash : options.checksum = true → y.hash = e.hash := by
    intro hcs
    obtain ⟨h, hh⟩ := Option.isSome_iff_exists.mp ((hs.source_valid.entry e he).hash hk hcs)
    rw [hd.hash hkind hcs, hh, hhash h hh, hbody]
    rfl
  simp only [sameFile, hkind, hsize, hd.mtime, hd.ns, htime, hsec, hns, decide_true,
    Bool.true_and, Bool.or_eq_true, Bool.not_eq_true', decide_eq_true_eq]
  by_cases hcs : options.checksum = true
  · exact Or.inr (hyhash hcs)
  · exact Or.inl (by simpa using hcs)

/-- An entry of the second manifest is an entry of the first with the same object, or a
directory or a file that the run has put there. -/
theorem Start.Cut.origin (hy : y ∈ D'.entries) :
    (∃ x ∈ destination.entries, x.path = y.path ∧
      t'.view (root.pathOf y.path) = t.view (root.pathOf y.path) ∧
      y.kind = x.kind ∧ y.size = x.size ∧ (x.kind = .file → y.mtime = x.mtime ∧ y.ns = x.ns ∧
        (options.checksum = true → y.hash = x.hash))) ∨
    (∃ e ∈ source.entries, makes (guardedPaths source destination) e = true ∧ e.path = y.path ∧
      y.kind = .directory) ∨
    ∃ e ∈ source.entries,
      transfers destination options (guardedPaths source destination) e = true ∧
      e.path = y.path ∧ sameFile options e y = true ∧
      t'.view (root.pathOf y.path) = some (Core.file (contents e) e.time) := by
  obtain ⟨n', hn', hv', hd'⟩ := hc.described hy
  have hvis := hc.valid.visible' hy
  have hy0 := hc.valid.path_ne_empty hy
  -- The object was there at the start.
  have hold : t.view (root.pathOf y.path) = some n'.core → ∃ x ∈ destination.entries,
      x.path = y.path ∧ t'.view (root.pathOf y.path) = t.view (root.pathOf y.path) ∧
      y.kind = x.kind ∧ y.size = x.size ∧ (x.kind = .file → y.mtime = x.mtime ∧ y.ns = x.ns ∧
        (options.checksum = true → y.hash = x.hash)) := by
    intro hv
    obtain ⟨n, hn, hcore⟩ := Option.map_eq_some_iff.mp hv
    obtain ⟨x, hx, hxp⟩ := hs.mirrors.object _ n (hc.valid.path_ne_nil hy) hn hvis
    have hpath := String.utf8_injective hxp
    obtain ⟨m, hm, hdx⟩ := hs.mirrors.entry x hx
    rw [hpath] at hm
    obtain rfl := Option.some.inj (hm.symm.trans hn)
    exact ⟨x, hx, hpath, hv'.trans hv.symm, hdx.same hd' hpath.symm hcore.symm⟩
  rcases hc.reach (root.pathOf y.path) with h | ⟨-, h⟩ | ⟨-, h⟩
  · exact Or.inl (hold (h.symm.trans hv'))
  · rcases goal_cases (h.symm.trans hv') with hv | hb | ⟨e, he, hm, hep, hcore⟩ | ⟨e, he, ht, hep, hcore⟩
    · exact Or.inl (hold hv)
    · exact absurd hb (not_base hy0)
    · have hpath := pathOf_injective hep
      exact Or.inr (Or.inl ⟨e, he, hm, hpath,
        hs.kind_of_made he (live_of_makes hm).1 hpath hd' hcore⟩)
    · have hpath := pathOf_injective hep
      exact Or.inr (Or.inr ⟨e, he, ht, hpath, hs.same_of_put he ht hpath hd' hcore, hcore ▸ hv'⟩)
  · rw [hv'] at h
    cases h

/-- Objects that are as they were are in both manifests. -/
theorem Start.Cut.kept (hx : x ∈ destination.entries)
    (h : t'.view (root.pathOf x.path) = t.view (root.pathOf x.path)) :
    ∃ y ∈ D'.entries, y.path = x.path ∧ y.kind = x.kind ∧ y.size = x.size ∧
      (x.kind = .file → y.mtime = x.mtime ∧ y.ns = x.ns ∧
        (options.checksum = true → y.hash = x.hash)) := by
  obtain ⟨n, hn, hv, hd⟩ := hs.described hx
  obtain ⟨n', hn', hcore⟩ := Option.map_eq_some_iff.mp (h.trans hv)
  obtain ⟨y, hy, hyp⟩ := hc.mirrors.object _ n' (hs.destination_valid.path_ne_nil hx) hn'
    (hs.destination_valid.visible' hx)
  have hpath := String.utf8_injective hyp
  obtain ⟨m, hm, hdy⟩ := hc.mirrors.entry y hy
  rw [hpath] at hm
  obtain rfl := Option.some.inj (hm.symm.trans hn')
  exact ⟨y, hy, hpath, hd.same hdy hpath hcore⟩

/-! ### The second plan -/

/-- A protected object of the destination is never on the way of a run. -/
theorem Start.Cut.guarded_kept (hx : x ∈ destination.entries) (hk : x.kind = .guarded) :
    t'.view (root.pathOf x.path) = t.view (root.pathOf x.path) := by
  have hsrc := hs.source_valid
  have hdst := hs.destination_valid
  have hmem : x.path ∈ guardedPaths source destination :=
    mem_guardedPaths.mpr ⟨x, Or.inr hx, hk, rfl⟩
  -- No live entry of the source has the path of a guarded object.
  have hnot : ∀ e ∈ source.entries, live (guardedPaths source destination) e = true →
      root.pathOf e.path ≠ root.pathOf x.path := fun e _ hlive he =>
    not_below_of_live hlive hmem (by rw [pathOf_injective he]; exact SepPath.Below.refl)
  -- So the cut run has not reached it, not by a directory, a file or a removal, and not by a
  -- conflict.
  rcases hc.reach (root.pathOf x.path) with h | ⟨hd, h⟩ | ⟨⟨e, he, hcl, hep⟩, -⟩
  · exact h
  · rcases hd with hb | ⟨i, hi, e, hie, hep⟩ | ⟨i, hi, e, hie, hb⟩ | ⟨z, hz, hzp⟩
    · exact absurd hb (not_base (hdst.path_ne_empty hx))
    · obtain ⟨e', he', hm⟩ := (mem_directories hs.plan).mp hi
      obtain rfl := Option.some.inj (hie.symm.trans he')
      exact absurd hep (hnot e (List.mem_of_getElem? hie) (live_of_makes hm).1)
    · obtain ⟨e', he', ht⟩ := (mem_files hs.plan).mp hi
      obtain rfl := Option.some.inj (hie.symm.trans he')
      have he := List.mem_of_getElem? hie
      obtain ⟨hlive, hek⟩ := live_of_transfers ht
      have hxe := (hdst.below_of_pathOf hx hsrc he).mp hb
      have hcl := clashes_of_below hs.plan hlive hek hx hxe fun heq =>
        hnot e he hlive (by rw [String.utf8_injective heq])
      exact absurd hk (kind_of_clash_zone hs.plan he hcl hx hxe)
    · obtain ⟨hzd, hzk, -⟩ := removal_facts hs.plan hz
      rw [hdst.eq_of_path hzd hx (pathOf_injective hzp)] at hzk
      exact absurd hk hzk
  · exact absurd hep (hnot e he (live_of_clashes hcl))

/-- Both plans protect the same paths. -/
theorem Start.Cut.mem_guardedPaths (s : String) :
    s ∈ guardedPaths source D' ↔ s ∈ guardedPaths source destination := by
  rw [RrSync.mem_guardedPaths, RrSync.mem_guardedPaths]
  constructor
  · rintro ⟨y, hy | hy, hk, rfl⟩
    · exact ⟨y, Or.inl hy, hk, rfl⟩
    · rcases hc.origin hy with ⟨x, hx, hxp, -, hkind, -⟩ | ⟨e, -, -, -, hkind⟩ | ⟨e, -, -, -, hsame, -⟩
      · exact ⟨x, Or.inr hx, hkind.symm.trans hk, hxp⟩
      · rw [hk] at hkind
        cases hkind
      · simp [sameFile, hk] at hsame
  · rintro ⟨x, hx | hx, hk, rfl⟩
    · exact ⟨x, Or.inl hx, hk, rfl⟩
    · obtain ⟨y, hy, hyp, hkind, -⟩ := hc.kept hx (hc.guarded_kept hx hk)
      exact ⟨y, Or.inr hy, hkind.trans hk, hyp⟩

/-- The same entries are live in the second plan. -/
theorem Start.Cut.live_eq (e : Entry) :
    live (guardedPaths source D') e = live (guardedPaths source destination) e :=
  live_congr hc.mem_guardedPaths e

/-- The second plan has to make the same entries. -/
theorem Start.Cut.makes_eq (e : Entry) :
    makes (guardedPaths source D') e = makes (guardedPaths source destination) e := by
  unfold makes
  rw [hc.live_eq]

/-- A conflict of the second plan is one of the first. -/
theorem Start.Cut.clashes (he : e ∈ source.entries)
    (h : clashes D' (guardedPaths source D') e = true) :
    clashes destination (guardedPaths source destination) e = true := by
  have hlive := live_of_clashes h
  simp only [RrSync.clashes, Bool.and_eq_true, Option.any_eq_true, decide_eq_true_eq] at h
  obtain ⟨-, y, hy, hne⟩ := h
  obtain ⟨hyd, hyp⟩ := Manifest.mem_of_get? hy
  rcases hc.origin hyd with ⟨x, hx, hxp, -, hkind, -⟩ | ⟨d, hd, hm, hdp, hkind⟩ | ⟨d, hd, ht, hdp, hsame, -⟩
  · have hget : destination.get? e.path = some x :=
      hs.destination_valid.get?_eq_some.mpr ⟨hx, hxp.trans hyp⟩
    rw [hc.live_eq] at hlive
    simp [RrSync.clashes, hlive, hget, ← hkind, hne]
  · obtain rfl := hs.source_valid.eq_of_path hd he (hdp.trans hyp)
    rw [(live_of_makes hm).2] at hne
    exact absurd hkind hne
  · obtain rfl := hs.source_valid.eq_of_path hd he (hdp.trans hyp)
    rw [(live_of_transfers ht).2] at hne
    simp only [sameFile, Bool.and_eq_true, decide_eq_true_eq] at hsame
    exact absurd hsame.1.1.1.1 hne

/-- A source entry that the first plan neither makes nor transfers stays as it was. -/
theorem Start.Cut.same_kept (he : e ∈ source.entries)
    (hm : makes (guardedPaths source destination) e = false)
    (ht : transfers destination options (guardedPaths source destination) e = false) :
    t'.view (root.pathOf e.path) = t.view (root.pathOf e.path) := by
  rcases hc.reach (root.pathOf e.path) with h | ⟨-, h⟩ | ⟨⟨c, hcm, hcl, hcp⟩, -⟩
  · exact h
  · rw [h, goal_same hs he hm ht]
  · obtain rfl := hs.source_valid.eq_of_path hcm he (pathOf_injective hcp)
    have hlive := live_of_clashes hcl
    cases hk : c.kind with
    | guarded => exact absurd hk (kind_of_live he hlive)
    | directory => simp [makes, hlive, hk] at hm
    | file =>
      rw [transfers_of_clashes hs.plan he hk hcl] at ht
      cases ht

/-- A file of the second plan is one of the first. -/
theorem Start.Cut.transfers (he : e ∈ source.entries)
    (h : transfers D' options (guardedPaths source D') e = true) :
    transfers destination options (guardedPaths source destination) e = true := by
  by_contra hnot
  rw [Bool.not_eq_true] at hnot
  obtain ⟨hlive, hk⟩ := live_of_transfers h
  have hlive' := hlive
  rw [hc.live_eq] at hlive'
  have hm : makes (guardedPaths source destination) e = false := by simp [makes, hk]
  -- The old file is the same as the source's, and it is still there.
  obtain ⟨x, hget, hsame⟩ : ∃ x, destination.get? e.path = some x ∧ sameFile options e x = true := by
    simpa [RrSync.transfers, hlive', hk, Option.any_eq_true] using hnot
  obtain ⟨hx, hxp⟩ := Manifest.mem_of_get? hget
  obtain ⟨y, hy, hyp, hkind, hsize, hfile⟩ := hc.kept hx (by
    rw [hxp]
    exact hc.same_kept he hm hnot)
  have hget' : D'.get? e.path = some y := hc.valid.get?_eq_some.mpr ⟨hy, hyp.trans hxp⟩
  have hxk : x.kind = .file := by
    simp only [sameFile, Bool.and_eq_true, decide_eq_true_eq] at hsame
    exact hsame.1.1.1.1
  obtain ⟨hmt, hns, hhash⟩ := hfile hxk
  have hsame' : sameFile options e y = true := by
    simp only [sameFile, Bool.and_eq_true, Bool.or_eq_true, decide_eq_true_eq, hkind, hsize, hmt,
      hns] at hsame ⊢
    refine ⟨hsame.1, ?_⟩
    by_cases hcs : options.checksum = true
    · rw [hhash hcs]
      exact hsame.2
    · exact Or.inl (by simpa using hcs)
  simp [RrSync.transfers, hget', hsame'] at h

/-- A file of the first plan that the second leaves alone is as in the goal. -/
theorem Start.Cut.transferred (he : e ∈ source.entries)
    (ht : RrSync.transfers destination options (guardedPaths source destination) e = true)
    (h : RrSync.transfers D' options (guardedPaths source D') e = false) :
    t'.view (root.pathOf e.path) = some (Core.file (contents e) e.time) := by
  obtain ⟨hlive, hk⟩ := live_of_transfers ht
  obtain ⟨y, hget, hsame⟩ : ∃ y, D'.get? e.path = some y ∧ sameFile options e y = true := by
    simpa [RrSync.transfers, hc.live_eq, hlive, hk, Option.any_eq_true] using h
  obtain ⟨hy, hyp⟩ := Manifest.mem_of_get? hget
  rcases hc.origin hy with ⟨x, hx, hxp, -, hkind, hsize, hfile⟩ | ⟨d, hd, hm, hdp, hkind⟩ |
    ⟨d, hd, -, hdp, -, hv⟩
  · -- The old file would have been the same already.
    have hget' : destination.get? e.path = some x :=
      hs.destination_valid.get?_eq_some.mpr ⟨hx, hxp.trans hyp⟩
    simp only [sameFile, Bool.and_eq_true, Bool.or_eq_true, decide_eq_true_eq] at hsame
    have hxk : x.kind = .file := hkind.symm.trans hsame.1.1.1.1
    obtain ⟨hmt, hns, hhash⟩ := hfile hxk
    have hsame' : sameFile options e x = true := by
      simp only [sameFile, Bool.and_eq_true, Bool.or_eq_true, decide_eq_true_eq, ← hkind, ← hsize,
        ← hmt, ← hns]
      refine ⟨hsame.1, ?_⟩
      by_cases hcs : options.checksum = true
      · rw [← hhash hcs]
        exact hsame.2
      · exact Or.inl (by simpa using hcs)
    simp [RrSync.transfers, hget', hsame'] at ht
  · obtain rfl := hs.source_valid.eq_of_path hd he (hdp.trans hyp)
    rw [(live_of_makes hm).2] at hk
    cases hk
  · obtain rfl := hs.source_valid.eq_of_path hd he (hdp.trans hyp)
    rwa [hyp] at hv

/-- What the second plan drops at a path, the first drops there. -/
theorem Start.Cut.drops (hpath : y.path = x.path)
    (h : dropsEntry source D' options y = true) :
    dropsEntry source destination options x = true := by
  rw [RrSync.dropsEntry_iff, removes_iff, hpath] at h
  rw [RrSync.dropsEntry_iff, removes_iff]
  simp only [hc.mem_guardedPaths] at h
  rcases h with ⟨hdel, hnone, hg, -⟩ | ⟨c, hcm, hcl, hb⟩
  · by_cases hz : ∃ c ∈ source.entries,
        RrSync.clashes destination (guardedPaths source destination) c = true ∧
        Below x.path.utf8 c.path.utf8
    · exact Or.inr hz
    · exact Or.inl ⟨hdel, hnone, hg, fun c hcm hcl hb => hz ⟨c, hcm, hcl, hb⟩⟩
  · exact Or.inr ⟨c, hcm, hc.clashes hcm hcl, hb⟩

/-- An object that is as it was is dropped by the second plan when the first drops it. -/
theorem Start.Cut.dropsEntry_iff (hx : x ∈ destination.entries) (hy : y ∈ D'.entries)
    (hpath : y.path = x.path) (hsrc : source.get? x.path = none) :
    dropsEntry source D' options y = true ↔ dropsEntry source destination options x = true := by
  refine ⟨hc.drops hpath, ?_⟩
  rw [RrSync.dropsEntry_iff, RrSync.dropsEntry_iff, removes_iff, removes_iff, hpath]
  simp only [hc.mem_guardedPaths]
  rintro (⟨hdel, hnone, hg, hz⟩ | ⟨c, hcm, hcl, hb⟩)
  · exact Or.inl ⟨hdel, hnone, hg, fun c hcm hcl => hz c hcm (hc.clashes hcm hcl)⟩
  · -- The directory above the object is still there, so the conflict is.
    refine Or.inr ⟨c, hcm, ?_, hb⟩
    have hne : x.path.utf8 ≠ c.path.utf8 := fun h =>
      Manifest.get?_eq_none.mp hsrc c hcm (String.utf8_injective h.symm)
    obtain ⟨old, hold, -, hop, hkinds⟩ := old_of_clashes hs.plan hcm hcl
    obtain ⟨d, hd, hdp, hdk⟩ := hs.destination_valid.ancestor hx hb hne
    obtain rfl := hs.destination_valid.eq_of_path hd hold (String.utf8_injective
      (hdp.trans (by rw [hop])))
    have hk : c.kind = .file := by
      rcases hkinds with ⟨h, -⟩ | ⟨-, h⟩
      · exact h
      · rw [hdk] at h
        cases h
    obtain ⟨d', hd', hdp', hdk'⟩ := hc.valid.ancestor hy (hpath ▸ hb) (hpath ▸ hne)
    have hget : D'.get? c.path = some d' :=
      hc.valid.get?_eq_some.mpr ⟨hd', String.utf8_injective hdp'⟩
    simp [RrSync.clashes, hc.live_eq, live_of_clashes hcl, hget, hdk', hk]

omit [Sha256] hc in
/-- A path outside the source has no entry there. -/
theorem source_none {x : Entry} (hout : ∀ e ∈ source.entries, root.pathOf e.path ≠ q)
    (hx : root.pathOf x.path = q) : source.get? x.path = none := by
  refine Manifest.get?_eq_none.mpr fun e he h => hout e he ?_
  rw [h, hx]

/-- The goals agree at an entry of the source. -/
theorem Start.Cut.goal_entry (he : e ∈ source.entries)
    (hb : ¬ (root.pathOf e.path ≠ [] ∧ Below (root.pathOf "") (root.pathOf e.path))) :
    goal root source D' options contents t'.view (root.pathOf e.path)
      = goal root source destination options contents t.view (root.pathOf e.path) := by
  unfold goal
  rw [if_neg hb, if_neg hb, hs.source_valid.find_pathOf he]
  simp only [hc.makes_eq]
  -- A directory is made by both plans.
  cases hm : makes (guardedPaths source destination) e with
  | true => rfl
  | false =>
    simp only [Bool.false_eq_true, if_false]
    cases ht : RrSync.transfers destination options (guardedPaths source destination) e with
    | false =>
      have ht' : RrSync.transfers D' options (guardedPaths source D') e = false := by
        rw [← Bool.not_eq_true]
        exact fun h => by rw [hc.transfers he h] at ht; cases ht
      rw [ht']
      simpa using hc.same_kept he hm ht
    | true =>
      cases ht' : RrSync.transfers D' options (guardedPaths source D') e with
      | true => rfl
      -- What the second plan need not transfer was put there by the first.
      | false => simpa using hc.transferred he ht ht'

section
variable (hb : ¬ (q ≠ [] ∧ Below (root.pathOf "") q))
  (hout : ∀ e ∈ source.entries, root.pathOf e.path ≠ q)
include hb hout

/-- What the destination lists and the cut run has not touched, both plans drop or none. -/
theorem Start.Cut.goal_listed (hx : x ∈ destination.entries) (hxq : root.pathOf x.path = q)
    (h : t'.view q = t.view q) : goal root source D' options contents t'.view q
      = goal root source destination options contents t.view q := by
  subst hxq
  obtain ⟨y, hy, hyp, -⟩ := hc.kept hx h
  have hnone := source_none hout (x := x) rfl
  have hiff := hc.dropsEntry_iff hx hy hyp hnone
  cases hdrop : dropsEntry source destination options x with
  | true =>
    rw [goal_drops _ _ _ hs.destination_valid hx hnone hdrop]
    have hgone := goal_drops root contents t'.view hc.valid hy (hyp ▸ hnone) (hiff.mpr hdrop)
    rwa [hyp] at hgone
  | false =>
    rw [goal_else hb hout, goal_else hb hout, h]
    · intro z hz hzp
      rwa [hs.destination_valid.eq_of_path hz hx (pathOf_injective hzp)]
    · intro z hz hzp
      rw [hc.valid.eq_of_path hz hy ((pathOf_injective hzp).trans hyp.symm)]
      exact Bool.eq_false_iff.mpr fun hd => by rw [hiff.mp hd] at hdrop; cases hdrop

/-- What no manifest lists stays as it is. -/
theorem Start.Cut.goal_unlisted (hx : ∀ x ∈ destination.entries, root.pathOf x.path ≠ q)
    (h : t'.view q = t.view q) : goal root source D' options contents t'.view q
      = goal root source destination options contents t.view q := by
  have hy : ∀ y ∈ D'.entries, root.pathOf y.path ≠ q := by
    intro y hy hyq
    rcases hc.origin hy with ⟨x, hx', hxp, -⟩ | ⟨e, he, -, hep, -⟩ | ⟨e, he, -, hep, -⟩
    · exact hx x hx' (by rw [hxp, hyq])
    · exact hout e he (by rw [hep, hyq])
    · exact hout e he (by rw [hep, hyq])
  rw [goal_else hb hout, goal_else hb hout, h]
  · exact fun x hx' hxp => absurd hxp (hx x hx')
  · exact fun y hy' hyp => absurd hyp (hy y hy')

/-- Where the cut run has reached the goal of the first plan, the second plan keeps it. -/
theorem Start.Cut.goal_reached
    (h : t'.view q = goal root source destination options contents t.view q) :
    goal root source D' options contents t'.view q
      = goal root source destination options contents t.view q := by
  rw [goal_else hb hout, h]
  intro y hy hyq
  subst hyq
  rcases hc.origin hy with ⟨x, hx, hxp, -⟩ | ⟨e, he, -, hep, -⟩ | ⟨e, he, -, hep, -⟩
  · have hnone := source_none hout (x := x) (by rw [hxp])
    have hiff := hc.dropsEntry_iff hx hy hxp.symm hnone
    refine Bool.eq_false_iff.mpr fun hd => ?_
    -- A dropped entry would be gone, but the second manifest has it.
    have hgone := goal_drops root contents t.view hs.destination_valid hx hnone (hiff.mp hd)
    obtain ⟨n, -, hn, -⟩ := hc.described hy
    rw [hxp, ← h, hn] at hgone
    cases hgone
  · exact absurd (by rw [hep]) (hout e he)
  · exact absurd (by rw [hep]) (hout e he)

end

/-- Both plans lead to the same goal. -/
theorem Start.Cut.goal_eq : goal root source D' options contents t'.view
    = goal root source destination options contents t.view := by
  funext q
  by_cases hb : q ≠ [] ∧ Below (root.pathOf "") q
  · rw [show goal root source D' options contents t'.view q = some Core.dir from if_pos hb,
      show goal root source destination options contents t.view q = some Core.dir from if_pos hb]
  by_cases hsq : ∃ e ∈ source.entries, root.pathOf e.path = q
  · obtain ⟨e, he, rfl⟩ := hsq
    exact hc.goal_entry he hb
  have hout : ∀ e ∈ source.entries, root.pathOf e.path ≠ q := fun e he h => hsq ⟨e, he, h⟩
  rcases hc.reach q with h | ⟨-, h⟩ | ⟨⟨e, he, -, hep⟩, -⟩
  · by_cases hx : ∃ x ∈ destination.entries, root.pathOf x.path = q
    · obtain ⟨x, hx, hxq⟩ := hx
      exact hc.goal_listed hb hout hx hxq h
    · exact hc.goal_unlisted hb hout (fun x hx' hxq => hx ⟨x, hx', hxq⟩) h
  · exact hc.goal_reached hb hout h
  · exact absurd hep (hout e he)

/-- The second plan exists, and it can start. -/
theorem Start.Cut.start : Start root source D' options (planOf source D' options) contents t' := by
  have hsrc := hs.source_valid
  obtain ⟨-, -, hall, -⟩ := plan_ok.mp hs.plan
  refine ⟨plan_ok.mpr ⟨hsrc, hc.valid, fun e he hcl => ?_, rfl⟩, hc.mirrors, fun q hq hb => ?_,
    hs.base, fun e he hm => hs.takesMade e he (hc.makes_eq e ▸ hm),
    fun e he ht => hs.takesFile e he (hc.transfers he ht), fun y hy hdrop => ?_,
    fun e he ht => hs.bytes e he (hc.transfers he ht)⟩
  -- The options allowed each conflict that is still one.
  · obtain ⟨hdel, hg⟩ := hall e he (hc.clashes he hcl)
    refine ⟨hdel, ?_⟩
    rw [List.any_eq_false] at hg ⊢
    exact fun s hs' => hg s ((hc.mem_guardedPaths s).mp hs')
  -- What is above the root is free or a directory, as it was.
  · have hbase : ∀ e ∈ source.entries, root.pathOf e.path ≠ q := by
      rintro e he rfl
      exact not_base (hsrc.path_ne_empty he) ⟨hq, hb⟩
    rcases hc.reach q with h | ⟨-, h⟩ | ⟨⟨e, he, -, hep⟩, -⟩
    · rcases hs.clear q hq hb with h0 | h0
      · exact Or.inl (Tree.view_eq_none.mp (h.trans (Tree.view_eq_none.mpr h0)))
      · exact Or.inr (Tree.isDir_iff.mpr (h.trans (Tree.isDir_iff.mp h0)))
    · exact Or.inr (Tree.isDir_iff.mpr (h.trans (if_pos ⟨hq, hb⟩)))
    · exact absurd hep (hbase e he)
  · -- What the second plan drops was there at the start, and the first plan drops it.
    rcases hc.origin hy with ⟨x, hx, hxp, -, hkind, -⟩ | hput | hput
    · have hdropx := hc.drops hxp.symm hdrop
      rw [← hxp]
      exact hs.takesDropped x hx hdropx
    · obtain ⟨e, he, hm, hep, -⟩ := hput
      rw [← hep]
      exact hs.takesMade e he hm
    · obtain ⟨e, he, ht, hep, -⟩ := hput
      rw [← hep]
      exact hs.takesFile e he ht

/-- The files of the second plan are among those of the first. -/
theorem Start.Cut.files_subset : (planOf source D' options).files ⊆ p.files := by
  intro i hi
  obtain ⟨e, hie, ht⟩ := (mem_files hc.start.plan).mp hi
  exact (mem_files hs.plan).mpr ⟨e, hie, hc.transfers (List.mem_of_getElem? hie) ht⟩

end

end RrSync

import RrSync.Proofs.Layout

/-!
# `RrSync.Proofs.Phases`: how far a run has come

`Done` is the set of paths that are as in the goal after some of the steps of a run: the way
to the root, the directories made so far, all that lies at or below the files installed so
far, and the removals so far. The lemmas here say what the next step finds: the paths it is
about are not done yet, and the directory it works in is.
-/

set_option autoImplicit false

namespace RrSync

open Lib

/-! ### The paths of the steps -/

/-- The paths that are as in the goal once the directories `dirs` are made, the files `files`
are installed and the objects `gone` are removed. -/
structure Steps where
  dirs : List Nat
  files : List Nat
  gone : List Entry

/-- The path is one that the steps have brought to the goal: the root, a directory that was made,
what is at or below a file that was sent, or what was removed. -/
def Done (root : Root) (source : Manifest) (s : Steps) (q : Path) : Prop :=
  (q ≠ [] ∧ Below (root.pathOf "") q) ∨
  (∃ i ∈ s.dirs, ∃ e, source.entries[i]? = some e ∧ root.pathOf e.path = q) ∨
  (∃ i ∈ s.files, ∃ e, source.entries[i]? = some e ∧ Below q (root.pathOf e.path)) ∨
  ∃ x ∈ s.gone, root.pathOf x.path = q

/-- The paths of the type conflicts. -/
def Clashing (root : Root) (source destination : Manifest) (q : Path) : Prop :=
  ∃ e ∈ source.entries, clashes destination (guardedPaths source destination) e = true ∧
    root.pathOf e.path = q

section
variable {root : Root} {source destination : Manifest} {options : Options} {p : Plan}
  {e c d x : Entry} {i j : Nat} {checksum : Bool} {m : Manifest} {q : Path} {s s' : Steps}

/-- More steps have done more. -/
theorem Done.mono (h : Done root source s q) (hd : ∀ i ∈ s.dirs, i ∈ s'.dirs)
    (hf : ∀ i ∈ s.files, i ∈ s'.files) (hg : ∀ x ∈ s.gone, x ∈ s'.gone) :
    Done root source s' q := by
  rcases h with h | ⟨i, hi, h⟩ | ⟨i, hi, h⟩ | ⟨x, hx, h⟩
  · exact Or.inl h
  · exact Or.inr (Or.inl ⟨i, hd i hi, h⟩)
  · exact Or.inr (Or.inr (Or.inl ⟨i, hf i hi, h⟩))
  · exact Or.inr (Or.inr (Or.inr ⟨x, hg x hx, h⟩))

/-- One more directory makes one more path done. -/
theorem done_snoc {pre : List Nat} (hi : source.entries[i]? = some e)
    (hne : q ≠ root.pathOf e.path) :
    Done root source ⟨pre ++ [i], [], []⟩ q ↔ Done root source ⟨pre, [], []⟩ q := by
  refine ⟨?_, fun h => h.mono (fun j hj => List.mem_append_left _ hj) (fun _ h => h) fun _ h => h⟩
  rintro (h | ⟨j, hj, d, hjd, hdq⟩ | h | h)
  · exact Or.inl h
  · rcases List.mem_append.mp hj with hj | hj
    · exact Or.inr (Or.inl ⟨j, hj, d, hjd, hdq⟩)
    · obtain rfl := List.mem_singleton.mp hj
      obtain rfl := Option.some.inj (hi.symm.trans hjd)
      exact absurd hdq.symm hne
  · exact Or.inr (Or.inr (Or.inl h))
  · exact Or.inr (Or.inr (Or.inr h))

/-- A file does nothing outside its own place. -/
theorem done_file_snoc {dirs is : List Nat} (hi : source.entries[i]? = some e)
    (hne : ¬ Below q (root.pathOf e.path)) :
    Done root source ⟨dirs, is ++ [i], []⟩ q ↔ Done root source ⟨dirs, is, []⟩ q := by
  refine ⟨?_, fun h => h.mono (fun _ h => h) (fun j hj => List.mem_append_left _ hj) fun _ h => h⟩
  rintro (h | h | ⟨j, hj, d, hjd, hdq⟩ | h)
  · exact Or.inl h
  · exact Or.inr (Or.inl h)
  · rcases List.mem_append.mp hj with hj | hj
    · exact Or.inr (Or.inr (Or.inl ⟨j, hj, d, hjd, hdq⟩))
    · obtain rfl := List.mem_singleton.mp hj
      obtain rfl := Option.some.inj (hi.symm.trans hjd)
      exact absurd hdq hne
  · exact Or.inr (Or.inr (Or.inr h))

/-- Above an entry there are the way to the root and directory entries. -/
theorem Manifest.Valid.above (hm : m.Valid checksum) (he : e ∈ m.entries)
    (hb : Below (root.pathOf e.path) q) : Below (root.pathOf "") q ∨
      ∃ d ∈ m.entries, root.pathOf d.path = q ∧ Below e.path.utf8 d.path.utf8 ∧
        (d = e ∨ d.kind = .directory) := by
  induction hl : (root.pathOf e.path).length using Nat.strongRecOn generalizing e with
  | ind k ih =>
    by_cases heq : root.pathOf e.path = q
    · exact Or.inr ⟨e, he, heq, SepPath.Below.refl, Or.inl rfl⟩
    · have hne := List.ne_nil_of_mem (hb.sep_mem heq)
      have hb' : Below (dirName (root.pathOf e.path)) q := hb.dirName heq
      -- The parent is the root, or an entry that is shorter.
      rcases hm.dirName_pathOf root he with h | ⟨d, hd, hk, hed, -, hp⟩
      · exact Or.inl (h ▸ hb')
      · rw [← hp] at hb'
        have hlen : (root.pathOf d.path).length < k :=
          hl ▸ hp ▸ SepPath.length_dirName_lt hne
        rcases ih _ hlen hd hb' rfl with h | ⟨a, ha, hap, hda, hak⟩
        · exact Or.inl h
        · refine Or.inr ⟨a, ha, hap, hed.trans hda, Or.inr ?_⟩
          rcases hak with rfl | hak
          · exact hk
          · exact hak

/-- Two entries at one index of a valid manifest are one entry at one index. -/
theorem Manifest.Valid.index_inj (hm : m.Valid checksum) (hi : m.entries[i]? = some e)
    (hj : m.entries[j]? = some e) : i = j := by
  obtain ⟨hi', rfl⟩ := List.getElem?_eq_some_iff.mp hi
  obtain ⟨hj', he⟩ := List.getElem?_eq_some_iff.mp hj
  have hs := List.pairwise_iff_getElem.mp hm.sorted
  rcases Nat.lt_trichotomy i j with h | h | h
  · exact absurd (hs i j hi' hj' h) (by rw [he]; exact List.lt_irrefl _)
  · exact h
  · exact absurd (hs j i hj' hi' h) (by rw [he]; exact List.lt_irrefl _)

/-- The entries of a valid manifest are in the order of their paths. -/
theorem Manifest.Valid.index_lt (hm : m.Valid checksum) (hi : m.entries[i]? = some e)
    (hj : m.entries[j]? = some d) (h : e.path.utf8 < d.path.utf8) : i < j := by
  obtain ⟨hi', rfl⟩ := List.getElem?_eq_some_iff.mp hi
  obtain ⟨hj', rfl⟩ := List.getElem?_eq_some_iff.mp hj
  have hs := List.pairwise_iff_getElem.mp hm.sorted
  rcases Nat.lt_trichotomy i j with h' | rfl | h'
  · exact h'
  · exact absurd h (List.lt_irrefl _)
  · exact absurd (List.lt_trans h (hs j i hj' hi' h')) (List.lt_irrefl _)

/-- Nothing in a manifest is below one of its files. -/
theorem Manifest.Valid.eq_of_below_file (hm : m.Valid checksum) (he : e ∈ m.entries)
    (hk : e.kind ≠ .directory) (hd : d ∈ m.entries) (hb : Below d.path.utf8 e.path.utf8) :
    d = e := by
  by_cases hp : d.path.utf8 = e.path.utf8
  · exact hm.eq_of_path hd he (String.utf8_injective hp)
  · obtain ⟨a, ha, hap, hak⟩ := hm.ancestor hd hb hp
    rw [hm.eq_of_path ha he (String.utf8_injective hap)] at hak
    exact absurd hak hk

/-- Entries are below each other exactly when their places are. -/
theorem Manifest.Valid.below_of_pathOf (hm : m.Valid checksum) (he : e ∈ m.entries)
    {m' : Manifest} (hm' : m'.Valid checksum) (hd : d ∈ m'.entries) :
    Below (root.pathOf e.path) (root.pathOf d.path) ↔ Below e.path.utf8 d.path.utf8 :=
  SepPath.below_join (hm.path_ne_nil he) (hm'.path_ne_nil hd)

/-- The indices of the entries that pass a test come in their order. -/
theorem indices_sorted (f : Entry × Nat → Bool) :
    ((m.entries.zipIdx.filter f).map Prod.snd).Pairwise (· < ·) := by
  have h1 : (m.entries.zipIdx.map Prod.snd).Pairwise (· < ·) := by
    rw [List.zipIdx_map_snd]
    exact List.pairwise_lt_range'
  exact List.Pairwise.sublist (List.filter_sublist.map _) h1

variable (hp : plan source destination options = .ok p)
include hp

/-- The directories of a plan are in the order of the source. -/
theorem directories_sorted : p.directories.Pairwise (· < ·) := by
  obtain ⟨-, -, -, rfl⟩ := plan_ok.mp hp
  exact indices_sorted _

/-- The files of a plan are listed in the order of the source, each once. -/
theorem files_sorted : p.files.Pairwise (· < ·) := by
  obtain ⟨-, -, -, rfl⟩ := plan_ok.mp hp
  exact indices_sorted _

omit hp in
/-- In a sorted list what is smaller comes before. -/
theorem mem_of_lt_of_sorted {xs pre post : List Nat} (hxs : xs.Pairwise (· < ·))
    (h : xs = pre ++ i :: post) (hj : j ∈ xs) (hlt : j < i) : j ∈ pre := by
  rw [h] at hxs hj
  rcases List.mem_append.mp hj with hj | hj
  · exact hj
  · rcases List.mem_cons.mp hj with rfl | hj
    · exact absurd hlt (Nat.lt_irrefl _)
    · have := (List.pairwise_cons.mp (List.pairwise_append.mp hxs).2.1).1 j hj
      exact absurd hlt (Nat.not_lt_of_gt this)

/-- The removals of a plan are listed from the last path to the first, so that what is in a
directory goes before the directory. -/
theorem removals_sorted : p.removals.Pairwise fun a b => b.path.utf8 < a.path.utf8 := by
  obtain ⟨-, hdst, -, rfl⟩ := plan_ok.mp hp
  unfold planOf
  cases options.delete with
  | false => exact List.Pairwise.nil
  | true => exact (List.pairwise_reverse.mpr hdst.sorted).filter _

/-- What is below a replaced directory is listed from the last path to the first as well. -/
theorem conflictEntries_sorted {path : String} : (conflictEntries destination path).Pairwise
    fun a b => b.path.utf8 < a.path.utf8 := by
  obtain ⟨-, hdst, -, -⟩ := plan_ok.mp hp
  exact List.pairwise_reverse.mpr (hdst.sorted.filter _)

omit hp in
/-- The entries to remove for a conflict are those strictly below its path. -/
theorem mem_conflictEntries {path : String} : x ∈ conflictEntries destination path ↔
    x ∈ destination.entries ∧ Below x.path.utf8 path.utf8 := by
  simp only [conflictEntries, List.mem_reverse, List.mem_filter, below_iff]

/-! ### What the plan does to the entries below others -/

/-- A file over which the destination has something is a conflict. -/
theorem clashes_of_below
    (hlive : live (guardedPaths source destination) e = true) (hk : e.kind = .file)
    (hx : x ∈ destination.entries) (hb : Below x.path.utf8 e.path.utf8)
    (hne : x.path.utf8 ≠ e.path.utf8) :
    clashes destination (guardedPaths source destination) e = true := by
  obtain ⟨-, hdst, -, -⟩ := plan_ok.mp hp
  obtain ⟨d, hd, hdp, hdk⟩ := hdst.ancestor hx hb hne
  have hget : destination.get? e.path = some d :=
    hdst.get?_eq_some.mpr ⟨hd, String.utf8_injective hdp⟩
  simp [clashes, hlive, hget, hdk, hk]

/-- A conflict over a directory of the plan is about one old file. -/
theorem eq_of_zone_of_makes (he : e ∈ source.entries)
    (hm : makes (guardedPaths source destination) e = true)
    (hc : clashes destination (guardedPaths source destination) e = true)
    (hx : x ∈ destination.entries) (hb : Below x.path.utf8 e.path.utf8) :
    x.path = e.path ∧ x.kind = .file := by
  obtain ⟨-, hdst, -, -⟩ := plan_ok.mp hp
  obtain ⟨old, hold, -, hop, hkinds⟩ := old_of_clashes hp he hc
  have hk := (live_of_makes hm).2
  rcases hkinds with ⟨h, -⟩ | ⟨-, h⟩
  · rw [hk] at h
    cases h
  · rw [← hop] at hb
    obtain rfl := hdst.eq_of_below_file hold (by rw [h]; simp) hx hb
    exact ⟨hop, h⟩

/-- A file over a directory is transferred. -/
theorem transfers_of_clashes (he : e ∈ source.entries) (hk : e.kind = .file)
    (hc : clashes destination (guardedPaths source destination) e = true) :
    transfers destination options (guardedPaths source destination) e = true := by
  obtain ⟨old, -, hget, -, hkinds⟩ := old_of_clashes hp he hc
  rcases hkinds with ⟨-, h⟩ | ⟨h, -⟩
  · simp [transfers, live_of_clashes hc, hk, hget, sameFile, h]
  · rw [hk] at h
    cases h

/-- What is removed is no source entry, and nothing of the source lies below it. -/
theorem removal_facts (hx : x ∈ p.removals) : x ∈ destination.entries ∧ x.kind ≠ .guarded ∧
    dropsEntry source destination options x = true ∧ source.get? x.path = none ∧
    ∀ d ∈ source.entries, ¬ Below d.path.utf8 x.path.utf8 := by
  obtain ⟨hsrc, hdst, -, -⟩ := plan_ok.mp hp
  obtain ⟨hdel, hxd, hr⟩ := (mem_removals hp).mp hx
  obtain ⟨hnone, hg, -⟩ := removes_iff.mp hr
  refine ⟨hxd, fun hk => ?_, dropsEntry_iff.mpr (Or.inl ⟨hdel, hr⟩), hnone, fun d hd hb => ?_⟩
  · exact (hg x.path (mem_guardedPaths.mpr ⟨x, Or.inr hxd, hk, rfl⟩)).1 SepPath.Below.refl
  · by_cases hpx : d.path.utf8 = x.path.utf8
    · exact Manifest.get?_eq_none.mp hnone d hd (String.utf8_injective hpx)
    · obtain ⟨a, ha, hap, -⟩ := hsrc.ancestor hd hb hpx
      exact Manifest.get?_eq_none.mp hnone a ha (String.utf8_injective hap)

/-- What lies below an entry that is removed is removed as well. -/
theorem removal_below (hx : x ∈ p.removals) {y : Entry} (hy : y ∈ destination.entries)
    (hyx : Below y.path.utf8 x.path.utf8) : y ∈ p.removals := by
  obtain ⟨hdel, hxd, hr⟩ := (mem_removals hp).mp hx
  obtain ⟨hnone, hg, hzone⟩ := removes_iff.mp hr
  have hsub := (removal_facts hp hx).2.2.2.2
  refine (mem_removals hp).mpr ⟨hdel, hy, removes_iff.mpr ⟨?_, fun s hs => ⟨fun h => ?_, fun h => ?_⟩,
    fun c hc hcc h => ?_⟩⟩
  · refine Manifest.get?_eq_none.mpr fun d hd hdy => hsub d hd ?_
    rw [hdy]
    exact hyx
  -- What is at or above `y` is at or above `x`, or at or below it.
  · rcases h.comparable hyx with h' | h'
    · exact (hg s hs).2 h'
    · exact (hg s hs).1 h'
  · exact (hg s hs).2 (h.trans hyx)
  · rcases h.comparable hyx with h' | h'
    · exact hsub c hc h'
    · exact hzone c hc hcc h'

/-- What lies in a directory that is removed is removed as well. -/
theorem removal_child (hx : x ∈ p.removals) {y : Entry} (hy : y ∈ destination.entries)
    (hd : dirName y.path.utf8 = x.path.utf8) (hsl : slash ∈ y.path.utf8) : y ∈ p.removals := by
  have hyx : Below y.path.utf8 (dirName y.path.utf8) := SepPath.below_dirName hsl
  rw [hd] at hyx
  exact removal_below hp hx hy hyx

end

end RrSync

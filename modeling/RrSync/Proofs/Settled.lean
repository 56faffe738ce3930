import RrSync.Proofs.Rerun

/-!
# `RrSync.Proofs.Settled`: planning again at the goal

When the view is the goal, a manifest of the tree leaves the planner nothing to do
(`Cut.planOf_settled`). If extras are deleted and nothing is protected, that manifest is the
source manifest, up to hashes nobody has asked for (`Cut.entries_settled`).
-/

set_option autoImplicit false

namespace RrSync

open Lib

/-- The entry as far as a scan reports it. -/
def Entry.upTo (checksum : Bool) (e : Entry) : Entry := if checksum then e else { e with hash := none }

/-- The plan has nothing to do. -/
structure Plan.Idle (p : Plan) : Prop where
  files : p.files = []
  removals : p.removals = []
  conflicts : p.conflicts = []
  skips : ∀ o ∈ p.operations, o.action = .skip

/-- An entry keeps its path when it is compared. -/
@[simp] theorem Entry.path_upTo (checksum : Bool) (e : Entry) : (e.upTo checksum).path = e.path := by
  unfold Entry.upTo
  split <;> rfl

/-- Two entries are the same up to the hash when their compared fields are. -/
theorem Entry.upTo_eq {checksum : Bool} {x y : Entry} (hpath : y.path = x.path)
    (hkind : y.kind = x.kind) (hsize : y.size = x.size) (hmtime : y.mtime = x.mtime)
    (hns : y.ns = x.ns) (hhash : checksum = true → y.hash = x.hash) :
    y.upTo checksum = x.upTo checksum := by
  unfold Entry.upTo
  cases checksum with
  | true =>
    obtain ⟨_, _, _, _, _, _⟩ := x
    obtain ⟨_, _, _, _, _, _⟩ := y
    simp_all
  | false => simp [hpath, hkind, hsize, hmtime, hns]

section
variable [Sha256] {root : Root} {source destination : Manifest} {options : Options} {p : Plan}
  {contents : Entry → Bytes} {t t' : Tree} {D' : Manifest} {e x y : Entry}
  {hs : Start root source destination options p contents t} (hc : hs.Cut t' D')
  (hgoal : t'.view = goal root source destination options contents t.view)
include hc hgoal

/-- The entry of a directory that the plan makes. -/
theorem Start.Cut.made_settled (he : e ∈ source.entries)
    (hm : makes (guardedPaths source destination) e = true) :
    ∃ y ∈ D'.entries, y.path = e.path ∧ y.kind = .directory := by
  have hg := goal_makes hs (v := t.view) he hm
  rw [← hgoal] at hg
  obtain ⟨n, hn, hcore⟩ := Option.map_eq_some_iff.mp hg
  obtain ⟨y, hy, hyp⟩ := hc.mirrors.object _ n (hs.source_valid.path_ne_nil he) hn
    (hs.source_valid.visible' he)
  have hpath := String.utf8_injective hyp
  obtain ⟨n', hn', hd⟩ := hc.mirrors.entry y hy
  rw [hpath] at hn'
  obtain rfl := Option.some.inj (hn'.symm.trans hn)
  exact ⟨y, hy, hpath, hs.kind_of_made he (live_of_makes hm).1 hpath.symm hd hcore⟩

/-- A file that the plan has transferred is the same now. -/
theorem Start.Cut.put_settled (he : e ∈ source.entries)
    (ht : RrSync.transfers destination options (guardedPaths source destination) e = true) :
    ∃ y ∈ D'.entries, y.path = e.path ∧ sameFile options e y = true := by
  have hg := goal_transfers hs (v := t.view) he ht
  rw [← hgoal] at hg
  obtain ⟨n, hn, hcore⟩ := Option.map_eq_some_iff.mp hg
  obtain ⟨y, hy, hyp⟩ := hc.mirrors.object _ n (hs.source_valid.path_ne_nil he) hn
    (hs.source_valid.visible' he)
  have hpath := String.utf8_injective hyp
  obtain ⟨n', hn', hd⟩ := hc.mirrors.entry y hy
  rw [hpath] at hn'
  obtain rfl := Option.some.inj (hn'.symm.trans hn)
  exact ⟨y, hy, hpath, hs.same_of_put he ht hpath.symm hd hcore⟩

/-- No file of the source has to be transferred to the goal. -/
theorem Start.Cut.not_transfers (he : e ∈ source.entries) :
    RrSync.transfers D' options (guardedPaths source D') e = false := by
  by_contra h
  rw [Bool.not_eq_false] at h
  obtain ⟨y, hy, hyp, hsame⟩ := hc.put_settled hgoal he (hc.transfers he h)
  have hget : D'.get? e.path = some y := hc.valid.get?_eq_some.mpr ⟨hy, hyp⟩
  simp [RrSync.transfers, hget, hsame] at h

/-- Nothing is in conflict at the goal. -/
theorem Start.Cut.not_clashes (he : e ∈ source.entries) :
    RrSync.clashes D' (guardedPaths source D') e = false := by
  by_contra h
  rw [Bool.not_eq_false] at h
  have hlive := live_of_clashes h
  cases hk : e.kind with
  | guarded => exact absurd hk (kind_of_live he hlive)
  | file =>
    have := transfers_of_clashes hc.start.plan he hk h
    rw [hc.not_transfers hgoal he] at this
    cases this
  | directory =>
    rw [hc.live_eq] at hlive
    obtain ⟨y, hy, hyp, hyk⟩ := hc.made_settled hgoal he (by simp [makes, hlive, hk])
    have hget : D'.get? e.path = some y := hc.valid.get?_eq_some.mpr ⟨hy, hyp⟩
    simp [RrSync.clashes, hget, hyk, hk] at h

/-- What the source does not list, the second plan does not drop. -/
theorem Start.Cut.not_drops (hy : y ∈ D'.entries) (hsrc : source.get? y.path = none) :
    dropsEntry source D' options y = false := by
  by_contra h
  rw [Bool.not_eq_false] at h
  obtain ⟨n, -, hv, -⟩ := hc.described hy
  rcases hc.origin hy with ⟨x, hx, hxp, -⟩ | ⟨e, he, -, hep, -⟩ | ⟨e, he, -, hep, -⟩
  · have hgone := goal_drops root contents t.view
      hs.destination_valid hx (hxp ▸ hsrc) (hc.drops hxp.symm h)
    rw [hgoal, ← hxp, hgone] at hv
    cases hv
  · exact Manifest.get?_eq_none.mp hsrc e he hep
  · exact Manifest.get?_eq_none.mp hsrc e he hep

/-- At the goal the planner has nothing to do. -/
theorem Start.Cut.planOf_settled : (planOf source D' options).Idle := by
  have hplan := hc.start.plan
  -- What would be removed is not there at the goal.
  have hremovals : (planOf source D' options).removals = [] := by
    rw [List.eq_nil_iff_forall_not_mem]
    intro y hy
    obtain ⟨hdel, hyd, hr⟩ := (mem_removals hplan).mp hy
    have hdrop := hc.not_drops hgoal hyd (removes_iff.mp hr).1
    rw [RrSync.dropsEntry_iff.mpr (Or.inl ⟨hdel, hr⟩)] at hdrop
    cases hdrop
  refine ⟨?_, hremovals, ?_, fun o ho => ?_⟩
  · rw [List.eq_nil_iff_forall_not_mem]
    intro i hi
    obtain ⟨e, hie, ht⟩ := (mem_files hplan).mp hi
    rw [hc.not_transfers hgoal (List.mem_of_getElem? hie)] at ht
    cases ht
  · rw [List.eq_nil_iff_forall_not_mem]
    rintro ⟨path, entries⟩ hi
    obtain ⟨e, he, hcl, -⟩ := (mem_conflicts hplan).mp hi
    rw [hc.not_clashes hgoal he] at hcl
    cases hcl
  · have hmem := ho
    simp only [planOf, List.mem_append] at hmem
    rcases hmem with hmem | hmem
    · obtain ⟨⟨e, i⟩, hei, rfl⟩ := List.mem_map.mp hmem
      have he := List.fst_mem_of_mem_zipIdx hei
      show actionOf D' options (guardedPaths source D') e = .skip
      have ht := hc.not_transfers hgoal he
      unfold actionOf
      -- Every operation is a skip, whatever the entry is.
      cases hlive : live (guardedPaths source D') e with
      | false => rfl
      | true =>
        cases hk : e.kind with
        | guarded => rfl
        | directory =>
          rw [hc.live_eq] at hlive
          obtain ⟨y, hy, hyp, hyk⟩ := hc.made_settled hgoal he (by simp [makes, hlive, hk])
          simp [hc.valid.get?_eq_some.mpr ⟨hy, hyp⟩, hyk]
        | file =>
          have hsame : (D'.get? e.path).any (sameFile options e) = true := by
            simpa [RrSync.transfers, hlive, hk] using ht
          simp [hsame]
    · obtain ⟨y, hy, rfl⟩ := List.mem_map.mp hmem
      have : y ∈ (planOf source D' options).removals := hy
      rw [hremovals] at this
      cases this

/-- A source entry is in the manifest of the goal, when nothing is protected. -/
theorem Start.Cut.source_settled (hguarded : guardedPaths source destination = [])
    (htimed : ∀ e ∈ source.entries, makes (guardedPaths source destination) e = true →
      Timed root t' e) (he : e ∈ source.entries) :
    ∃ y ∈ D'.entries, y.path = e.path ∧ y.upTo options.checksum = e.upTo options.checksum := by
  have hlive : ∀ e, live (guardedPaths source destination) e = true := by simp [live, hguarded]
  have hplain := (hs.source_valid.entry e he).plain
  cases hk : e.kind with
  | guarded => exact absurd hk (kind_of_live he (hlive e))
  -- The goal has made a directory, with the time of the entry.
  | directory =>
    have hm : makes (guardedPaths source destination) e = true := by simp [makes, hlive, hk]
    obtain ⟨y, hy, hyp, hyk⟩ := hc.made_settled hgoal he hm
    obtain ⟨n, hn, hd⟩ := hc.mirrors.entry y hy
    obtain ⟨n', hn', htime⟩ := htimed e he hm
    rw [hyp] at hn
    obtain rfl := Option.some.inj (hn.symm.trans hn')
    obtain ⟨hsize, hhash⟩ := hplain (by rw [hk]; simp)
    obtain ⟨hysize, hyhash⟩ := (hc.valid.entry y hy).plain (by rw [hyk]; simp)
    obtain ⟨hsec, hns⟩ := hs.time_eq he
    exact ⟨y, hy, hyp, Entry.upTo_eq hyp (hyk.trans hk.symm) (hysize.trans hsize.symm)
      (by rw [hd.mtime, htime, hsec]) (by rw [hd.ns, htime, hns])
      fun _ => hyhash.trans hhash.symm⟩
  -- A file need not be transferred, which says that it is the same.
  | file =>
    have hsame : (D'.get? e.path).any (sameFile options e) = true := by
      simpa [RrSync.transfers, hc.live_eq, hlive, hk] using hc.not_transfers hgoal he
    obtain ⟨y, hget, hsame⟩ := (Option.any_eq_true _ _).mp hsame
    obtain ⟨hy, hyp⟩ := Manifest.mem_of_get? hget
    simp only [sameFile, Bool.and_eq_true, Bool.or_eq_true, Bool.not_eq_true',
      decide_eq_true_eq] at hsame
    obtain ⟨⟨⟨⟨hyk, hsize⟩, hmtime⟩, hns⟩, hhash⟩ := hsame
    refine ⟨y, hy, hyp, Entry.upTo_eq hyp (hyk.trans hk.symm) hsize hmtime hns fun hcs => ?_⟩
    rcases hhash with h | h
    · rw [hcs] at h
      cases h
    · exact h

/-- When extras are deleted and nothing is protected, only source entries are left. -/
theorem Start.Cut.extra_settled (hdelete : options.delete = true)
    (hguarded : guardedPaths source destination = []) (hy : y ∈ D'.entries) :
    ∃ e ∈ source.entries, e.path = y.path := by
  by_contra hnot
  have hsrc : source.get? y.path = none := Manifest.get?_eq_none.mpr fun e he h => hnot ⟨e, he, h⟩
  have hdrop := hc.not_drops hgoal hy hsrc
  have hg' : guardedPaths source D' = [] := List.eq_nil_iff_forall_not_mem.mpr fun s h => by
    have := (hc.mem_guardedPaths s).mp h
    rw [hguarded] at this
    cases this
  refine Bool.eq_false_iff.mp hdrop (RrSync.dropsEntry_iff.mpr (Or.inl ⟨hdelete, removes_iff.mpr
    ⟨hsrc, ?_, fun c hcm hcl => ?_⟩⟩))
  · simp [hg']
  · rw [hc.not_clashes hgoal hcm] at hcl
    cases hcl

/-- The manifest of the goal is the source manifest, when extras are deleted and nothing is
protected. -/
theorem Start.Cut.entries_settled (hdelete : options.delete = true)
    (hguarded : guardedPaths source destination = [])
    (htimed : ∀ e ∈ source.entries, makes (guardedPaths source destination) e = true →
      Timed root t' e) :
    D'.entries.map (Entry.upTo options.checksum)
      = source.entries.map (Entry.upTo options.checksum) := by
  have hsorted : ∀ {m : Manifest}, m.Valid options.checksum →
      (m.entries.map (Entry.upTo options.checksum)).Pairwise
        fun a b => a.path.utf8 < b.path.utf8 := by
    intro m hm
    rw [List.pairwise_map]
    simpa only [Entry.path_upTo] using hm.sorted
  -- Both lists are sorted by path, so it is enough that they have the same entries.
  refine (hsorted hc.valid).eq_of_mem_iff (hsorted hs.source_valid) fun z => ?_
  simp only [List.mem_map]
  constructor
  · rintro ⟨y, hy, rfl⟩
    obtain ⟨e, he, hep⟩ := hc.extra_settled hgoal hdelete hguarded hy
    obtain ⟨y', hy', hyp, heq⟩ := hc.source_settled hgoal hguarded htimed he
    obtain rfl := hc.valid.eq_of_path hy' hy (hyp.trans hep)
    exact ⟨e, he, heq.symm⟩
  · rintro ⟨e, he, rfl⟩
    obtain ⟨y, hy, -, heq⟩ := hc.source_settled hgoal hguarded htimed he
    exact ⟨y, hy, heq⟩

end

end RrSync

import RrSync.Proofs.Install
import RrSync.Proofs.Recovery
import RrSync.Proofs.Slots

/-!
# `RrSync.Proofs.Rescan`: scanning the destination again

A run that succeeds leaves old objects, directories of the source and files of the source
(`Leaves`), whatever else the file system did. A scan takes every one of them, so after the
run it can only fail on their number: the planner checks each manifest alone, and what the
run leaves is their union.
-/

set_option autoImplicit false

namespace RrSync

open Lib

section
variable {source destination : Manifest} {options : Options} {p : Plan} {root : Root}
  {t t' t'' : Tree} {w w' : Disk} {e : Entry} {q : Path}

/-! ### What a run leaves -/

/-- The run may make a directory here. -/
def Made (root : Root) (source destination : Manifest) (q : Path) : Prop :=
  Below (root.pathOf "") q ∨
    ∃ e ∈ source.entries, makes (guardedPaths source destination) e = true ∧ root.pathOf e.path = q

/-- The file is here, with the size that its entry has. -/
def Put (root : Root) (source destination : Manifest) (options : Options) (q : Path) (b : Body) :
    Prop :=
  ∃ e ∈ source.entries, transfers destination options (guardedPaths source destination) e = true ∧
    root.pathOf e.path = q ∧ b.type = .file ∧ b.len = e.size

/-- Every object of the second tree was there before, or the run has made or put it. -/
def Leaves (root : Root) (source destination : Manifest) (options : Options) (t t' : Tree) : Prop :=
  ∀ q n', t'.get q = some n' → (∃ n, t.get q = some n ∧ n.body = n'.body) ∨
    n'.body = .directory ∧ Made root source destination q ∨
    Put root source destination options q n'.body

/-- Two parts of a run, one after the other. -/
theorem Leaves.trans (h : Leaves root source destination options t t')
    (h' : Leaves root source destination options t' t'') :
    Leaves root source destination options t t'' := by
  intro q n'' hn''
  rcases h' q n'' hn'' with ⟨n', hn', hb⟩ | hmade
  · rw [← hb]
    exact h q n' hn'
  · exact Or.inr hmade

/-- The effects that leave old objects, directories of the run, and a file at `put`. -/
def leaving (root : Root) (source destination : Manifest) (put : Option Path) : Effect :=
  fun q old new => ∀ n', new = some n' → (∃ n, old = some n ∧ n.body = n'.body) ∨
    n'.body = .directory ∧ Made root source destination q ∨ put = some q

variable {put : Option Path}

/-- Nothing at all. -/
theorem leaving_refl (q : Path) (x : Option Node) : leaving root source destination put q x x :=
  fun n' h => Or.inl ⟨n', h, rfl⟩

/-- Two changes of one object. -/
theorem leaving_trans (q : Path) (x y z : Option Node)
    (h : leaving root source destination put q x y)
    (h' : leaving root source destination put q y z) :
    leaving root source destination put q x z := by
  intro n'' hn''
  rcases h' n'' hn'' with ⟨n', hn', hb⟩ | hmade
  · rw [← hb]
    exact h n' hn'
  · exact Or.inr hmade

/-- A new time. -/
theorem leaving_stamps (q : Path) : (leaving root source destination put).Stamps q := by
  rintro _ _ ⟨n, n', rfl, rfl, hb⟩ m hm
  obtain rfl := Option.some.inj hm
  exact Or.inl ⟨n, rfl, hb.symm⟩

/-- A removal. -/
theorem leaving_drops (q : Path) : (leaving root source destination put).Drops q :=
  fun _ _ h => by cases h

/-- Several removals. -/
theorem leaving_dropsAll (entries : List Entry) :
    (leaving root source destination put).DropsAll root entries :=
  fun _ _ => ⟨leaving_stamps _, leaving_drops _⟩

/-- A directory that the plan makes. -/
theorem leaving_makes (h : Made root source destination q) :
    (leaving root source destination put).Makes q := by
  intro n hb m hm
  obtain rfl := Option.some.inj hm
  exact Or.inr (Or.inl ⟨hb, h⟩)

/-- The root of the session. -/
theorem leaving_makesTo_base : (leaving root source destination put).MakesTo (root.pathOf "") :=
  fun _ _ hb => ⟨leaving_makes (Or.inl hb), leaving_stamps _⟩

/-- Above a directory that is made there are the root and directories of the source. -/
theorem leaving_makesTo (hsrc : source.Valid options.checksum) (he : e ∈ source.entries)
    (hm : makes (guardedPaths source destination) e = true) :
    (leaving root source destination put).MakesTo (root.pathOf e.path) := by
  intro q _ hb
  refine ⟨leaving_makes ?_, leaving_stamps _⟩
  rcases hsrc.above he hb with h | ⟨d, hd, rfl, hed, rfl | hk⟩
  · exact Or.inl h
  · exact Or.inr ⟨_, he, hm, rfl⟩
  · exact Or.inr ⟨d, hd, by simp [makes, live_of_below (live_of_makes hm).1 hed, hk], rfl⟩

/-! ### The parts of a run -/

variable [Sha256] {contents : Entry → Bytes}

omit [Sha256] in
/-- A part of a run whose calls have only these effects. -/
theorem leaves_of_calls {α : Type} {m : FsM α} {a : α}
    (hm : Calls (FsCall.Safe (leaving root source destination none)) m)
    (h : m.run exec w = (.ok a, w')) : Leaves root source destination options w.tree w'.tree := by
  intro q n' hn'
  have hw : m.Moment exec w w' := by
    have := Prog.moment_run exec m w
    rwa [h] at this
  rcases frame_of_issues hm leaving_refl leaving_trans (fun c hc q old new hq => hc.2 q old new hq)
    hw q n' hn' with hold | hmade | hput
  · exact Or.inl hold
  · exact Or.inr (Or.inl hmade)
  · cases hput

variable (hp : plan source destination options = .ok p)
include hp

omit [Sha256] in
/-- `prepare` has only these effects. -/
theorem calls_prepare_leaving :
    Calls (FsCall.Safe (leaving root source destination none)) (prepare root source p) := by
  refine calls_prepare leaving_makesTo_base fun i hi e he => ?_
  obtain ⟨e', he', hm⟩ := (mem_directories hp).mp hi
  obtain rfl := Option.some.inj (he.symm.trans he')
  exact ⟨leaving_makesTo (plan_ok.mp hp).1 (List.mem_of_getElem? he) hm,
    fun entries _ => leaving_dropsAll entries⟩

omit [Sha256] hp in
/-- `finish` has only these effects. -/
theorem calls_finish_leaving :
    Calls (FsCall.Safe (leaving root source destination none)) (finish root source p) :=
  calls_finish (leaving_dropsAll _) fun _ _ _ _ => leaving_stamps _

/-- An installation that succeeds leaves the file with the size of its entry. -/
theorem install_leaves {i : Nat} (hi : i ∈ p.files) (he : source.entries[i]? = some e)
    {file : Bytes} (h : (install root e destination p file).run exec w = (.ok (), w')) :
    Leaves root source destination options w.tree w'.tree := by
  obtain ⟨e', he', ht⟩ := (mem_files hp).mp hi
  obtain rfl := Option.some.inj (he.symm.trans he')
  obtain ⟨hsize, -, -, n, hn, hb, -⟩ := install_run h
  have hcalls : Calls (FsCall.Safe (leaving root source destination (some (root.pathOf e.path))))
      (install root e destination p file) :=
    calls_install (leaving_stamps _) (fun _ _ _ _ _ _ _ => Or.inr (Or.inr rfl))
      fun entries _ => leaving_dropsAll entries
  have hw : (install root e destination p file).Moment exec w w' := by
    have := Prog.moment_run exec (install root e destination p file) w
    rwa [h] at this
  intro q n' hn'
  -- An object is old, or a directory of the plan, or the file itself with the content of the entry.
  rcases frame_of_issues hcalls leaving_refl leaving_trans
    (fun c hc q old new hq => hc.2 q old new hq) hw q n' hn' with hold | hmade | hput
  · exact Or.inl hold
  · exact Or.inr (Or.inl hmade)
  · obtain rfl := Option.some.inj hput
    obtain rfl := Option.some.inj (hn.symm.trans hn')
    exact Or.inr (Or.inr ⟨e, List.mem_of_getElem? he, ht, rfl, by rw [hb]; rfl, by rw [hb]; exact hsize⟩)

/-! ### The whole run -/

omit [Sha256] hp in
/-- When `mkdir` returns, the path was accepted. -/
theorem mkdir_full {path : String} (h : (root.mkdir path).run exec w = (.ok (), w')) :
    ∃ s, root.full path = .ok s := by
  obtain ⟨s, _, hs, -⟩ := Prog.run_bind_eq_ok.mp h
  exact ⟨s, (Prog.run_lift_eq_ok.mp hs).1⟩

omit [Sha256] hp in
/-- When `parent` returns, the path was accepted and has a name. -/
theorem parent_takes {path : String} {r : Path × Path}
    (h : (root.parent path).run exec w = (.ok r, w')) : root.Takes path := by
  obtain ⟨_, _, hvalid, h⟩ := Prog.run_bind_eq_ok.mp h
  obtain ⟨s, _, hs, -⟩ := Prog.run_bind_eq_ok.mp h
  exact ⟨(Prog.run_lift_eq_ok.mp hvalid).1, (root.full_ok.mp (Prog.run_lift_eq_ok.mp hs).1).2.1⟩

omit [Sha256] hp in
/-- When a program returns that starts with an index, the item is there. -/
theorem index_run {i : Nat} {β : Type} {k : Entry → FsM β} {b : β}
    (h : (index source.entries i "source.entries" >>= k : FsM β).run exec w = (.ok b, w')) :
    ∃ e, source.entries[i]? = some e ∧ (k e).run exec w = (.ok b, w') := by
  unfold index at h
  cases he : source.entries[i]? with
  | none =>
    rw [he] at h
    cases h
  | some e =>
    rw [he] at h
    exact ⟨e, rfl, h⟩

/-- What a run that succeeds leaves, and which paths it has accepted. -/
theorem runPlan_leaves (h : (runPlan root source destination p p.files contents).run exec w
      = (.ok (), w')) : Leaves root source destination options w.tree w'.tree ∧
    (∀ e ∈ source.entries, makes (guardedPaths source destination) e = true →
      root.Takes e.path) ∧
    ∀ e ∈ source.entries,
      transfers destination options (guardedPaths source destination) e = true →
      root.Takes e.path := by
  have hsrc := (plan_ok.mp hp).1
  obtain ⟨_, w₁, hprepare, h⟩ := Prog.run_bind_eq_ok.mp h
  obtain ⟨_, w₂, hinstalls, hfinish⟩ := Prog.run_bind_eq_ok.mp h
  refine ⟨?_, fun e he hm => ?_, fun e he ht => ?_⟩
  -- The steps of the run, one after the other.
  · have hputs : Leaves root source destination options w₁.tree w₂.tree := by
      refine Prog.run_forM_trans (R := fun w w' : Disk =>
        Leaves root source destination options w.tree w'.tree) hinstalls
        (fun _ _ n' hn' => Or.inl ⟨n', hn', rfl⟩) (fun _ _ _ => Leaves.trans) ?_
      intro i hi w w' hturn
      obtain ⟨e, he, hturn⟩ := index_run hturn
      exact install_leaves hp hi he hturn
    exact (leaves_of_calls (calls_prepare_leaving hp) hprepare).trans
      (hputs.trans (leaves_of_calls calls_finish_leaving hfinish))
  · obtain ⟨i, hi⟩ := List.getElem?_of_mem he
    -- The directory was made, so its path was accepted.
    obtain ⟨_, _, -, hdirs⟩ := Prog.run_bind_eq_ok.mp hprepare
    obtain ⟨_, _, hturn⟩ := Prog.run_forM_turns hdirs i ((mem_directories hp).mpr ⟨e, hi, hm⟩)
    obtain ⟨e', he', hturn⟩ := index_run hturn
    obtain rfl := Option.some.inj (hi.symm.trans he')
    obtain ⟨_, _, -, hmkdir⟩ := Prog.run_bind_eq_ok.mp hturn
    obtain ⟨s, hs⟩ := mkdir_full hmkdir
    exact ⟨(hsrc.entry e he).path, (root.full_ok.mp hs).2.1⟩
  · obtain ⟨i, hi⟩ := List.getElem?_of_mem he
    obtain ⟨_, _, hturn⟩ := Prog.run_forM_turns hinstalls i ((mem_files hp).mpr ⟨e, hi, ht⟩)
    obtain ⟨e', he', hturn⟩ := index_run hturn
    obtain rfl := Option.some.inj (hi.symm.trans he')
    -- The file was staged, so its path was accepted.
    obtain ⟨_, _, hstage, -⟩ := Prog.run_bind_eq_ok.mp hturn
    obtain ⟨_, _, hparent, -⟩ := Prog.run_bind_eq_ok.mp hstage
    exact parent_takes hparent

/-! ### Scanning again -/

omit hp in
/-- A scan takes every object that a run has left. -/
theorem Leaves.scannable {s : Scan} (hp : plan source s.manifest options = .ok p)
    (hs : s.Of options.checksum root t) (hl : Leaves root source s.manifest options t t')
    (hmakes : ∀ e ∈ source.entries, makes (guardedPaths source s.manifest) e = true →
      root.Takes e.path)
    (hputs : ∀ e ∈ source.entries,
      transfers s.manifest options (guardedPaths source s.manifest) e = true → root.Takes e.path)
    (hbounded : root.Bounded t') : Scannable options.checksum root t' := by
  have hsrc := (plan_ok.mp hp).1
  refine ⟨fun q n' hq hn' hvis => ?_, hbounded⟩
  rcases hl _ n' hn' with ⟨n, hn, hb⟩ | ⟨hb, hmade⟩ | ⟨e, he, ht, hep, hb, hlen⟩
  · -- An old object, which the first scan has taken.
    obtain ⟨x, hx, rfl⟩ := hs.mirrors.object q n hq hn hvis
    obtain ⟨m, hm, hd⟩ := hs.mirrors.entry x hx
    obtain rfl := Option.some.inj (hn.symm.trans hm)
    have hkind : kindOf x.path n'.metadata = x.kind := by
      rw [hd.kind]
      exact kindOf_congr (congrArg Body.type hb.symm)
    refine ⟨x.path, rfl, (hs.valid.entry x hx).path, fun ho => ?_, fun hk => ?_⟩
    · obtain ⟨s', hfull⟩ := hs.full x hx (hkind ▸ ho)
      exact ⟨(hs.valid.entry x hx).path, (root.full_ok.mp hfull).2.1⟩
    · have hsize := hd.size
      rw [if_pos (hkind.symm.trans hk), hb] at hsize
      rw [← hsize]
      exact (hs.valid.entry x hx).size (hkind.symm.trans hk)
  -- A directory of the plan, whose path was accepted then.
  · rcases hmade with hbase | ⟨e, he, hm, hep⟩
    · by_cases h0 : join root.base.utf8 q = []
      · exact absurd (SepPath.join_eq_nil.mp h0).2 hq
      · exact absurd ⟨h0, hbase⟩ (not_base_join hq)
    · refine ⟨e.path, SepPath.join_injective _ hep, (hmakes e he hm).valid,
        fun _ => hmakes e he hm, fun hk => ?_⟩
      have htype := kindOf_eq_file hk
      rw [show n'.metadata.type = n'.body.type from rfl, hb] at htype
      cases htype
  · refine ⟨e.path, SepPath.join_injective _ hep, (hputs e he ht).valid, fun _ => hputs e he ht,
      fun _ => ?_⟩
    -- A file of the plan has the size of its entry, which is within the limit.
    rw [hlen]
    exact (hsrc.entry e he).size (live_of_transfers ht).2

omit [Sha256] hp in
/-- On the way to the root the run leaves directories. -/
theorem Leaves.clear (hsrc : source.Valid options.checksum)
    (hl : Leaves root source destination options t t') (hclear : root.Clear t) :
    root.Clear t' := by
  intro q hq hb
  cases hn' : t'.get q with
  | none => exact Or.inl rfl
  | some n' =>
    right
    rcases hl q n' hn' with ⟨n, hn, hbody⟩ | ⟨hbody, -⟩ | ⟨e, he, -, rfl, -⟩
    · rcases hclear q hq hb with h0 | ⟨m, hm, hdir⟩
      · rw [hn] at h0
        cases h0
      · obtain rfl := Option.some.inj (hn.symm.trans hm)
        exact ⟨n', hn', hbody.symm.trans hdir⟩
    · exact ⟨n', hn', hbody⟩
    · exact absurd ⟨hq, hb⟩ (not_base (hsrc.path_ne_empty he))

omit hp in
/-- A scan that succeeds has seen at most `MAX_ENTRIES` objects. -/
theorem Scan.Of.bounded {checksum : Bool} {s : Scan} (hs : s.Of checksum root t) :
    root.Bounded t := by
  intro qs hnodup hqs
  have hsub : qs ⊆ s.manifest.entries.map fun e => e.path.utf8 := by
    intro q hq
    obtain ⟨hq0, hsome, hvis⟩ := hqs q hq
    obtain ⟨n, hn⟩ := Option.isSome_iff_exists.mp hsome
    obtain ⟨e, he, rfl⟩ := hs.mirrors.object q n hq0 hn hvis
    exact List.mem_map_of_mem he
  have hle := (List.subperm_of_subset hnodup hsub).length_le
  rw [List.length_map] at hle
  exact hle.trans hs.valid.count

end

/-- A run on a tree that was scanned and planned for, and that succeeds, leaves a tree that can be
scanned again exactly when it has at most `MAX_ENTRIES` objects that a scan sees. -/
theorem rescan_iff [Sha256] {root : Root} {source : Manifest} {options : Options} {p : Plan}
    {contents : Entry → Bytes} {w w' : Disk} {s : Scan}
    (hscan : (scan root options.checksum).run exec w = (.ok s, w))
    (hp : plan source s.manifest options = .ok p)
    (hrun : (runPlan root source s.manifest p p.files contents).run exec w = (.ok (), w')) :
    (∃ s', (scan root options.checksum).run exec w' = (.ok s', w')) ↔ root.Bounded w'.tree := by
  have hok : ((scan root options.checksum).run exec w).1 = .ok s := by rw [hscan]
  obtain ⟨hclear, hbase⟩ := scan_clear hok
  obtain ⟨hleaves, hmakes, hputs⟩ := runPlan_leaves hp hrun
  constructor
  · rintro ⟨s', hscan'⟩
    exact (scan_sound (congrArg Prod.fst hscan')).bounded
  · intro hbounded
    obtain ⟨s', hs'⟩ := scan_complete options.checksum
      (hleaves.scannable hp (scan_sound hok) hmakes hputs hbounded)
      (hleaves.clear (plan_ok.mp hp).1 hclear) hbase
    exact ⟨s', Prod.ext hs' ((quiet_of_reads calls_scan).run_snd w')⟩

/-- A small run, after which the destination can be scanned. -/
theorem rescan_iff_small : ∃ w', (smallRun smallDestination).run exec smallDisk = (.ok (), w') ∧
    ((∃ s', (@scan emptySha Root.opened true).run exec w' = (.ok s', w')) ↔
      Root.opened.Bounded w'.tree) := by
  let := emptySha
  obtain ⟨s, hs, hm⟩ := small_scan
  have hok : ((smallRun smallDestination).run exec smallDisk).1 = .ok () := by decide +kernel
  have hrun : (smallRun smallDestination).run exec smallDisk
      = (.ok (), ((smallRun smallDestination).run exec smallDisk).2) := Prod.ext hok rfl
  have hp : plan smallSource s.manifest smallOptions = .ok smallPlan := hm ▸ small_plan
  refine ⟨_, hrun, @rescan_iff emptySha _ _ smallOptions _ (fun _ => []) _ _ _ hs hp ?_⟩
  rw [hm]
  exact hrun

/-! ### A destination that is full -/

/-- A destination with `n` directories in it. -/
def crowded : Nat → Disk
  | 0 => .empty
  | n + 1 => (exec (.mkdir [] (hex8 n).utf8) (crowded n)).2

/-- The view of the directories. -/
def crowdedView (n : Nat) : View := fun q =>
  if q = [] ∨ ∃ i, i < n ∧ q = (hex8 i).utf8 then some Core.dir else none

/-- A tree with very many directories shows all of them. -/
theorem crowded_shows {n : Nat} (hn : n ≤ 2 ^ 32) :
    (crowded n).Shows (crowdedView n) ∧ (crowded n).temp = none := by
  induction n with
  | zero =>
    refine ⟨⟨fun _ => rfl, ?_⟩, rfl⟩
    funext q
    unfold crowdedView Tree.view
    by_cases hq : q = []
    · subst hq
      rw [if_pos (Or.inl rfl)]
      rfl
    · rw [if_neg (by simp [hq]), Option.map_eq_none_iff]
      exact Tree.get_empty hq
  | succ n ih =>
    obtain ⟨hw, htemp⟩ := ih (by omega)
    have hroot : crowdedView n [] = some Core.dir := if_pos (Or.inl rfl)
    have hname := nameOk_hex8 n
    have hjoin : join [] (hex8 n).utf8 = (hex8 n).utf8 := SepPath.join_nil_left
    -- The next name is not taken, since all numbers have different names.
    have hnone : crowdedView n (join [] (hex8 n).utf8) = none := by
      rw [hjoin]
      refine if_neg ?_
      rintro (h | ⟨i, hi, h⟩)
      · exact hname.1 h
      · have := hex8_injective (by omega) (by omega) (String.utf8_injective h)
        omega
    obtain ⟨w', hc, hw', htemp'⟩ := exec_mkdir hw hname hroot hnone
    have hnext : crowded (n + 1) = w' := congrArg Prod.snd hc
    refine ⟨?_, hnext ▸ htemp'.trans htemp⟩
    rw [hnext]
    have hview : Function.update (crowdedView n) (join [] (hex8 n).utf8) (some Core.dir)
        = crowdedView (n + 1) := by
      funext q
      rw [hjoin, Function.update_apply]
      unfold crowdedView
      by_cases hq : q = (hex8 n).utf8
      · rw [if_pos hq, if_pos (Or.inr ⟨n, Nat.lt_succ_self n, hq⟩)]
      · rw [if_neg hq]
        refine if_congr (or_congr_right ⟨?_, ?_⟩) rfl rfl
        · rintro ⟨i, hi, h⟩
          exact ⟨i, by omega, h⟩
        · rintro ⟨i, hi, h⟩
          have hne : i ≠ n := fun h0 => hq (h0 ▸ h)
          exact ⟨i, by omega, h⟩
    exact hview ▸ hw'

/-- It has nothing else. -/
theorem crowded_get {n : Nat} (hn : n ≤ 2 ^ 32) {q : Path} {node : Node} (hq : q ≠ [])
    (h : (crowded n).tree.get q = some node) :
    node.body = .directory ∧ ∃ i, i < n ∧ q = (hex8 i).utf8 := by
  have hv : crowdedView n q = some node.core := by
    rw [← (crowded_shows hn).1.view]
    simp [Tree.view, h]
  unfold crowdedView at hv
  split at hv
  · next hor =>
    exact ⟨Node.core_eq_dir.mp (Option.some.inj hv).symm, hor.resolve_left hq⟩
  · cases hv

/-- It is within the limit while the limit is not exceeded. -/
theorem crowded_bounded {n : Nat} (hn : n ≤ maxEntries) : Root.opened.Bounded (crowded n).tree := by
  have hle : maxEntries ≤ 2 ^ 32 := by decide
  intro qs hnodup hqs
  have hsub : qs ⊆ (List.range n).map fun i => (hex8 i).utf8 := by
    intro q hq
    obtain ⟨hq0, hsome, -⟩ := hqs q hq
    obtain ⟨node, hnode⟩ := Option.isSome_iff_exists.mp hsome
    rw [show join Root.opened.base.utf8 q = q from SepPath.join_nil_left] at hnode
    obtain ⟨-, i, hi, rfl⟩ := crowded_get (by omega) hq0 hnode
    exact List.mem_map_of_mem (List.mem_range.mpr hi)
  have := (List.subperm_of_subset hnodup hsub).length_le
  rw [List.length_map, List.length_range] at this
  omega

/-- Then it can be scanned. -/
theorem crowded_scannable {n : Nat} (hn : n ≤ maxEntries) :
    Scannable false Root.opened (crowded n).tree := by
  have hle : maxEntries ≤ 2 ^ 32 := by decide
  refine ⟨fun q node hq hnode _ => ?_, crowded_bounded hn⟩
  rw [show join Root.opened.base.utf8 q = q from SepPath.join_nil_left] at hnode
  obtain ⟨hb, i, -, rfl⟩ := crowded_get (by omega) hq hnode
  refine ⟨hex8 i, rfl, validate_hex8 i, fun _ => ⟨validate_hex8 i, ?_⟩, fun hk => ?_⟩
  · rw [opened_pathOf]
    exact length_of_validate (validate_hex8 i)
  · have htype := kindOf_eq_file hk
    rw [show node.metadata.type = node.body.type from rfl, hb] at htype
    cases htype

/-- A source with one directory in it. -/
def smallFolder : Manifest := ⟨[⟨"z", .directory, 0, 0, 0, none⟩]⟩

/-- The scan of the small source. -/
theorem smallFolder_scan : ∃ w₀ s₀, (@scan emptySha Root.opened false).run exec w₀ = (.ok s₀, w₀) ∧
    s₀.manifest = smallFolder := by
  let := emptySha
  let w₀ := (exec (.mkdir [] "z".utf8) .empty).2
  have h : ((scan Root.opened false).run exec w₀).1.map Scan.manifest = .ok smallFolder := by
    decide +kernel
  cases hs : ((scan Root.opened false).run exec w₀).1 with
  | error e =>
    rw [hs] at h
    cases h
  | ok s₀ =>
    rw [hs] at h
    exact ⟨w₀, s₀, Prod.ext hs ((quiet_of_reads calls_scan).run_snd _), Except.ok.inj h⟩

/-- A name in the root is visible. -/
theorem visible_of_name {n : Path} (hn : NameOk n) : Visible n := fun _ hb hne =>
  absurd (hb.sep_mem (Ne.symm hne)) hn.2.1

/-- Names of the directories have eight bytes. -/
theorem crowded_length {n : Nat} (hn : n ≤ 2 ^ 32) {q : Path} {node : Node} (hq : q ≠ [])
    (h : (crowded n).tree.get q = some node) : q.length = 8 := by
  obtain ⟨-, i, -, rfl⟩ := crowded_get hn hq h
  exact length_hex8 i

/-- With one more directory, `MAX_ENTRIES` of them are too many. -/
theorem crowded_overfull {n : Nat} (hle : n ≤ 2 ^ 32) (hn : maxEntries ≤ n) {t : Tree}
    (hnew : (t.get "z".utf8).isSome) (hkept : ∀ i, i < n → (t.get (hex8 i).utf8).isSome) :
    ¬ Root.opened.Bounded t := by
  intro hb
  have hlen := hb ("z".utf8 :: (List.range n).map fun i => (hex8 i).utf8) ?_ ?_
  · rw [List.length_cons, List.length_map, List.length_range] at hlen
    omega
  · -- All the names are different.
    refine List.nodup_cons.mpr ⟨fun hz => ?_, List.Nodup.map_on ?_ List.nodup_range⟩
    · obtain ⟨i, -, hi⟩ := List.mem_map.mp hz
      have := congrArg List.length hi
      rw [length_hex8] at this
      exact absurd this (by decide)
    · intro i hi j hj hij
      rw [List.mem_range] at hi hj
      exact hex8_injective (by omega) (by omega) (String.utf8_injective hij)
  · intro q hq
    rw [show join Root.opened.base.utf8 q = q from SepPath.join_nil_left]
    rcases List.mem_cons.mp hq with rfl | hq
    · exact ⟨by decide, hnew, visible_of_name (by decide)⟩
    · obtain ⟨i, hi, rfl⟩ := List.mem_map.mp hq
      have hname := nameOk_hex8 i
      exact ⟨hname.1, hkept i (List.mem_range.mp hi), visible_of_name hname⟩

/-- The small source has only a directory. -/
theorem smallFolder_directory : ∀ e ∈ smallFolder.entries, e.kind = .directory := by decide

section
variable [Sha256] {n : Nat} {s : Scan} {p : Plan}

/-- Nothing is in the place of the new directory. -/
theorem smallFolder_free (hn : n ≤ 2 ^ 32) (hs : s.Of false Root.opened (crowded n).tree) :
    s.manifest.get? "z" = none := by
  rw [Manifest.get?_eq_none]
  intro x hx hpath
  obtain ⟨node, hnode, -⟩ := hs.mirrors.entry x hx
  rw [opened_pathOf, hpath] at hnode
  exact absurd (crowded_length hn (by decide) hnode) (by decide)

/-- So it can be planned for. -/
theorem smallFolder_plan (hn : n ≤ 2 ^ 32) (hs : s.Of false Root.opened (crowded n).tree) :
    ∃ p, plan smallFolder s.manifest ⟨false, false, false⟩ = .ok p := by
  have hsrc : smallFolder.validate false = .ok () := by decide +kernel
  refine ⟨_, plan_ok.mpr ⟨Manifest.validate_ok.mp hsrc, hs.valid, fun e he hc => ?_, rfl⟩⟩
  obtain rfl := List.mem_singleton.mp he
  simp [clashes, smallFolder_free hn hs] at hc

/-- No file has to be delivered for it. -/
theorem smallFolder_start (hs : s.Of false Root.opened (crowded n).tree)
    (hp : plan smallFolder s.manifest ⟨false, false, false⟩ = .ok p) :
    Start Root.opened smallFolder s.manifest ⟨false, false, false⟩ p (fun _ => [])
      (crowded n).tree := by
  refine Start.of hp hs.mirrors opened_clear (Nat.zero_le _) (opened_holds (plan_ok.mp hp).1)
    (opened_holds hs.valid) fun i hi e he => ?_
  obtain ⟨e', he', ht⟩ := (mem_files hp).mp hi
  have := (live_of_transfers ht).2
  rw [smallFolder_directory e' (List.mem_of_getElem? he')] at this
  cases this

/-- The new directory is not kept back for a guarded path: those have longer names. -/
theorem smallFolder_makes (hn : n ≤ 2 ^ 32) (hs : s.Of false Root.opened (crowded n).tree) :
    makes (guardedPaths smallFolder s.manifest) ⟨"z", .directory, 0, 0, 0, none⟩ = true := by
  have hfar : ∀ g ∈ guardedPaths smallFolder s.manifest, ¬ below "z" g = true := by
    intro g hg hb
    obtain ⟨x, hx | hx, hk, rfl⟩ := mem_guardedPaths.mp hg
    · rw [smallFolder_directory x hx] at hk
      cases hk
    · obtain ⟨node, hnode, -⟩ := hs.mirrors.entry x hx
      rw [opened_pathOf] at hnode
      have hlen := (below_iff.mp hb).isPrefix.length_le
      rw [crowded_length hn (hs.valid.path_ne_nil hx) hnode] at hlen
      exact absurd hlen (by decide)
  simpa [makes, live] using hfar

/-- The run makes the new directory and keeps the others. -/
theorem smallFolder_run (hn : n ≤ 2 ^ 32) (hs : s.Of false Root.opened (crowded n).tree)
    (hp : plan smallFolder s.manifest ⟨false, false, false⟩ = .ok p) :
    ∃ w', (runPlan Root.opened smallFolder s.manifest p p.files fun _ => []).run exec (crowded n)
        = (.ok (), w') ∧
      (w'.tree.get "z".utf8).isSome ∧ ∀ i, i < n → (w'.tree.get (hex8 i).utf8).isSome := by
  obtain ⟨hshows, htemp⟩ := crowded_shows hn
  have hstart := smallFolder_start hs hp
  have hcalm : (crowded n).Shows (crowded n).tree.view := ⟨hshows.calm, rfl⟩
  obtain ⟨⟨⟩, w', hrun, hgoal, -⟩ := (hstart.does_runPlan hcalm htemp).run
  refine ⟨w', hrun, ?_, fun i hi => ?_⟩
  · have hdirs := goal_makes hstart (v := (crowded n).tree.view) (List.mem_singleton_self _)
      (smallFolder_makes hn hs)
    rw [opened_pathOf] at hdirs
    obtain ⟨node, hnode, -⟩ := hgoal.get hdirs
    rw [hnode]
    rfl
  · -- Without deletion nothing is removed.
    have hmoment := Prog.moment_run exec
      (runPlan Root.opened smallFolder s.manifest p p.files fun _ => []) (crowded n)
    rw [hrun] at hmoment
    have hkept := ((runPlan_spares_guarded hp (fun _ h => h) hmoment).2.2 rfl).2
    have hv : (crowded n).tree.view (hex8 i).utf8 = some Core.dir := by
      rw [hshows.view]
      exact if_pos (Or.inr ⟨i, hi, rfl⟩)
    obtain ⟨node, hnode, -⟩ := hshows.get (by rw [← hshows.view]; exact hv)
    obtain ⟨node', hnode', -⟩ := hkept _ node hnode
    rw [hnode']
    rfl

end

/-- A destination of `MAX_ENTRIES` objects takes one more in a run without deletion, and cannot be
scanned again. -/
theorem rescan_full : ∃ (w₀ w w' : Disk) (s₀ s : Scan) (p : Plan) (e : Error),
    (@scan emptySha Root.opened false).run exec w₀ = (.ok s₀, w₀) ∧
    (@scan emptySha Root.opened false).run exec w = (.ok s, w) ∧
    plan s₀.manifest s.manifest ⟨false, false, false⟩ = .ok p ∧
    (@runPlan emptySha Root.opened s₀.manifest s.manifest p p.files fun _ => []).run exec w
      = (.ok (), w') ∧
    (@scan emptySha Root.opened false).run exec w' = (.error e, w') := by
  let := emptySha
  -- The number is not to be evaluated.
  obtain ⟨n, hn⟩ : ∃ n, n = maxEntries := ⟨_, rfl⟩
  have hle : n ≤ 2 ^ 32 := hn ▸ by decide
  obtain ⟨w₀, s₀, hscan₀, hm⟩ := smallFolder_scan
  obtain ⟨s, hs⟩ := scan_complete false (crowded_scannable (Nat.le_of_eq hn)) opened_clear
    (Nat.zero_le _)
  have hof := scan_sound hs
  have hscan : (scan Root.opened false).run exec (crowded n) = (.ok s, crowded n) :=
    Prod.ext hs ((quiet_of_reads calls_scan).run_snd _)
  obtain ⟨p, hp⟩ := smallFolder_plan hle hof
  obtain ⟨w', hrun, hnew, hkept⟩ := smallFolder_run hle hof hp
  have hfull := crowded_overfull hle (Nat.le_of_eq hn.symm) hnew hkept
  cases hs' : ((scan Root.opened false).run exec w').1 with
  | ok s' =>
    have hscan' : (scan Root.opened false).run exec w' = (.ok s', w') :=
      Prod.ext hs' ((quiet_of_reads calls_scan).run_snd w')
    exact absurd ((@rescan_iff emptySha Root.opened smallFolder ⟨false, false, false⟩ p (fun _ => [])
      (crowded n) w' s hscan hp hrun).mp ⟨s', hscan'⟩) hfull
  | error e =>
    exact ⟨w₀, crowded n, w', s₀, s, p, e, hscan₀, hscan, hm ▸ hp, hm ▸ hrun,
      Prod.ext hs' ((quiet_of_reads calls_scan).run_snd w')⟩

end RrSync

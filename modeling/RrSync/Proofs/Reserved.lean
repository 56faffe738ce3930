import RrSync.Proofs.RefinementV2

/-!
# `RrSync.Proofs.Reserved`: reserved names

The components that begin with `.rrsync-` are reserved. The manifests are checked for them,
and the scan protects them, but the path of a START is not checked: a push with a reserved
name in this path works on reserved objects (`reserved_start_creates`). In a run without such
a START no object with a reserved name in its path is changed (`reserved_untouched`).
-/

set_option autoImplicit false

namespace RrSync

open Lib

/-- No component of the path begins with `.rrsync-`. -/
abbrev Unreserved (p : Path) : Prop := SepPath.Clean (fun c => reserved c = false) slash p

instance (p : Path) : Decidable (Unreserved p) :=
  inferInstanceAs (Decidable (∀ c ∈ p.splitOn slash, reserved c = false))

/-- The root is not reserved. -/
theorem unreserved_nil : Unreserved [] := (SepPath.clean_of_notMem (by simp)).mpr rfl

/-- What is above an unreserved path is unreserved. -/
theorem Unreserved.dirName {p : Path} (h : Unreserved p) : Unreserved (dirName p) := by
  by_cases hs : slash ∈ p
  · exact SepPath.Clean.dirName hs h
  · have hd : RrSync.dirName p = [] := SepPath.dirName_of_notMem fun hm => hs (List.mem_of_mem_tail hm)
    rw [hd]
    exact unreserved_nil

/-- So is a path that is joined of two. -/
theorem Unreserved.join {a b : Path} (ha : Unreserved a) (hb : Unreserved b) :
    Unreserved (join a b) := by
  rcases SepPath.Clean.join (Or.inr ha) (Or.inr hb) with h | h
  · rw [show RrSync.join a b = [] from h]
    exact unreserved_nil
  · exact h

/-- An entry that is not protected has no reserved name in its path. -/
theorem Manifest.Valid.path_unreserved {checksum : Bool} {m : Manifest} (h : m.Valid checksum)
    {e : Entry} (he : e ∈ m.entries) (hk : e.kind ≠ .guarded) : Unreserved e.path.utf8 := by
  intro c hc
  have hany := mt (h.entry e he).reserved hk
  rw [Bool.not_eq_true, List.any_eq_false] at hany
  simpa using hany c hc

/-! ### The steps of a session -/

/-- The effects that leave everything with a reserved name in its path alone. -/
def sheltering : Effect := fun q old new => ¬ Unreserved q → new = old

section
variable {q : Path}

/-- An unreserved directory may get a new time. -/
theorem sheltering_stamps (h : Unreserved q) : sheltering.Stamps q := fun _ _ _ hn => absurd h hn

/-- An unreserved path may be made. -/
theorem sheltering_makesTo (h : Unreserved q) : sheltering.MakesTo q := by
  intro p _ hb
  have hp : Unreserved p := hb.clean h
  exact ⟨fun _ _ hn => absurd hp hn, sheltering_stamps hp.dirName⟩

/-- Entries without reserved names may go away below an unreserved root. -/
theorem sheltering_dropsAll {root : Root} (hroot : Unreserved root.base.utf8) {xs : List Entry}
    (h : ∀ x ∈ xs, Unreserved x.path.utf8) : sheltering.DropsAll root xs := by
  intro x hx
  have hp : Unreserved (root.pathOf x.path) := hroot.join (h x hx)
  exact ⟨sheltering_stamps hp.dirName, fun _ hn => absurd hp hn⟩

variable {s : Session} (hs : s.Coherent) (hroot : Unreserved s.root.base.utf8)
include hs hroot

/-- What a plan clears has no reserved names: no manifest lists them as anything but guarded. -/
theorem sheltering_conflict {e : Entry} (he : e ∈ s.source.entries) {xs : List Entry}
    (h : s.plan.conflict? e.path = some xs) : sheltering.DropsAll s.root xs := by
  obtain ⟨-, hdst, -, -⟩ := plan_ok.mp hs.planned
  rw [conflict?_eq hs.planned he] at h
  split at h
  · next hc =>
    obtain rfl := Option.some.inj h
    refine sheltering_dropsAll hroot fun x hx => ?_
    simp only [conflictEntries, List.mem_reverse, List.mem_filter] at hx
    have hb : Below x.path.utf8 e.path.utf8 := by
      have h := hx.2
      unfold below at h
      exact of_decide_eq_true h
    exact hdst.path_unreserved hx.1 (kind_of_clash_zone hs.planned he hc hx.1 hb)
  · cases h

/-- `prepare` changes nothing reserved. -/
theorem sheltering_prepare : Calls (FsCall.Safe sheltering)
    (do mark .prepare; prepare s.root s.source s.plan) := by
  obtain ⟨hsrc, -, -, -⟩ := plan_ok.mp hs.planned
  refine calls_sys (c := .mark _) (safe_quiet trivial fun _ _ _ h => h) fun _ => ?_
  refine calls_prepare ?_ fun i hi e he => ?_
  · have hbase : s.root.pathOf "" = s.root.base.utf8 := SepPath.join_nil_right
    rw [hbase]
    exact sheltering_makesTo hroot
  · obtain ⟨e', he', hm⟩ := (mem_directories hs.planned).mp hi
    obtain rfl := Option.some.inj (he.symm.trans he')
    have hmem := List.mem_of_getElem? he
    have hk : e.kind ≠ .guarded := by
      rw [(live_of_makes hm).2]
      nofun
    exact ⟨sheltering_makesTo (hroot.join (hsrc.path_unreserved hmem hk)),
      fun xs hx => sheltering_conflict hs hroot hmem hx⟩

/-- Neither does the install of a planned file. -/
theorem sheltering_install [Sha256] {i : Nat} (hi : i ∈ s.plan.files) {e e' : Entry}
    (he : s.source.entries[i]? = some e) (hpath : e'.path = e.path) {file : Bytes} :
    Calls (FsCall.Safe sheltering) (do
      mark (.install i file)
      install s.root e' s.destination s.plan file) := by
  obtain ⟨hsrc, -, -, -⟩ := plan_ok.mp hs.planned
  obtain ⟨x, hx, ht⟩ := (mem_files hs.planned).mp hi
  obtain rfl := Option.some.inj (he.symm.trans hx)
  have hmem := List.mem_of_getElem? he
  have hk : e.kind ≠ .guarded := by
    rw [(live_of_transfers ht).2]
    nofun
  -- The path of a live entry has no reserved component, and nor has that of the root.
  have hp : Unreserved (s.root.pathOf e'.path) := by
    rw [hpath]
    exact hroot.join (hsrc.path_unreserved hmem hk)
  refine calls_sys (c := .mark _) (safe_quiet trivial fun _ _ _ h => h) fun _ => ?_
  refine calls_install (sheltering_stamps hp.dirName) (fun _ _ _ _ _ hn => absurd hp hn)
    fun xs hx => ?_
  rw [hpath] at hx
  exact sheltering_conflict hs hroot hmem hx

/-- Neither does `finish`. -/
theorem sheltering_finish : Calls (FsCall.Safe sheltering)
    (do mark .finish; finish s.root s.source s.plan) := by
  obtain ⟨hsrc, hdst, -, -⟩ := plan_ok.mp hs.planned
  refine calls_sys (c := .mark _) (safe_quiet trivial fun _ _ _ h => h) fun _ => ?_
  refine calls_finish (sheltering_dropsAll hroot fun x hx => ?_) fun i hi e he => ?_
  · obtain ⟨hxd, hk, -⟩ := removal_facts hs.planned hx
    exact hdst.path_unreserved hxd hk
  · obtain ⟨e', he', hm⟩ := (mem_directories hs.planned).mp hi
    obtain rfl := Option.some.inj (he.symm.trans he')
    have hk : e.kind ≠ .guarded := by
      rw [(live_of_makes hm).2]
      nofun
    exact sheltering_stamps (hroot.join (hsrc.path_unreserved (List.mem_of_getElem? he) hk))

/-- So no step of a session with an unreserved root changes anything reserved. -/
theorem sheltering_steps [Sha256] (request : Message) :
    s.Steps (FsCall.Safe sheltering) request := by
  refine ⟨fun _ _ _ _ => sheltering_prepare hs hroot, ?_,
    fun _ _ _ _ => sheltering_finish hs hroot⟩
  rintro i resource f e rfl ha - - he
  exact sheltering_install hs hroot ha.1.2.1 he rfl

/-- The same for the steps of the second engine. -/
theorem sheltering_stepsV2 [Sha256] (request : V2.Message) :
    V2.Steps (FsCall.Safe sheltering) s request :=
  ⟨fun _ _ _ => sheltering_prepare hs hroot,
    fun _ i e hash file _ _ _ hi he =>
      @sheltering_install s hs hroot _ i hi e { e with hash := some hash } he rfl file⟩

end

/-! ### Runs -/

/-- When every call of a run leaves something as it is, the run does. -/
theorem events_untouched {σ ι ο β : Type} {step : σ → ι → ο × σ} (view : σ → β) {s : σ}
    {is : List ι} (h : ∀ e ∈ events step s is, view e.post = view e.pre) :
    ∀ e ∈ events step s is, view e.pre = view s := by
  intro e he
  obtain ⟨past, fut, hsplit⟩ := List.append_of_mem he
  have hinv := events_history (fun past t => (∀ x ∈ past, view x.post = view x.pre) → view t = view s)
    (fun _ => rfl) (fun past t i ih hpast => ?_) hsplit
  · exact hinv.1 fun x hx => h x (by rw [hsplit]; exact List.mem_append_left _ hx)
  · rw [List.forall_mem_append] at hpast
    have hlast : view (step t i).2 = view t := hpast.2 _ (List.mem_singleton_self _)
    exact hlast.trans (ih hpast.1)

/-- A START that opens a push session that is no dry run, with a reserved name in its path. It comes
with full permission while no session is active, and it passes the checks of the server: its path
names a directory in the export, the scan succeeds and the manifests have a plan. -/
def Intrudes [Sha256] (st : Server × Disk) (i : Input) : Prop :=
  ∃ now connection options path manifest root scan p,
    i = .handle now connection .full (.start true options path manifest) ∧
      st.1.session = none ∧ options.dryRun = false ∧ ¬ Unreserved path.utf8 ∧
      Root.opened.subtree path = .ok root ∧
      ((RrSync.scan root options.checksum).run exec st.2).1 = .ok scan ∧
      plan manifest scan.manifest options = .ok p

/-- The same for the second server. -/
def V2.Intrudes [Sha256] (st : V2.Server × Disks) (i : V2.Input) : Prop :=
  ∃ now connection peer options path manifest root scan p,
    i = .handle now connection peer .full (.common (.start true options path manifest)) ∧
      st.1.base.session = none ∧ options.dryRun = false ∧ ¬ Unreserved path.utf8 ∧
      Root.opened.subtree path = .ok root ∧
      ((RrSync.scan root options.checksum).run exec (st.2 .tree)).1 = .ok scan ∧
      plan manifest scan.manifest options = .ok p

/-- The plan of a push session is that of the manifest of its START and the scan of the server. -/
theorem planned_from {s : Session} {root : Root} {o : Origin} (hs : s.Coherent) (ho : s.From root o)
    (hpush : s.push = true) : plan o.manifest s.scan.manifest s.options = .ok s.plan := by
  have hsource := ho.source
  have hown := hs.own
  rw [if_pos hpush] at hsource hown
  rw [← hsource, hown]
  exact hs.planned

/-- At the top of a volume, a path is itself. -/
theorem pathOf_opened (path : String) : Root.opened.pathOf path = path.utf8 :=
  SepPath.join_nil_left

section
variable [Sha256]

/-- A call in a run without such a START leaves every reserved object alone. -/
theorem untouched_of_run {w : Disk} {is : List Input} {past fut : List Occurrence}
    {e : Occurrence} (h : events step (⟨.opened, none⟩, w) is = past ++ e :: fut)
    (hpast : ∀ x ∈ past, ¬ Intrudes x.pre x.input) {w' : Disk} (hw : During e.pre w' e.input)
    {q : Path} (hq : ¬ Unreserved q) : w'.tree.get q = e.pre.2.tree.get q := by
  by_cases hreal : ∃ s ∈ e.pre.1.session, s.push = true ∧ s.options.dryRun = false
  · obtain ⟨s, hs, hpush, hreal⟩ := hreal
    obtain ⟨hcoh, -, -⟩ := session_began h
    obtain ⟨before, first, hsplit, ⟨o, hbegan⟩, hsince⟩ := runs_of_run h s hs
    obtain ⟨ho, -, hidle, now, permission, hfull, hi⟩ := hbegan
    -- Otherwise the START of this session would have been an intruder.
    have hroot : Unreserved s.root.base.utf8 := by
      rw [Root.subtree_base ho.under, pathOf_opened]
      refine Decidable.not_not.mp fun hn => hpast first ?_ ?_
      · rw [hsplit]
        exact List.mem_append_right _ List.mem_cons_self
      · rw [hfull hpush, hpush] at hi
        exact ⟨now, s.connection, s.options, o.path, o.manifest, s.root, s.scan, s.plan, hi, hidle,
          hreal, hn, ho.under, congrArg Prod.fst hsince.scanned,
          planned_from (hcoh s hs).1 ho hpush⟩
    cases hi : e.input with
    | handle now connection permission request =>
      rw [hi] at hw
      have hissues : Server.Issues e.pre.1 (FsCall.Safe sheltering)
          (.handle now connection permission request) := by
        refine Server.issues_of_steps (fun _ hc => hc.safe) (fun s' hs' now request => ?_) _
        obtain rfl := Option.some.inj (hs.symm.trans hs')
        exact sheltering_steps ((hcoh s hs).1.touch now) hroot request
      exact frame_of_issues hissues (fun _ _ _ => rfl)
        (fun _ _ _ _ h h' hn => (h' hn).trans (h hn)) (fun c hc => hc.2) hw q hq
    | _ =>
      rw [hi] at hw
      exact congrArg (fun w : Disk => w.tree.get q) hw
  -- Without a push that is no dry run nothing changes at all.
  · refine congrArg (fun t : Tree => t.get q) ((frame_of_run h).still (fun s hs => ?_) w' hw)
    cases hpush : s.push with
    | false => exact .inl rfl
    | true =>
      refine .inr (Decidable.not_not.mp fun hn => hreal ⟨s, hs, hpush, by simpa using hn⟩)

/-- The same for the second server. -/
theorem V2.untouched_of_run {cache : Cache} {w : Disks} {is : List V2.Input}
    {past fut : List V2.Occurrence} {e : V2.Occurrence}
    (h : events V2.step (.new .opened cache, w) is = past ++ e :: fut)
    (hpast : ∀ x ∈ past, ¬ V2.Intrudes x.pre x.input) {w' : Disks}
    (hw : V2.During e.pre w' e.input) {q : Path} (hq : ¬ Unreserved q) :
    (w' .tree).tree.get q = (e.pre.2 .tree).tree.get q := by
  by_cases hreal : ∃ s ∈ e.pre.1.base.session, s.push = true ∧ s.options.dryRun = false
  · obtain ⟨s, hs, hpush, hreal⟩ := hreal
    obtain ⟨hcoh, -, -⟩ := V2.session_began h
    obtain ⟨before, first, hsplit, ⟨o, hbegan⟩, hsince⟩ := V2.ran_of_run h s hs
    obtain ⟨ho, -, hidle, now, peer, permission, hfull, hi⟩ := hbegan
    -- Otherwise the START of this session would have been an intruder.
    have hroot : Unreserved s.root.base.utf8 := by
      rw [Root.subtree_base ho.under, pathOf_opened]
      refine Decidable.not_not.mp fun hn => hpast first ?_ ?_
      · rw [hsplit]
        exact List.mem_append_right _ List.mem_cons_self
      · rw [hfull hpush, hpush] at hi
        exact ⟨now, s.connection, peer, s.options, o.path, o.manifest, s.root, s.scan, s.plan, hi,
          hidle, hreal, hn, ho.under, congrArg Prod.fst hsince.scanned,
          planned_from (hcoh.base s hs).1 ho hpush⟩
    have hissues : V2.Server.Issues e.pre.1 (fun
        | .tree, c => c.Safe sheltering
        | .cache, c => c.Rooted) e.input := by
      refine V2.Server.issues_of_steps hcoh
        (fun v c hc => by cases v with
          | tree => exact hc.safe
          | cache => exact hc.rooted) (fun _ hc => hc) (fun s' hs' now request => ?_)
        (fun s' hs' now => ?_) _
      · obtain rfl := Option.some.inj (hs.symm.trans hs')
        exact sheltering_stepsV2 ((hcoh.base s hs).1.touch now) hroot request
      · obtain rfl := Option.some.inj (hs.symm.trans hs')
        exact sheltering_steps ((hcoh.base s hs).1.touch now) hroot _
    -- Only the calls on the tree matter.
    rcases V2.moment_of_during hw hissues with rfl | ⟨α, m, hm, hw⟩
    · rfl
    · exact frame_of_volCalls hm (fun _ _ _ => rfl)
        (fun _ _ _ _ h h' hn => (h' hn).trans (h hn)) (fun c hc => hc.2) hw q hq
  · refine congrArg (fun t : Tree => t.get q) ((V2.frame_of_run h).still (fun s hs => ?_) w' hw)
    cases hpush : s.push with
    | false => exact .inl rfl
    | true =>
      refine .inr (Decidable.not_not.mp fun hn => hreal ⟨s, hs, hpush, by simpa using hn⟩)

/-- Without a push START to a path with a reserved name, no object with such a name in its path
is created, overwritten or removed, at any moment of a run of one of the servers. -/
theorem reserved_untouched (cache : Cache) (w : Disk) (ws : Disks) (is : List Input)
    (js : List V2.Input) :
    ((∀ e ∈ events step (⟨.opened, none⟩, w) is, ¬ Intrudes e.pre e.input) →
      ∀ e ∈ events step (⟨.opened, none⟩, w) is, ∀ w', During e.pre w' e.input →
        ∀ q, ¬ Unreserved q → w'.tree.get q = w.tree.get q) ∧
    ((∀ e ∈ events V2.step (.new .opened cache, ws) js, ¬ V2.Intrudes e.pre e.input) →
      ∀ e ∈ events V2.step (.new .opened cache, ws) js, ∀ w', V2.During e.pre w' e.input →
        ∀ q, ¬ Unreserved q → (w' .tree).tree.get q = (ws .tree).tree.get q) := by
  constructor
  · intro h
    have hcall {e w' q} (he : e ∈ events step (⟨.opened, none⟩, w) is)
        (hw : During e.pre w' e.input) (hq : ¬ Unreserved q) :
        w'.tree.get q = e.pre.2.tree.get q := by
      obtain ⟨past, fut, hsplit⟩ := List.append_of_mem he
      refine untouched_of_run hsplit (fun x hx => h x ?_) hw hq
      rw [hsplit]
      exact List.mem_append_left _ hx
    intro e he w' hw q hq
    refine (hcall he hw hq).trans ?_
    -- Each call leaves the path, so it is as at the start.
    refine events_untouched (fun st : Server × Disk => st.2.tree.get q) (fun x hx => ?_) e he
    exact hcall hx (during_post (events_coherent hx).2) hq
  · intro h
    have hcall {e w' q} (he : e ∈ events V2.step (.new .opened cache, ws) js)
        (hw : V2.During e.pre w' e.input) (hq : ¬ Unreserved q) :
        (w' .tree).tree.get q = (e.pre.2 .tree).tree.get q := by
      obtain ⟨past, fut, hsplit⟩ := List.append_of_mem he
      refine V2.untouched_of_run hsplit (fun x hx => h x ?_) hw hq
      rw [hsplit]
      exact List.mem_append_left _ hx
    intro e he w' hw q hq
    refine (hcall he hw hq).trans ?_
    refine events_untouched (fun st : V2.Server × Disks => (st.2 .tree).tree.get q)
      (fun x hx => ?_) e he
    exact hcall hx (V2.during_post (V2.events_coherent hx).2.2) hq

end

/-- Nothing with a reserved name appears in the run of the small push. -/
theorem reserved_untouched_small :
    ((smallPushed .full).get ⟨7, by decide⟩).post.2.tree.get ".rrsync-x".utf8
      = smallDisk.tree.get ".rrsync-x".utf8 := by
  have hrun := (@reserved_untouched emptySha ⟨"export", none⟩ smallDisk V2.smallServer.2
    (smallPush .full) []).1 (by
      intro e he hi
      obtain ⟨now, connection, options, path, manifest, -, -, -, hi, -, -, hn, -⟩ := hi
      have hmem : e.input ∈ smallPush .full := by
        simp only [smallPush, events, List.mem_cons, List.not_mem_nil, or_false] at he
        rcases he with rfl | rfl | rfl | rfl | rfl | rfl | rfl | rfl <;> simp [event, smallPush]
      rw [hi] at hmem
      simp only [smallPush, List.mem_cons, Input.handle.injEq, Message.start.injEq, List.not_mem_nil,
        reduceCtorEq, and_false, or_false] at hmem
      obtain ⟨-, -, -, -, -, rfl, -⟩ := hmem
      exact hn unreserved_nil)
  exact hrun _ (List.get_mem (smallPushed .full) ⟨7, by decide⟩) _
    (@during_post emptySha _ rfl) _ (by decide +kernel)

/-- A push to a path with a reserved name, up to the first BEGIN. -/
def reservedPush : List Input :=
  [.handle 0 smallConnection .full (.start true smallOptions ".rrsync-x" smallSource),
    .handle 1 smallConnection .full (.begin 1)]

/-- It creates the reserved directory of its path. -/
theorem reserved_start_creates :
    ¬ Unreserved ".rrsync-x".utf8 ∧ (smallDisk.tree.get ".rrsync-x".utf8).isNone ∧
    ((after (@step emptySha) (⟨.opened, none⟩, smallDisk) reservedPush).2.tree.get
      ".rrsync-x".utf8).isSome := by
  decide +kernel

end RrSync

import RrSync.Proofs.AuthorityV2
import RrSync.Proofs.RequestsV2
import RrSync.Proofs.Uploads

/-!
# `RrSync.Proofs.Confined`: the frame of a session

A push session changes the paths of the two manifests under its START path and makes the
directories that lead to them. Everything else keeps its contents, and a time changes only in
the parent of such a path. Any other session only looks. `session_frame` says so of every run
of both servers, and that every path handed to the kernel is made of names.

`Occurrence.Opens` ties a session to the START it comes from: the path, the manifest of the
client and the scan in the reply.
-/

set_option autoImplicit false

namespace RrSync

open Lib

/-! ### Confined effects -/

/-- The path of one of the entries, under the directory `b`. -/
def Named (b : Path) (entries : List Entry) (q : Path) : Prop :=
  ∃ x ∈ entries, q = join b x.path.utf8

/-- A directory on the way to `b`, or `b`. -/
def Leads (b q : Path) : Prop := q ≠ [] ∧ Below b q

/-- A listed path may change. A directory that leads to one may appear. The time of a parent
of these may change. -/
def confined (b : Path) (entries : List Entry) : Effect := fun q old new =>
  Named b entries q ∨
  (Leads b q ∧ old = none ∧ ∃ n, new = some n ∧ n.body = .directory) ∨
  new.map Node.body = old.map Node.body ∧
    (new = old ∨ ∃ c, (Named b entries c ∨ Leads b c) ∧ dirName c = q)

section
variable {b : Path} {entries : List Entry} {q : Path}

/-- Nothing at all is confined. -/
theorem confined_refl (x : Option Node) : confined b entries q x x := .inr (.inr ⟨rfl, .inl rfl⟩)

/-- Two changes of one object that are confined. -/
theorem confined_trans {x y z : Option Node} (h : confined b entries q x y)
    (h' : confined b entries q y z) : confined b entries q x z := by
  -- A change of the time keeps a directory a directory.
  have hdir {u v : Option Node} (hu : ∃ n, u = some n ∧ n.body = .directory)
      (huv : v.map Node.body = u.map Node.body) : ∃ n, v = some n ∧ n.body = .directory := by
    obtain ⟨n, rfl, hn⟩ := hu
    obtain ⟨m, hm, hb⟩ := Option.map_eq_some_iff.mp huv
    exact ⟨m, hm, hb.trans hn⟩
  -- The first change is free, makes a directory, or is one of the time. In each case so is the
  -- second.
  rcases h with h | ⟨hl, hx, hy⟩ | ⟨hb, ht⟩
  · exact .inl h
  · rcases h' with h' | ⟨-, hy', -⟩ | ⟨hb', -⟩
    · exact .inl h'
    · obtain ⟨n, hn, -⟩ := hy
      rw [hy'] at hn
      cases hn
    · exact .inr (.inl ⟨hl, hx, hdir hy hb'⟩)
  · rcases h' with h' | ⟨hl, hy, hz⟩ | ⟨hb', ht'⟩
    · exact .inl h'
    · refine .inr (.inl ⟨hl, ?_, hz⟩)
      rw [hy] at hb
      exact Option.map_eq_none_iff.mp hb.symm
    · refine .inr (.inr ⟨hb'.trans hb, ?_⟩)
      rcases ht with rfl | ht
      · exact ht'
      · exact .inr ht

/-- The parent of a named object, or of one on the way to it, may get a new time. -/
theorem confined_stamps {c : Path} (hc : Named b entries c ∨ Leads b c) :
    (confined b entries).Stamps (dirName c) := by
  rintro _ _ ⟨n, n', rfl, rfl, hb⟩
  exact .inr (.inr ⟨congrArg some hb, .inr ⟨c, hc, rfl⟩⟩)

/-- What leads to a listed path is listed, or leads to the directory of the session. -/
theorem listed_or_leads (hclean : ∀ x ∈ entries, CleanPath x.path.utf8)
    (hparent : ∀ x ∈ entries, slash ∈ x.path.utf8 → ∃ d ∈ entries, d.path.utf8 = dirName x.path.utf8)
    {p : Path} (hp : Named b entries p ∨ Leads b p) (hq : q ≠ []) (hb : Below p q) :
    Named b entries q ∨ Leads b q := by
  refine hb.induction (P := fun p => p ≠ [] → Named b entries p ∨ Leads b p) ?_ (fun _ => hp) hq
  intro p hslash ih hne
  have hp : p ≠ [] := fun h => by rw [h] at hslash; cases hslash
  rcases ih hp with ⟨x, hx, rfl⟩ | ⟨-, hbelow⟩
  · rw [SepPath.dirName_join not_nameOk_nil (hclean x hx)] at hne ⊢
    by_cases hs : slash ∈ x.path.utf8
    · obtain ⟨d, hd, hpath⟩ := hparent x hx hs
      exact .inl ⟨d, hd, by rw [hpath]⟩
    · rw [(SepPath.dirName_eq_nil not_nameOk_nil (hclean x hx)).mpr hs, SepPath.join_nil_right]
        at hne ⊢
      exact .inr ⟨hne, .refl⟩
  · exact .inr ⟨hne, hbelow.trans (SepPath.below_dirName hslash)⟩

/-- More entries may be named. -/
theorem confined_mono {entries' : List Entry} (hmem : ∀ x ∈ entries, x ∈ entries')
    {x y : Option Node} (h : confined b entries q x y) : confined b entries' q x y := by
  have hnamed {c : Path} (hc : Named b entries c) : Named b entries' c := by
    obtain ⟨e, he, rfl⟩ := hc
    exact ⟨e, hmem e he, rfl⟩
  refine h.imp hnamed (Or.imp id fun ⟨hb, ht⟩ => ⟨hb, ht.imp id ?_⟩)
  rintro ⟨c, hc, hq⟩
  exact ⟨c, hc.imp hnamed id, hq⟩

/-- The same for a call. -/
theorem safe_confined_mono {entries' : List Entry} (hmem : ∀ x ∈ entries, x ∈ entries')
    {c : FsCall} (h : c.Safe (confined b entries)) : c.Safe (confined b entries') :=
  ⟨h.1, fun q x y hm => confined_mono hmem (h.2 q x y hm)⟩

/-- Named entries may be removed. -/
theorem confined_dropsAll {root : Root} {xs : List Entry} (hxs : ∀ x ∈ xs, x ∈ entries) :
    (confined root.base.utf8 entries).DropsAll root xs := by
  intro x hx
  have hl : Named root.base.utf8 entries (root.pathOf x.path) := ⟨x, hxs x hx, rfl⟩
  exact ⟨confined_stamps (.inl hl), fun _ => .inl hl⟩

end

/-! ### The steps of a plan -/

/-- The entries a plan speaks of. -/
def Plan.entries (p : Plan) (source : Manifest) : List Entry :=
  (p.directories ++ p.files).filterMap (source.entries[·]?) ++ p.removals
    ++ p.conflicts.flatMap Prod.snd

section
variable {p : Plan} {source destination : Manifest} {options : Options} {root : Root} {e : Entry}

/-- The directories and files of a plan are among its entries. -/
theorem Plan.mem_entries_of_index {i : Nat} (hi : i ∈ p.directories ++ p.files)
    (he : source.entries[i]? = some e) : e ∈ p.entries source :=
  List.mem_append_left _ (List.mem_append_left _ (List.mem_filterMap.mpr ⟨i, hi, he⟩))

/-- So are its removals. -/
theorem Plan.mem_entries_of_removal (he : e ∈ p.removals) : e ∈ p.entries source :=
  List.mem_append_left _ (List.mem_append_right _ he)

/-- So is what is cleared for a conflict. -/
theorem Plan.mem_entries_of_conflict {path : String} {xs : List Entry}
    (h : p.conflict? path = some xs) (he : e ∈ xs) : e ∈ p.entries source := by
  obtain ⟨l, r, hlr, -⟩ := List.lookup_eq_some_iff.mp h
  refine List.mem_append_right _ (List.mem_flatMap.mpr ⟨(path, xs), ?_, he⟩)
  rw [hlr]
  exact List.mem_append_right _ List.mem_cons_self

variable (hp : plan source destination options = .ok p)
include hp

/-- A plan speaks of entries of the two manifests. -/
theorem Plan.entries_listed (he : e ∈ p.entries source) :
    e ∈ source.entries ∨ e ∈ destination.entries := by
  rcases List.mem_append.mp he with he | he
  · rcases List.mem_append.mp he with he | he
    · obtain ⟨i, -, hi⟩ := List.mem_filterMap.mp he
      exact .inl (List.mem_of_getElem? hi)
    · exact .inr ((mem_removals hp).mp he).2.1
  · obtain ⟨⟨path, xs⟩, hxs, hx⟩ := List.mem_flatMap.mp he
    obtain ⟨c, -, -, rfl, rfl⟩ := (mem_conflicts hp).mp hxs
    exact .inr (mem_conflictEntries.mp hx).1

/-- What leads to a directory of the plan is one, or leads to the root. -/
theorem directory_or_leads (he : e ∈ source.entries)
    (hm : makes (guardedPaths source destination) e = true) {q : Path} (hq : q ≠ [])
    (hb : Below (root.pathOf e.path) q) :
    Named root.base.utf8 (p.entries source) q ∨ Leads root.base.utf8 q := by
  obtain ⟨hsrc, -, -, -⟩ := plan_ok.mp hp
  let made := source.entries.filter (makes (guardedPaths source destination))
  have hmade {x : Entry} : x ∈ made ↔
      x ∈ source.entries ∧ makes (guardedPaths source destination) x = true := List.mem_filter
  -- The directories of the plan are closed under parents, so what is above one is one, or leads to
  -- the root.
  have hled : Named root.base.utf8 made q ∨ Leads root.base.utf8 q :=
    listed_or_leads (fun x hx => hsrc.clean (hmade.mp hx).1) (fun x hx hsl => ?_)
      (p := root.pathOf e.path) (.inl ⟨e, hmade.mpr ⟨he, hm⟩, rfl⟩) hq hb
  · refine hled.imp ?_ id
    rintro ⟨x, hx, rfl⟩
    obtain ⟨hx, hm⟩ := hmade.mp hx
    obtain ⟨i, hi⟩ := List.mem_iff_getElem?.mp hx
    have hdir := (mem_directories hp).mpr ⟨x, hi, hm⟩
    exact ⟨x, p.mem_entries_of_index (List.mem_append_left _ hdir) hi, rfl⟩
  · -- The parent of a directory of the plan is live as well.
    obtain ⟨hx, hm⟩ := hmade.mp hx
    obtain ⟨d, hd, hpath, hk⟩ := hsrc.parent x hx hsl
    refine ⟨d, hmade.mpr ⟨hd, ?_⟩, hpath⟩
    have hb : Below x.path.utf8 d.path.utf8 := by
      rw [hpath]
      exact SepPath.below_dirName hsl
    have hlive := live_of_below (live_of_makes hm).1 hb
    rw [makes, hlive, hk]
    rfl

/-- A plan permits itself only changes of its own entries. -/
theorem permits_confined : Permits (confined root.base.utf8 (p.entries source)) root source
    destination options p := by
  -- The root and its parents, the directories of the plan, its files, its conflicts and its
  -- removals.
  refine ⟨fun q hq hb => ?_, fun e he hm => ⟨fun q hq hb => ?_, fun _ _ _ => ?_⟩,
    fun e he ht => ?_, fun e he xs hx => ?_, ?_⟩
  · have hbase : root.pathOf "" = root.base.utf8 := SepPath.join_nil_right
    rw [hbase] at hb
    exact ⟨fun n hn => .inr (.inl ⟨⟨hq, hb⟩, rfl, n, rfl, hn⟩), confined_stamps (.inr ⟨hq, hb⟩)⟩
  · have hled := directory_or_leads hp he hm hq hb
    refine ⟨fun n hn => ?_, confined_stamps hled⟩
    rcases hled with h | h
    · exact .inl h
    · exact .inr (.inl ⟨h, rfl, n, rfl, hn⟩)
  · obtain ⟨i, hi⟩ := List.mem_iff_getElem?.mp he
    have hdir := (mem_directories hp).mpr ⟨e, hi, hm⟩
    exact .inl ⟨e, p.mem_entries_of_index (List.mem_append_left _ hdir) hi, rfl⟩
  · obtain ⟨i, hi⟩ := List.mem_iff_getElem?.mp he
    have hfile := (mem_files hp).mpr ⟨e, hi, ht⟩
    have hl : Named root.base.utf8 (p.entries source) (root.pathOf e.path) :=
      ⟨e, p.mem_entries_of_index (List.mem_append_right _ hfile) hi, rfl⟩
    exact ⟨confined_stamps (.inl hl), fun _ _ _ _ _ => .inl hl⟩
  · exact confined_dropsAll fun x => p.mem_entries_of_conflict hx
  · exact confined_dropsAll fun x => p.mem_entries_of_removal

end

/-! ### The steps of a session -/

/-- The entries of both manifests of the session. -/
structure Session.Within (s : Session) (entries : List Entry) : Prop where
  source : ∀ x ∈ s.source.entries, x ∈ entries
  destination : ∀ x ∈ s.destination.entries, x ∈ entries

/-- What the steps of the plan of a session may do. -/
theorem Session.Coherent.calls_listed {s : Session} {entries : List Entry} (hs : s.Coherent)
    (hw : s.Within entries) {m : FsM Unit}
    (h : Calls (FsCall.Safe (confined s.root.base.utf8 (s.plan.entries s.source))) m) :
    Calls (FsCall.Safe (confined s.root.base.utf8 entries)) m :=
  h.mono fun _ hc => safe_confined_mono (fun x hx => (Plan.entries_listed hs.planned hx).elim
    (hw.source x) (hw.destination x)) hc

/-! ### The START of a session -/

/-- What a START brings: its path, the manifest of the client and the scan of the server. -/
structure Origin where
  path : String
  manifest : Manifest
  remote : Manifest

/-- The entries of both manifests. -/
def Origin.entries (o : Origin) : List Entry := o.manifest.entries ++ o.remote.entries

/-- The session works on the directory and on the manifests of the START. -/
structure Session.From (s : Session) (root : Root) (o : Origin) : Prop where
  under : root.subtree o.path = .ok s.root
  source : s.source = if s.push then o.manifest else o.remote
  destination : s.destination = if s.push then o.remote else o.manifest

/-- The root of a session is the path of START below the export. -/
theorem Root.subtree_base {root root' : Root} {path : String} (h : root.subtree path = .ok root') :
    root'.base.utf8 = root.pathOf path := by
  have hbase := root.base_subtree path
  rw [h] at hbase
  exact Root.full_utf8 hbase.symm

/-- What START has planned is what the session may change. -/
theorem Session.From.within {s : Session} {root : Root} {o : Origin} (h : s.From root o) :
    s.Within o.entries := by
  obtain ⟨-, hsrc, hdst⟩ := h
  cases hp : s.push <;> rw [hp] at hsrc hdst <;>
    refine ⟨fun x hx => ?_, fun x hx => ?_⟩ <;>
    simp_all [Origin.entries, or_comm]

/-- The call is the START of the session `s`. -/
def Occurrence.Began (e : Occurrence) (root : Root) (s : Session) (o : Origin) : Prop :=
  s.From root o ∧ e.output = .reply (.ok (.message (.manifest o.remote))) ∧
    e.pre.1.session = none ∧ ∃ now permission, (s.push = true → permission = .full) ∧ e.input
      = .handle now s.connection permission (.start s.push s.options o.path o.manifest)

section
variable [Sha256] {root : Root}

/-- A call starts a session, or the session after it is the one before it. -/
theorem step_session {st : Server × Disk} (hs : st.1.Coherent) (i : Input) :
    (step st i).2.1.root = st.1.root ∧
    ((Occurrence.starts (event step st i) = false ∧
      ∀ s' ∈ (step st i).2.1.session, ∃ s ∈ st.1.session, s'.fixed = s.fixed) ∨
    (Occurrence.starts (event step st i) = true ∧
      ∀ s' ∈ (step st i).2.1.session, ∃ o, Occurrence.Began (event step st i) st.1.root s' o)) := by
  -- Ending a session starts none.
  have hdisconnect (connection : ConnectionId) :
      ∀ s' ∈ (st.1.disconnect connection).session, ∃ s ∈ st.1.session, s'.fixed = s.fixed :=
    fun s' h => ⟨s', (Server.mem_disconnect h).1, rfl⟩
  cases i with
  | handle now connection permission request =>
    rcases Server.handle_cases hs now connection permission request st.2 with
      ⟨reply, hr, hacc⟩ | ⟨err, hr, -, hdis⟩
    · have ho : (step st (.handle now connection permission request)).1 = .reply (.ok reply) :=
        congrArg Output.reply hr
      rw [show (step st (.handle now connection permission request)).2.1
        = ((st.1.handle now connection permission request).runOk exec st.2).1.2 from rfl]
      generalize ((st.1.handle now connection permission request).runOk exec st.2).1.2 = server'
        at hacc
      cases hacc with
      | @start push options path manifest sroot scan plan allowed full idle under scanned planned =>
        refine ⟨rfl, .inr ⟨?_, ?_⟩⟩
        · unfold Occurrence.starts event
          rw [ho]
        · rintro _ ⟨⟩
          exact ⟨⟨path, manifest, scan.manifest⟩, ⟨under, rfl, rfl⟩, ho, idle, now, permission, full,
            rfl⟩
      | @serve s _ _ session allowed active owner dry served =>
        refine ⟨rfl, .inl ⟨?_, fun s' hs' => ⟨s, active, ?_⟩⟩⟩
        · unfold Occurrence.starts event
          rw [ho]
          cases served <;> rfl
        · cases served <;> cases hs' <;> rfl
    · have ho : (step st (.handle now connection permission request)).1 = .reply (.error err) :=
        congrArg Output.reply hr
      rw [show (step st (.handle now connection permission request)).2.1
        = st.1.disconnect connection from hdis]
      refine ⟨Server.disconnect_root, .inl ⟨?_, hdisconnect connection⟩⟩
      unfold Occurrence.starts event
      rw [ho]
      cases request <;> rfl
  | receive connection file =>
    -- A received file is no part of what is fixed.
    obtain ⟨server', h, -, hcases⟩ := hs.receive connection file
    rw [step_receive, h]
    rcases hcases with rfl | ⟨s, hsession, -, -, rfl⟩
    · exact ⟨rfl, .inl ⟨rfl, fun s' hs' => ⟨s', hs', rfl⟩⟩⟩
    · refine ⟨rfl, .inl ⟨rfl, ?_⟩⟩
      rintro _ ⟨⟩
      exact ⟨s, hsession, rfl⟩
  | disconnect connection =>
    exact ⟨Server.disconnect_root, .inl ⟨rfl, hdisconnect connection⟩⟩
  | touch connection now =>
    refine ⟨rfl, .inl ⟨rfl, fun s' hs' => ?_⟩⟩
    obtain ⟨s, hs, rfl⟩ := Option.map_eq_some_iff.mp hs'
    refine ⟨s, hs, ?_⟩
    split <;> rfl
  | expire now timeout =>
    exact ⟨Server.expire_root, .inl ⟨rfl, fun s' h => ⟨s', Server.mem_expire h, rfl⟩⟩⟩

/-- In a run, the session comes from the last START that was accepted. -/
theorem session_began {w : Disk} {is : List Input} {past fut : List Occurrence} {e : Occurrence}
    (h : events step (⟨root, none⟩, w) is = past ++ e :: fut) :
    e.pre.1.Coherent ∧ e = event step e.pre e.input ∧
      ∀ s ∈ e.pre.1.session, ∃ before first o,
        past = before ++ first :: sinceStart past ∧ Occurrence.Began first root s o := by
  -- What START fixes, it fixes for all calls until the next one.
  have hstart (st : Server × Disk) (i : Input) (hst : st.1.Coherent ∧ st.1.root = root)
      (hs : Occurrence.starts (event step st i) = true) (b : Session)
      (hb : b ∈ (step st i).2.1.session.map Session.fixed) :
      ∃ o, Occurrence.Began (event step st i) root b o := by
    obtain ⟨s', hs', rfl⟩ := Option.map_eq_some_iff.mp hb
    rcases (step_session hst.1 i).2 with ⟨hfalse, -⟩ | ⟨-, hbegan⟩
    · rw [hs] at hfalse
      cases hfalse
    · obtain ⟨o, ⟨h1, h2, h3⟩, hrest⟩ := hbegan s' hs'
      rw [hst.2] at h1
      exact ⟨o, ⟨h1, h2, h3⟩, hrest⟩
  -- Any other call leaves it, or ends the session.
  have hkeep (st : Server × Disk) (i : Input) (hst : st.1.Coherent ∧ st.1.root = root)
      (hs : Occurrence.starts (event step st i) = false) (b : Session)
      (hb : b ∈ (step st i).2.1.session.map Session.fixed) : b ∈ st.1.session.map Session.fixed := by
    obtain ⟨s', hs', rfl⟩ := Option.map_eq_some_iff.mp hb
    rcases (step_session hst.1 i).2 with ⟨-, hkept⟩ | ⟨htrue, -⟩
    · obtain ⟨s, hmem, heq⟩ := hkept s' hs'
      rw [heq]
      exact Option.mem_map_of_mem _ hmem
    · rw [hs] at htrue
      cases htrue
  obtain ⟨hinv, hev, hcur⟩ := events_since (fun st : Server × Disk => st.1.session.map Session.fixed)
    Occurrence.starts (fun e s => ∃ o, Occurrence.Began e root s o)
    (fun st => st.1.Coherent ∧ st.1.root = root) ⟨started_coherent root, rfl⟩ rfl
    (fun st i hst => ⟨step_coherent hst.1 i, (step_session hst.1 i).1.trans hst.2⟩) hstart hkeep h
  refine ⟨hinv.1, hev, fun s hs => ?_⟩
  obtain ⟨before, first, hpast, o, ⟨h1, h2, h3⟩, hrest⟩ := hcur s.fixed (Option.mem_map_of_mem _ hs)
  exact ⟨before, first, o, hpast, ⟨h1, h2, h3⟩, hrest⟩

end

/-! ### The frame of the first server -/

section
variable [Sha256] {P : FsCall → Prop}

/-- The calls of a request stay within the plan of the session. -/
theorem Session.Coherent.steps {s : Session} {entries : List Entry} (hs : s.Coherent)
    (hw : s.Within entries) (hP : ∀ c, c.Safe (confined s.root.base.utf8 entries) → P c)
    (request : Message) : s.Steps P request := by
  have hE := @permits_confined _ _ _ _ s.root hs.planned
  refine ⟨fun _ _ _ _ => ?_, fun i resource f e hr ha _ _ he => ?_, fun _ _ _ _ => ?_⟩
  · exact (calls_mark (hs.calls_listed hw (hE.prepare hs.planned))).mono hP
  · subst hr
    exact (calls_mark (hs.calls_listed hw (hE.install hs.planned ha.1.2.1 he rfl))).mono hP
  · exact (calls_mark (hs.calls_listed hw (hE.finish hs.planned))).mono hP

/-- Every call that can occur while the adapter's call is served satisfies `P`. -/
def Server.Issues (server : Server) (P : FsCall → Prop) : Input → Prop
  | .handle now connection permission request =>
    Prog.Issues (S := FsSig) P (server.handle now connection permission request)
  | _ => True

/-- The calls of any input of the server, from those of the session. -/
theorem Server.issues_of_steps {server : Server} (hP : ∀ c, c.Reads → P c)
    (h : ∀ s ∈ server.session, ∀ now request, Session.Steps P { s with activity := now } request)
    (i : Input) : server.Issues P i := by
  cases i with
  | handle now connection permission request =>
    exact Server.calls_handle (Server.calls_handleInner hP fun s _ hs _ => h s hs now request)
  | _ => trivial

/-- The disk after a call is one of its moments. -/
theorem during_post {e : Occurrence} (he : e = event step e.pre e.input) :
    During e.pre e.post.2 e.input := by
  rw [he]
  obtain ⟨st, i, -, -⟩ := e
  show During st (step st i).2.2 i
  cases i with
  | handle now connection permission request =>
    have h := Prog.moment_run exec (st.1.handle now connection permission request) st.2
    rw [Prog.run_eq_runOk] at h
    exact h
  | receive connection file =>
    rw [step_receive]
    cases st.1.receive connection file <;> rfl
  | _ => rfl

/-- What one call of the adapter may do, after the calls `past`. -/
structure Frame (root : Root) (past : List Occurrence) (e : Occurrence) : Prop where
  /-- Without a session, and in one that is a pull or a dry run, the export is not changed. -/
  still : (∀ s ∈ e.pre.1.session, s.push = false ∨ s.options.dryRun = true) →
    ∀ w, During e.pre w e.input → w.tree = e.pre.2.tree
  /-- Else it changes at the paths of the manifests of the last START, below its path. -/
  pushed : ∀ s ∈ e.pre.1.session, s.push = true → s.options.dryRun = false →
    ∃ before first o, past = before ++ first :: sinceStart past ∧ Occurrence.Began first root s o ∧
      ∀ w, During e.pre w e.input → ∀ q,
        confined (root.pathOf o.path) o.entries q (e.pre.2.tree.get q) (w.tree.get q)
  /-- Every path handed to the kernel is made of names. -/
  rooted : e.pre.1.Issues FsCall.Rooted e.input

/-- Every event of a run is in the frame, by induction over the run. -/
theorem frame_of_run {root : Root} {w : Disk} {is : List Input} {past fut : List Occurrence}
    {e : Occurrence} (h : events step (⟨root, none⟩, w) is = past ++ e :: fut) :
    Frame root past e := by
  obtain ⟨hcoh, -, hbegan⟩ := session_began h
  have hown (s : Session) : s.Within (s.source.entries ++ s.destination.entries) :=
    ⟨fun x hx => List.mem_append_left _ hx, fun x hx => List.mem_append_right _ hx⟩
  refine ⟨fun hstill w' hw => ?_, fun s hs hpush hreal => ?_, ?_⟩
  · cases hi : e.input with
    | handle now connection permission request =>
      rw [hi] at hw
      have hissues : Server.Issues e.pre.1 FsCall.Reads
          (.handle now connection permission request) := by
        refine Server.issues_of_steps (fun _ hc => hc) (fun s hs now request => ?_) _
        -- A session of a pull or of a dry run has no call that changes anything.
        have hno (hpush : s.push = true) (hreal : s.options.dryRun = false) : False := by
          rcases hstill s hs with h | h
          · rw [hpush] at h
            cases h
          · rw [hreal] at h
            cases h
        exact ⟨fun _ hpush hreal _ => (hno hpush hreal).elim,
          fun _ _ _ _ hr ha hreal _ _ => by subst hr; exact (hno ha.1.1 hreal).elim,
          fun _ _ hpush hreal => (hno hpush hreal).elim⟩
      rcases hw with rfl | hv
      · rfl
      · rw [quiet_of_reads hissues _ _ hv]
    | _ =>
      rw [hi] at hw
      exact congrArg Disk.tree hw
  -- A push changes what its own START has listed.
  · obtain ⟨before, first, o, hpast, ho⟩ := hbegan s hs
    refine ⟨before, first, o, hpast, ho, fun w' hw q => ?_⟩
    rw [← Root.subtree_base ho.1.under]
    cases hi : e.input with
    | handle now connection permission request =>
      rw [hi] at hw
      have hissues : Server.Issues e.pre.1 (FsCall.Safe (confined s.root.base.utf8 o.entries))
          (.handle now connection permission request) := by
        refine Server.issues_of_steps (fun _ hc => hc.safe) (fun s' hs' now request => ?_) _
        obtain rfl := Option.some.inj (hs.symm.trans hs')
        have hw := ho.1.within
        exact Session.Coherent.steps ((hcoh s hs).1.touch now) ⟨hw.source, hw.destination⟩
          (fun _ hc => hc) request
      exact frame_of_issues hissues (fun _ => confined_refl) (fun _ _ _ _ => confined_trans)
        (fun c hc => hc.2) hw q
    | _ =>
      rw [hi] at hw
      rw [show w' = e.pre.2 from hw]
      exact confined_refl _
  · refine Server.issues_of_steps (fun _ hc => hc.rooted) (fun s hs now request => ?_) _
    have hw := hown s
    exact Session.Coherent.steps ((hcoh s hs).1.touch now) ⟨hw.source, hw.destination⟩
      (fun _ hc => hc.1) request

end

/-! ### The frame of the second server -/

/-- A relation between the old and the new object of the tree that every call on the tree
respects holds between the start and every moment of a run on the two volumes. -/
theorem frame_of_volCalls {ε α : Type} {m : Prog (FsSig.vol Volume) ε α}
    {P : Volume → FsCall → Prop} {R : Path → Option Node → Option Node → Prop} (hm : VolCalls P m)
    (refl : ∀ q x, R q x x) (trans : ∀ q x y z, R q x y → R q y z → R q x z)
    (hP : ∀ c, P .tree c → ∀ q old new, c.May q old new → R q old new) {w w' : Disks}
    (hw : m.Moment execVol w w') (q : Path) :
    R q ((w .tree).tree.get q) ((w' .tree).tree.get q) := by
  refine Prog.Spec.moment (I := fun w' : Disks => R q ((w .tree).tree.get q) ((w' .tree).tree.get q))
    (hm.spec (fun c v hc hv => ?_) (refl _ _)) (refl _ _) hw
  obtain ⟨volume, c⟩ := c
  show R q _ ((Function.update v volume _ .tree).tree.get q)
  -- A call on the cache is no call on the tree.
  cases volume with
  | cache =>
    rw [Function.update_of_ne (by decide)]
    exact hv
  | tree =>
    rw [Function.update_self]
    rcases exec_may c (v .tree) q with h | h
    · rw [h]
      exact hv
    · exact trans _ _ _ _ hv (hP c hc q _ _ h)

/-- When the calls on the tree only look, the tree is not changed. -/
theorem still_of_volCalls {ε α : Type} {m : Prog (FsSig.vol Volume) ε α}
    {P : Volume → FsCall → Prop} (hm : VolCalls P m) (hP : ∀ c, P .tree c → c.Reads) {w w' : Disks}
    (hw : m.Moment execVol w w') : w' .tree = w .tree := by
  refine Prog.Spec.moment (I := fun w' : Disks => w' .tree = w .tree)
    (hm.spec (fun c v hc hv => ?_) rfl) rfl hw
  obtain ⟨volume, c⟩ := c
  show Function.update v volume _ .tree = _
  cases volume with
  | cache =>
    rw [Function.update_of_ne (by decide)]
    exact hv
  | tree =>
    rw [Function.update_self]
    exact ((hP c hc).exec_snd _).trans hv

namespace V2

section
variable [Sha256]

/-- The disks at some moment of a call of the adapter. -/
def During (st : Server × Disks) (w : Disks) : Input → Prop
  | .handle now connection peer permission request =>
    (st.1.handle now connection peer permission request).Moment execVol st.2 w
  | .disconnect connection => (st.1.disconnect connection : Prog _ Empty _).Moment execVol st.2 w
  | .expire now timeout => (st.1.expire now timeout : Prog _ Empty _).Moment execVol st.2 w
  | _ => w = st.2

/-- Every call that can occur while the adapter's call is served satisfies `P`. -/
def Server.Issues (server : Server) (P : Volume → FsCall → Prop) : Input → Prop
  | .handle now connection peer permission request =>
    VolCalls P (server.handle now connection peer permission request)
  | .disconnect connection => VolCalls P (server.disconnect connection : Prog _ Empty _)
  | .expire now timeout => VolCalls P (server.expire now timeout : Prog _ Empty _)
  | _ => True

/-- The call is the START of the session `s`. -/
def Occurrence.Began (e : Occurrence) (root : Root) (s : Session) (o : Origin) : Prop :=
  s.From root o ∧ e.output = .reply (.ok (.message (.common (.manifest o.remote)))) ∧
    e.pre.1.base.session = none ∧ ∃ now peer permission, (s.push = true → permission = .full) ∧
      e.input = .handle now s.connection peer permission
        (.common (.start s.push s.options o.path o.manifest))

/-- A call starts a session, or the session after it is the one before it. -/
theorem step_session {st : Server × Disks} (hs : st.1.Coherent) (i : Input) :
    (step st i).2.1.base.root = st.1.base.root ∧
    ((Occurrence.starts (event step st i) = false ∧
      ∀ s' ∈ (step st i).2.1.base.session, ∃ s ∈ st.1.base.session, s'.fixed = s.fixed) ∨
    (Occurrence.starts (event step st i) = true ∧ ∀ s' ∈ (step st i).2.1.base.session,
      ∃ o, Occurrence.Began (event step st i) st.1.base.root s' o)) := by
  -- Ending a session starts none.
  have hdisconnected (connection : ConnectionId) :
      ∀ s' ∈ (st.1.disconnected connection).base.session,
        ∃ s ∈ st.1.base.session, s'.fixed = s.fixed :=
    fun s' h => ⟨s', (Server.mem_disconnected h).1, rfl⟩
  have hturn := step_turns hs i
  unfold event
  generalize step st i = r at hturn ⊢
  obtain ⟨o, server', w'⟩ := r
  dsimp only at hturn ⊢
  cases hturn with
  | @accepted now connection peer permission request reply _ accepts =>
    cases accepts with
    | start accepted =>
      cases accepted with
      | @start push options path manifest sroot scan plan allowed full idle under scanned planned =>
        refine ⟨rfl, .inr ⟨rfl, ?_⟩⟩
        rintro _ ⟨⟩
        exact ⟨⟨_, _, scan.manifest⟩, ⟨under, rfl, rfl⟩, rfl, idle, now, peer, permission, full,
          rfl⟩
      | serve _ _ _ _ served => cases served
    | finish => exact ⟨rfl, .inl ⟨rfl, fun _ h => absurd h (Option.not_mem_none _)⟩⟩
    | @serve s s' request reply state allowed active owner same full real served =>
      refine ⟨rfl, .inl ⟨?_, ?_⟩⟩
      -- A request of a transfer is no START.
      · have hne := served.not_common
        cases request with
        | common m => exact absurd rfl (hne m)
        | _ => rfl
      · rintro _ ⟨⟩
        exact ⟨s, active, served.fixed⟩
  | refused => exact ⟨Server.disconnected_root _ _, .inl ⟨rfl, hdisconnected _⟩⟩
  | ignored => exact ⟨rfl, .inl ⟨rfl, fun s' hs' => ⟨s', hs', rfl⟩⟩⟩
  | stored => exact ⟨rfl, .inl ⟨rfl, fun s' hs' => ⟨s', hs', rfl⟩⟩⟩
  | disconnect => exact ⟨Server.disconnected_root _ _, .inl ⟨rfl, hdisconnected _⟩⟩
  | touch =>
    refine ⟨rfl, .inl ⟨rfl, fun s' hs' => ?_⟩⟩
    obtain ⟨s, hs, rfl⟩ := Option.map_eq_some_iff.mp hs'
    refine ⟨s, hs, ?_⟩
    split <;> rfl
  | expired => exact ⟨rfl, .inl ⟨rfl, fun _ h => absurd h (Option.not_mem_none _)⟩⟩
  | kept => exact ⟨rfl, .inl ⟨rfl, fun s' hs' => ⟨s', hs', rfl⟩⟩⟩

/-- In a run, the session comes from the last START that was accepted. -/
theorem session_began {root : Root} {cache : Cache} {w : Disks} {is : List Input}
    {past fut : List Occurrence} {e : Occurrence}
    (h : events step (.new root cache, w) is = past ++ e :: fut) :
    e.pre.1.Coherent ∧ e = event step e.pre e.input ∧
      ∀ s ∈ e.pre.1.base.session, ∃ before first o,
        past = before ++ first :: sinceStart past ∧ Occurrence.Began first root s o := by
  -- What START fixes, it fixes for all calls until the next one.
  have hstart (st : Server × Disks) (i : Input) (hst : st.1.Coherent ∧ st.1.base.root = root)
      (hs : Occurrence.starts (event step st i) = true) (b : Session)
      (hb : b ∈ (step st i).2.1.base.session.map Session.fixed) :
      ∃ o, Occurrence.Began (event step st i) root b o := by
    obtain ⟨s', hs', rfl⟩ := Option.map_eq_some_iff.mp hb
    rcases (step_session hst.1 i).2 with ⟨hfalse, -⟩ | ⟨-, hbegan⟩
    · rw [hs] at hfalse
      cases hfalse
    · obtain ⟨o, ⟨h1, h2, h3⟩, hrest⟩ := hbegan s' hs'
      rw [hst.2] at h1
      exact ⟨o, ⟨h1, h2, h3⟩, hrest⟩
  -- Any other call leaves it, or ends the session.
  have hkeep (st : Server × Disks) (i : Input) (hst : st.1.Coherent ∧ st.1.base.root = root)
      (hs : Occurrence.starts (event step st i) = false) (b : Session)
      (hb : b ∈ (step st i).2.1.base.session.map Session.fixed) :
      b ∈ st.1.base.session.map Session.fixed := by
    obtain ⟨s', hs', rfl⟩ := Option.map_eq_some_iff.mp hb
    rcases (step_session hst.1 i).2 with ⟨-, hkept⟩ | ⟨htrue, -⟩
    · obtain ⟨s, hmem, heq⟩ := hkept s' hs'
      rw [heq]
      exact Option.mem_map_of_mem _ hmem
    · rw [hs] at htrue
      cases htrue
  obtain ⟨hinv, hev, hcur⟩ := events_since
    (fun st : Server × Disks => st.1.base.session.map Session.fixed) Occurrence.starts
    (fun e s => ∃ o, Occurrence.Began e root s o)
    (fun st => st.1.Coherent ∧ st.1.base.root = root) ⟨started_coherent root cache, rfl⟩ rfl
    (fun st i hst => ⟨step_coherent hst.1 i, (step_session hst.1 i).1.trans hst.2⟩) hstart hkeep h
  refine ⟨hinv.1, hev, fun s hs => ?_⟩
  obtain ⟨before, first, hpast, o, ⟨h1, h2, h3⟩, hrest⟩ := hcur s.fixed (Option.mem_map_of_mem _ hs)
  exact ⟨before, first, o, hpast, ⟨h1, h2, h3⟩, hrest⟩

/-- The steps of a session of the second server are those of a session of the first. -/
theorem Steps.of_coherent {P : FsCall → Prop} {s : Session} {entries : List Entry}
    (hs : s.Coherent) (hw : s.Within entries)
    (hP : ∀ c, c.Safe (confined s.root.base.utf8 entries) → P c) (request : Message) :
    Steps P s request := by
  have hE := @permits_confined _ _ _ _ s.root hs.planned
  refine ⟨fun _ _ _ => ?_, fun _ i e hash file _ _ _ hi he => ?_⟩
  · exact (calls_mark (hs.calls_listed hw (hE.prepare hs.planned))).mono hP
  · have hinstall := @Permits.install _ _ _ _ _ hs.planned _ hE _ i hi e
      { e with hash := some hash } he rfl file
    exact (calls_mark (hs.calls_listed hw hinstall)).mono hP

/-- The same for the second server and its two volumes. -/
theorem Server.issues_of_steps {server : Server} {P : Volume → FsCall → Prop}
    (hs : server.Coherent) (hreads : ∀ v c, c.Reads → P v c) (hcache : ∀ c, c.Rooted → P .cache c)
    (h : ∀ s ∈ server.base.session, ∀ now request, Steps (P .tree) { s with activity := now } request)
    (hfinish : ∀ s ∈ server.base.session, ∀ now,
      Session.Steps (P .tree) { s with activity := now } .finish)
    (i : Input) : server.Issues P i := by
  cases i with
  | handle now connection peer permission request =>
    exact Server.calls_handle hcache (Server.calls_handleInner hreads hcache hs
      (fun s _ hactive _ _ => h s hactive now request)
      fun s _ _ hactive _ _ => hfinish s hactive now)
  | disconnect connection => exact Server.calls_disconnect hcache
  | expire now timeout => exact Server.calls_expire hcache
  | _ => trivial

/-- The disks after a call are one of its moments. -/
theorem during_post {e : Occurrence} (he : e = event step e.pre e.input) :
    During e.pre e.post.2 e.input := by
  rw [he]
  obtain ⟨st, i, -, -⟩ := e
  show During st (step st i).2.2 i
  have hrun {α : Type} (m : Prog (FsSig.vol Volume) Empty α) :
      m.Moment execVol st.2 (m.runOk execVol st.2).2 := by
    have h := Prog.moment_run execVol m st.2
    rw [Prog.run_eq_runOk] at h
    exact h
  cases i with
  | receive connection file =>
    rw [step_receive]
    cases st.1.receive connection file <;> rfl
  | handle now connection peer permission request =>
    exact hrun (st.1.handle now connection peer permission request)
  | disconnect connection => exact hrun (st.1.disconnect connection)
  | touch => rfl
  | expire now timeout => exact hrun (st.1.expire now timeout)

/-- A moment of a call is a moment of its program. -/
theorem moment_of_during {st : Server × Disks} {i : Input} {P : Volume → FsCall → Prop} {w : Disks}
    (hw : During st w i) (hissues : st.1.Issues P i) : w = st.2 ∨ ∃ (α : Type)
      (m : Prog (FsSig.vol Volume) Empty α), VolCalls P m ∧ m.Moment execVol st.2 w := by
  cases i with
  | handle | disconnect | expire => exact .inr ⟨_, _, hissues, hw⟩
  | _ => exact .inl hw

/-- What one call of the adapter may do, after the calls `past`. -/
structure Frame (root : Root) (past : List Occurrence) (e : Occurrence) : Prop where
  /-- Without a session, and in one that is a pull or a dry run, the export is not changed. -/
  still : (∀ s ∈ e.pre.1.base.session, s.push = false ∨ s.options.dryRun = true) →
    ∀ w, During e.pre w e.input → (w .tree).tree = (e.pre.2 .tree).tree
  /-- Else it changes at the paths of the manifests of the last START, below its path. -/
  pushed : ∀ s ∈ e.pre.1.base.session, s.push = true → s.options.dryRun = false →
    ∃ before first o, past = before ++ first :: sinceStart past ∧ Occurrence.Began first root s o ∧
      ∀ w, During e.pre w e.input → ∀ q, confined (root.pathOf o.path) o.entries q
        ((e.pre.2 .tree).tree.get q) ((w .tree).tree.get q)
  /-- Every path handed to the kernel is made of names. -/
  rooted : e.pre.1.Issues (fun _ => FsCall.Rooted) e.input

/-- The same for the second server. -/
theorem frame_of_run {root : Root} {cache : Cache} {w : Disks} {is : List Input}
    {past fut : List Occurrence} {e : Occurrence}
    (h : events step (.new root cache, w) is = past ++ e :: fut) : Frame root past e := by
  obtain ⟨hcoh, -, hbegan⟩ := session_began h
  have hown (s : Session) : s.Within (s.source.entries ++ s.destination.entries) :=
    ⟨fun x hx => List.mem_append_left _ hx, fun x hx => List.mem_append_right _ hx⟩
  -- What the calls on the tree are allowed to do; on the cache they only have to be rooted.
  let Q (P : FsCall → Prop) : Volume → FsCall → Prop
    | .tree, c => P c
    | .cache, c => c.Rooted
  refine ⟨fun hstill w' hw => ?_, fun s hs hpush hreal => ?_, ?_⟩
  · have hno (s : Session) (hs : s ∈ e.pre.1.base.session) (hpush : s.push = true)
        (hreal : s.options.dryRun = false) : False := by
      rcases hstill s hs with h | h
      · rw [hpush] at h
        cases h
      · rw [hreal] at h
        cases h
    have hissues : e.pre.1.Issues (Q FsCall.Reads) e.input :=
      Server.issues_of_steps hcoh
        (fun v c hc => by cases v with
          | tree => exact hc
          | cache => exact hc.rooted) (fun _ hc => hc)
        (fun s hs now request => ⟨fun hpush hreal _ => (hno s hs hpush hreal).elim,
          fun _ _ _ _ _ _ hpush hreal _ _ => (hno s hs hpush hreal).elim⟩)
        (fun s hs now => ⟨fun _ hpush hreal _ => (hno s hs hpush hreal).elim,
          fun _ _ _ _ hr => (by cases hr), fun _ _ hpush hreal => (hno s hs hpush hreal).elim⟩) _
    rcases moment_of_during hw hissues with rfl | ⟨α, m, hm, hw⟩
    · rfl
    · exact congrArg Disk.tree (still_of_volCalls hm (fun _ hc => hc) hw)
  · obtain ⟨before, first, o, hpast, ho⟩ := hbegan s hs
    refine ⟨before, first, o, hpast, ho, fun w' hw q => ?_⟩
    rw [← Root.subtree_base ho.1.under]
    have hwithin := ho.1.within
    have hsteps (s' : Session) (hs' : s' ∈ e.pre.1.base.session) (now : Instant) :
        Session.Coherent { s' with activity := now } ∧
          Session.Within { s' with activity := now } o.entries ∧ s' = s := by
      obtain rfl := Option.some.inj (hs.symm.trans hs')
      exact ⟨(hcoh.base s hs).1.touch now,
        ⟨hwithin.source, hwithin.destination⟩, rfl⟩
    have hissues : e.pre.1.Issues (Q (FsCall.Safe (confined s.root.base.utf8 o.entries))) e.input := by
      refine Server.issues_of_steps hcoh
        (fun v c hc => by cases v with
          | tree => exact hc.safe
          | cache => exact hc.rooted) (fun _ hc => hc) (fun s' hs' now request => ?_)
        (fun s' hs' now => ?_) _
      · obtain ⟨h1, h2, rfl⟩ := hsteps s' hs' now
        exact Steps.of_coherent h1 h2 (fun _ hc => hc) request
      · obtain ⟨h1, h2, rfl⟩ := hsteps s' hs' now
        exact h1.steps h2 (fun _ hc => hc) _
    rcases moment_of_during hw hissues with rfl | ⟨α, m, hm, hw⟩
    · exact confined_refl _
    · exact frame_of_volCalls hm (fun _ => confined_refl) (fun _ _ _ _ => confined_trans)
        (fun c hc => hc.2) hw q
  · have hsteps (s : Session) (hs : s ∈ e.pre.1.base.session) (now : Instant) :
        Session.Coherent { s with activity := now } ∧
          Session.Within { s with activity := now } (s.source.entries ++ s.destination.entries) :=
      ⟨(hcoh.base s hs).1.touch now, ⟨(hown s).source, (hown s).destination⟩⟩
    exact Server.issues_of_steps hcoh (fun _ _ hc => hc.rooted) (fun _ hc => hc)
      (fun s hs now request => Steps.of_coherent (hsteps s hs now).1 (hsteps s hs now).2
        (fun _ hc => hc.1) request)
      (fun s hs now => (hsteps s hs now).1.steps (hsteps s hs now).2 (fun _ hc => hc.1) _) _

end

end V2

/-- The frame of a session, in every run of both servers. -/
theorem session_frame [Sha256] (root : Root) (cache : Cache) (w : Disk) (ws : Disks)
    (is : List Input) (js : List V2.Input) :
    (∀ past e fut, events step (⟨root, none⟩, w) is = past ++ e :: fut → Frame root past e) ∧
    ∀ past e fut, events V2.step (.new root cache, ws) js = past ++ e :: fut →
      V2.Frame root past e :=
  ⟨fun _ _ _ h => frame_of_run h, fun _ _ _ h => V2.frame_of_run h⟩

/-- The FINISH of a push session of the first server. -/
theorem session_frame_small : @Frame emptySha .opened ((smallPushed .full).take 7)
    ((smallPushed .full).get ⟨7, by decide⟩) :=
  (@session_frame emptySha .opened ⟨"export", none⟩ smallDisk V2.smallServer.2 (smallPush .full)
    []).1 _ _ ((smallPushed .full).drop 8) (by
      show smallPushed .full = _
      rw [List.get_eq_getElem, List.getElem_cons_drop, List.take_append_drop])

end RrSync

import RrSync.Proofs.Outcome
import RrSync.Proofs.Reading
import RrSync.Proofs.Rounds

/-!
# `RrSync.Proofs.Completion`: an honest session of the first protocol ends well

`sessions_complete`: a client and a server that have scanned their trees, joined by a transport that
loses nothing, go through a whole session. The client returns without an error, the server is as it
was before, and the destination is at the goal with the files of the source.

Both parties run one plan, each its own half. `Uploading` and `Downloading` are what holds between
two turns of the loop over the files: which session the server has, and which view the disk of the
destination shows. One turn takes each of them from a list of files to the next.
-/

set_option autoImplicit false

namespace RrSync

open Lib

/-- A mark is no part of the view. -/
theorem Disk.Shows.marked {w : Disk} {v : View} (h : w.Shows v) (m : Mark) :
    Disk.Shows { w with journal := w.journal ++ [m] } v := ⟨h.calm, h.view⟩

/-- The session after the files `is`. -/
def Session.reached (s : Session) (prepared : Bool) (is : List Nat) : Session :=
  { s with prepared := prepared, pending := none, received := none, done := is.reverse, activity := 0 }

section
variable [Sha256] {root far : Root} {scan : Scan} {source destination : Manifest} {options : Options}
  {p : Plan} {contents : Entry → Bytes} {t : Tree} {w : Disk} {s : Session} {is post : List Nat}
  {i : Nat} {e : Entry}

omit [Sha256] in
/-- The next file of a plan is an entry that was not sent before. -/
theorem file_next (hp : plan source destination options = .ok p) (hfiles : p.files = is ++ i :: post) :
    ∃ e, source.entries[i]? = some e ∧ e.kind = .file ∧ e ∈ source.entries ∧
      (UInt32.ofNat i).toNat = i ∧ i ∈ p.files ∧ i ∉ is ∧ ∀ j ∈ is, j ∈ p.files := by
  have hi : i ∈ p.files := by simp [hfiles]
  obtain ⟨e, he, ht⟩ := (mem_files hp).mp hi
  have hlt := file_lt hp hi
  have hmax := (plan_ok.mp hp).1.count
  refine ⟨e, he, (live_of_transfers ht).2, List.mem_of_getElem? he, ?_, hi, ?_, ?_⟩
  · refine UInt32.toNat_ofNat_of_lt' (Nat.lt_of_lt_of_le hlt (hmax.trans (by decide)))
  · have hnodup := nodup_files hp
    rw [hfiles] at hnodup
    exact fun hj => (List.nodup_append.mp hnodup).2.2 i hj i (by simp) rfl
  · intro j hj
    simp [hfiles, hj]

/-! ### The half of the server -/

namespace Session

/-- BEGIN of the next file is answered, and the directories are made by the first one. -/
theorem begin_run {prepared : Bool} (hs : Start s.root s.source s.destination options s.plan contents t)
    (hpush : s.push = true) (hi : i ∈ s.plan.files) (hnew : i ∉ is)
    (hfirst : prepared = false → is = [])
    (hw : w.Shows (if prepared then hs.after ⟨s.plan.directories, is, []⟩ else t.view))
    (htemp : w.temp = none) : ∃ w', ((s.reached prepared is).begin i).run exec w
      = (.ok { s.reached true is with pending := some i }, w') ∧
      w'.Shows (hs.after ⟨s.plan.directories, is, []⟩) ∧ w'.temp = none := by
  have hrequire : requireFile (s.reached prepared is) i true = .ok () :=
    requireFile_ok.mpr ⟨hpush, hi, by simpa [reached] using hnew⟩
  -- The first BEGIN prepares. Later ones find it done.
  have hready : ∃ w', ((s.reached prepared is).ready).run exec w = (.ok (s.reached true is), w') ∧
      w'.Shows (hs.after ⟨s.plan.directories, is, []⟩) ∧ w'.temp = none := by
    cases prepared with
    | true => exact ⟨w, rfl, hw, htemp⟩
    | false =>
      obtain rfl := hfirst rfl
      obtain ⟨⟨⟩, w', hrun, hw', htemp'⟩ := (hs.does_prepare (hw.marked .prepare) htemp).run
      refine ⟨w', ?_, hw', htemp'⟩
      exact Prog.run_bind_eq_ok.mpr ⟨_, _, rfl, Prog.run_bind_eq_ok.mpr ⟨_, _, hrun, rfl⟩⟩
  obtain ⟨w', hrun, hw'⟩ := hready
  -- The checks of the request pass: a push, a file of the plan, and nothing pending.
  refine ⟨w', ?_, hw'⟩
  refine Prog.run_bind_eq_ok.mpr ⟨_, _, Prog.run_lift_eq_ok.mpr ⟨hrequire, rfl⟩, ?_⟩
  refine Prog.run_check_bind_eq_ok.mpr ⟨by simp [reached], ?_⟩
  exact Prog.run_bind_eq_ok.mpr ⟨_, _, hrun, rfl⟩

/-- COMMIT of a file that has arrived installs it. -/
theorem commit_run (resource : TransferId)
    (hs : Start s.root s.source s.destination options s.plan contents t) (hpush : s.push = true)
    (hi : i ∈ s.plan.files) (hnew : i ∉ is) (his : ∀ j ∈ is, j ∈ s.plan.files)
    (he : s.source.entries[i]? = some e)
    (hw : w.Shows (hs.after ⟨s.plan.directories, is, []⟩)) :
    ∃ w', (commit { s.reached true is with
        pending := some i, received := some ⟨resource, contents e, e.size, false⟩ } i resource).run
      exec w = (.ok (s.reached true (is ++ [i])), w') ∧
      w'.Shows (hs.after ⟨s.plan.directories, is ++ [i], []⟩) ∧ w'.temp = none := by
  obtain ⟨⟨⟩, w', hrun, hw'⟩ := (hs.does_install his he hi hnew
    (hw.marked (.install i (contents e)))).run
  refine ⟨w', ?_, hw'⟩
  have hrequire : requireFile { s.reached true is with
      pending := some i, received := some ⟨resource, contents e, e.size, false⟩ } i true = .ok () :=
    requireFile_ok.mpr ⟨hpush, hi, by simpa [reached] using hnew⟩
  -- The files that are done are kept in the reverse order.
  have hdone : is.reverse.insert i = (is ++ [i]).reverse := by
    rw [List.insert_of_not_mem (by simpa using hnew), List.reverse_append]
    rfl
  -- All checks of the request pass, then the file is installed.
  refine Prog.run_bind_eq_ok.mpr ⟨_, _, Prog.run_lift_eq_ok.mpr ⟨hrequire, rfl⟩, ?_⟩
  refine Prog.run_check_bind_eq_ok.mpr ⟨not_not.mpr rfl, ?_⟩
  dsimp only
  refine Prog.run_bind_eq_ok.mpr ⟨_, _, Prog.run_lift_eq_ok.mpr ⟨index_ok.mpr he, rfl⟩, ?_⟩
  refine Prog.run_check_bind_eq_ok.mpr ⟨by simp, ?_⟩
  refine Prog.run_bind_eq_ok.mpr ⟨_, _, rfl, Prog.run_bind_eq_ok.mpr ⟨_, _, hrun, ?_⟩⟩
  unfold reached
  rw [← hdone]
  rfl

/-- FINISH of a push completes the goal. -/
theorem push_finish_run {prepared : Bool}
    (hs : Start s.root s.source s.destination options s.plan contents t) (hpush : s.push = true)
    (hreal : s.options.dryRun = false) (hfirst : prepared = false → s.plan.files = [])
    (hw : w.Shows (if prepared then hs.after ⟨s.plan.directories, s.plan.files, []⟩ else t.view))
    (htemp : w.temp = none) :
    ∃ w', ((s.reached prepared s.plan.files).finish).run exec w = (.ok (), w') ∧
      w'.Shows (goal s.root s.source s.destination options contents t.view) ∧ w'.temp = none ∧
      ∀ e ∈ s.source.entries, makes (guardedPaths s.source s.destination) e = true →
        Timed s.root w'.tree e := by
  -- When there was no file to send, FINISH has to prepare.
  have hready : ∃ w', ((s.reached prepared s.plan.files).ready).run exec w
        = (.ok (s.reached true s.plan.files), w') ∧
      w'.Shows (hs.after ⟨s.plan.directories, s.plan.files, []⟩) ∧ w'.temp = none := by
    cases prepared with
    | true => exact ⟨w, rfl, hw, htemp⟩
    | false =>
      obtain ⟨⟨⟩, w', hrun, hw', htemp'⟩ := (hs.does_prepare (hw.marked .prepare) htemp).run
      refine ⟨w', Prog.run_bind_eq_ok.mpr ⟨_, _, rfl, Prog.run_bind_eq_ok.mpr ⟨_, _, hrun, rfl⟩⟩, ?_⟩
      rw [hfirst rfl]
      exact ⟨hw', htemp'⟩
  obtain ⟨w₁, hready, hw₁, htemp₁⟩ := hready
  obtain ⟨⟨⟩, w', hrun, hw'⟩ := (hs.does_finish (hw₁.marked .finish) htemp₁).run
  refine ⟨w', ?_, hw'⟩
  unfold Session.finish
  rw [if_pos (by simp [reached, hreal])]
  refine Prog.run_check_bind_eq_ok.mpr ⟨by simp [reached], ?_⟩
  rw [if_pos (show (s.reached prepared s.plan.files).push = true from hpush)]
  refine Prog.run_bind_eq_ok.mpr ⟨_, _, hready, ?_⟩
  exact Prog.run_bind_eq_ok.mpr ⟨_, _, rfl, hrun⟩

/-! ### The half of the server in a pull -/

variable {there : Scan}

/-- GET of the next file is answered with its content. -/
theorem get_run (hscan : there.Of options.checksum s.root w.tree) (hthere : s.scan = there)
    (hsource : s.source = there.manifest) (hpush : s.push = false) (hi : i ∈ s.plan.files)
    (hnew : i ∉ is) (he : s.source.entries[i]? = some e) (hk : e.kind = .file)
    (htakes : s.root.Takes e.path) : ((s.reached false is).get i).run exec w
      = (.ok (s.root.fileAt w.tree e, { s.reached false is with pending := some i }), w) := by
  subst hthere
  have hmem : e ∈ s.scan.manifest.entries := hsource ▸ List.mem_of_getElem? he
  obtain ⟨stamp, hstamp, hread, -⟩ := snapshot_run hscan hmem hk htakes
  have hrequire : requireFile (s.reached false is) i false = .ok () :=
    requireFile_ok.mpr ⟨hpush, hi, by simpa [reached] using hnew⟩
  refine Prog.run_bind_eq_ok.mpr ⟨_, _, Prog.run_lift_eq_ok.mpr ⟨hrequire, rfl⟩, ?_⟩
  refine Prog.run_check_bind_eq_ok.mpr ⟨by simp [reached], ?_⟩
  refine Prog.run_bind_eq_ok.mpr ⟨_, _, Prog.run_lift_eq_ok.mpr ⟨index_ok.mpr he, rfl⟩, ?_⟩
  refine Prog.run_bind_eq_ok.mpr ⟨_, _, Prog.run_lift_eq_ok.mpr ⟨hstamp, rfl⟩, ?_⟩
  exact Prog.run_bind_eq_ok.mpr ⟨_, _, hread, rfl⟩

/-- VERIFIED of the file is answered. -/
theorem verified_run (hscan : there.Of options.checksum s.root w.tree) (hthere : s.scan = there)
    (hsource : s.source = there.manifest) (hpush : s.push = false) (hi : i ∈ s.plan.files)
    (hnew : i ∉ is) (he : s.source.entries[i]? = some e) (htakes : s.root.Takes e.path) :
    (verified { s.reached false is with pending := some i } i).run exec w
      = (.ok (s.reached false (is ++ [i])), w) := by
  subst hthere
  have hmem : e ∈ s.scan.manifest.entries := hsource ▸ List.mem_of_getElem? he
  -- Nothing has changed since the scan, so the stamp is the same.
  obtain ⟨stamp, hstamp, hunchanged⟩ := unchanged_run hscan hmem htakes
  have hrequire : requireFile { s.reached false is with pending := some i } i false = .ok () :=
    requireFile_ok.mpr ⟨hpush, hi, by simpa [reached] using hnew⟩
  have hdone : is.reverse.insert i = (is ++ [i]).reverse := by
    rw [List.insert_of_not_mem (by simpa using hnew), List.reverse_append]
    rfl
  refine Prog.run_bind_eq_ok.mpr ⟨_, _, Prog.run_lift_eq_ok.mpr ⟨hrequire, rfl⟩, ?_⟩
  refine Prog.run_check_bind_eq_ok.mpr ⟨not_not.mpr rfl, ?_⟩
  refine Prog.run_bind_eq_ok.mpr ⟨_, _, Prog.run_lift_eq_ok.mpr ⟨index_ok.mpr he, rfl⟩, ?_⟩
  refine Prog.run_bind_eq_ok.mpr ⟨_, _, Prog.run_lift_eq_ok.mpr ⟨hstamp, rfl⟩, ?_⟩
  refine Prog.run_bind_eq_ok.mpr ⟨_, _, hunchanged, ?_⟩
  unfold reached
  rw [← hdone]
  rfl

omit [Sha256] in
/-- FINISH of a pull is answered when nothing has changed. -/
theorem pull_finish_run (hpush : s.push = false) (hreal : s.options.dryRun = false)
    (hcheck : (checkSource s.root s.scan).run exec w = (.ok (), w)) :
    ((s.reached false s.plan.files).finish).run exec w = (.ok (), w) := by
  unfold Session.finish
  rw [if_pos (by simp [reached, hreal])]
  refine Prog.run_check_bind_eq_ok.mpr ⟨by simp [reached], ?_⟩
  rw [if_neg (show ¬ (s.reached false s.plan.files).push = true from by
    rw [show (s.reached false s.plan.files).push = s.push from rfl, hpush]
    exact Bool.false_ne_true)]
  exact hcheck

end Session

/-! ### A push -/

/-- Between two files of a push: the session of the server, and what its export shows. -/
structure Uploading (s : Session)
    (hs : Start s.root s.source s.destination options s.plan contents t) (link : SimulatedTransport)
    (is : List Nat) : Prop where
  owner : s.connection = link.connection
  full : link.permission = .full
  state : ∃ prepared, link.server.session = some (s.reached prepared is) ∧
    (prepared = false → is = []) ∧
    link.disk.Shows (if prepared then hs.after ⟨s.plan.directories, is, []⟩ else t.view)
  temp : link.disk.temp = none

omit [Sha256] in
/-- The file that is pending arrives. -/
theorem send_run {link : SimulatedTransport} {file : Bytes}
    (hsession : link.server.session = some { s.reached true is with pending := some i })
    (howner : s.connection = link.connection) (hpush : s.push = true)
    (hreal : s.options.dryRun = false) (he : s.source.entries[i]? = some e)
    (hsize : file.length = e.size) : ∃ resource, link.send file e.size = (.ok resource, { link with
      uploads := link.uploads + 1,
      server := { link.server with session := some { s.reached true is with
        pending := some i, received := some ⟨resource, file, e.size, false⟩ } } }) := by
  -- The reader of the server is limited to the announced size, which is that of the file.
  have htake : file.take e.size = file := List.take_of_length_le hsize.le
  -- A push with a pending file takes it.
  have haccepts : link.server.acceptsFile link.connection e.size false = .ok true := by
    unfold Server.acceptsFile
    rw [hsession]
    simp [Session.reached, howner, hpush, hreal, index, he]
  refine ⟨V2.SimulatedTransport.uploadId (link.uploads + 1), ?_⟩
  unfold SimulatedTransport.send
  dsimp only
  rw [htake, if_neg (not_not.mpr hsize)]
  unfold Server.receive
  dsimp only
  rw [haccepts, hsession]
  rfl

/-- One file of a push: BEGIN, the upload and COMMIT, each answered. -/
theorem Uploading.turn {hs : Start s.root s.source s.destination options s.plan contents t}
    {link : SimulatedTransport} (h : Uploading s hs link is) (hpush : s.push = true)
    (hreal : s.options.dryRun = false) (hfiles : s.plan.files = is ++ i :: post)
    (he : s.source.entries[i]? = some e) :
    ∃ link₁ resource link₂ link₃,
      link.dispatch (Message.begin (.ofNat i)).bytes = (.ok Message.ok.bytes, link₁) ∧
      link₁.send (contents e) e.size = (.ok resource, link₂) ∧
      link₂.dispatch (Message.commit (.ofNat i) resource).bytes = (.ok Message.ok.bytes, link₃) ∧
      Uploading s hs link₃ (is ++ [i]) := by
  obtain ⟨e', he', -, hmem, hindex, hi, hnew, his⟩ := file_next hs.plan hfiles
  obtain rfl := Option.some.inj (he.symm.trans he')
  obtain ⟨prepared, hsession, hfirst, hw⟩ := h.state
  have hallowed : link.permission ≠ .deny := by simp [h.full]
  have ht : transfers s.destination options (guardedPaths s.source s.destination) e = true := by
    obtain ⟨e', he', ht⟩ := (mem_files hs.plan).mp hi
    obtain rfl := Option.some.inj (he.symm.trans he')
    exact ht
  -- BEGIN makes the file pending.
  obtain ⟨w₁, hbegin, hw₁, htemp₁⟩ := Session.begin_run hs hpush hi hnew hfirst hw h.temp
  have hserve₁ : ((s.reached prepared is).serve (.begin (.ofNat i))).run exec link.disk
      = (.ok (.message .ok, some { s.reached true is with pending := some i }), w₁) := by
    refine Prog.run_bind_eq_ok.mpr ⟨_, _, ?_, rfl⟩
    rw [hindex]
    exact hbegin
  have hdispatch₁ := SimulatedTransport.dispatch_served carried_begin carried_ok hallowed hsession
    h.owner hreal (fun _ _ _ _ h => by cases h) hserve₁
  let link₁ : SimulatedTransport := { link with
    server := { link.server with session := some { s.reached true is with pending := some i } },
    disk := w₁ }
  -- The upload delivers the file.
  obtain ⟨resource, hsend⟩ := send_run (show link₁.server.session = _ from rfl) h.owner hpush hreal he
    (hs.bytes e (List.mem_of_getElem? he) ht).1
  -- COMMIT installs it.
  obtain ⟨w₂, hcommit, hw₂, htemp₂⟩ := Session.commit_run resource hs hpush hi hnew his he hw₁
  have hserve₂ : (Session.serve { s.reached true is with
        pending := some i, received := some ⟨resource, contents e, e.size, false⟩ }
      (.commit (.ofNat i) resource)).run exec w₁
      = (.ok (.message .ok, some (s.reached true (is ++ [i]))), w₂) := by
    refine Prog.run_bind_eq_ok.mpr ⟨_, _, ?_, rfl⟩
    rw [hindex]
    exact hcommit
  let link₂ : SimulatedTransport := { link₁ with
    server := { link.server with session := some { s.reached true is with
      pending := some i, received := some ⟨resource, contents e, e.size, false⟩ } },
    uploads := link.uploads + 1 }
  have hdispatch₂ := SimulatedTransport.dispatch_served carried_commit carried_ok
    (show link₂.permission ≠ .deny from hallowed) rfl h.owner hreal (fun _ _ _ _ h => by cases h) hserve₂
  refine ⟨_, resource, _, _, hdispatch₁, hsend, hdispatch₂, h.owner, h.full, ?_, htemp₂⟩
  exact ⟨true, rfl, fun h => (by cases h), hw₂⟩

/-- The end of a push. -/
theorem Uploading.finish {hs : Start s.root s.source s.destination options s.plan contents t}
    {link : SimulatedTransport} (h : Uploading s hs link s.plan.files) (hpush : s.push = true)
    (hreal : s.options.dryRun = false) : ∃ w', link.dispatch Message.finish.bytes
      = (.ok Message.ok.bytes, { link with
        server := { link.server with session := none }, disk := w' }) ∧
      w'.tree.view = goal s.root s.source s.destination options contents t.view ∧
      ∀ e ∈ s.source.entries, makes (guardedPaths s.source s.destination) e = true →
        Timed s.root w'.tree e := by
  obtain ⟨prepared, hsession, hfirst, hw⟩ := h.state
  have hallowed : link.permission ≠ .deny := by simp [h.full]
  obtain ⟨w', hfinish, hw', -, htimed⟩ := Session.push_finish_run hs hpush hreal hfirst hw h.temp
  refine ⟨w', ?_, hw'.view, htimed⟩
  refine SimulatedTransport.dispatch_served carried_finish carried_ok hallowed hsession h.owner hreal
    (fun _ _ _ _ h => by cases h) ?_
  exact Prog.run_bind_eq_ok.mpr ⟨_, _, hfinish, rfl⟩

namespace Client

/-- What the client does on its disk. -/
theorem onDisk_run {α : Type} {m : FsM α} {a : α} {link : SimulatedTransport} {w w' : Disk}
    (h : m.run exec w = (.ok a, w')) : (onDisk m).run execBoth (w, link) = (.ok a, w', link) := by
  unfold onDisk execBoth
  rw [Prog.run_left, h]

variable {hs : Start s.root s.source s.destination options s.plan (root.fileAt w.tree) t}
  {link : SimulatedTransport}

/-- The client pushes the next file, and its own disk stays. -/
theorem pushFile_run (hscan : scan.Of options.checksum root w.tree)
    (hsource : s.source = scan.manifest) (hholds : root.Holds scan.manifest)
    (h : Uploading s hs link is) (hpush : s.push = true) (hreal : s.options.dryRun = false)
    (hfiles : s.plan.files = is ++ i :: post) :
    ∃ link', (pushFile root scan s.source i).run execBoth (w, link) = (.ok (), w, link') ∧
      Uploading s hs link' (is ++ [i]) := by
  obtain ⟨e, he, hk, hmem, -⟩ := file_next hs.plan hfiles
  rw [hsource] at hmem
  obtain ⟨stamp, hstamp, hread, hunchanged⟩ :=
    snapshot_run hscan hmem hk (hscan.valid.takes hmem (hholds e hmem))
  obtain ⟨link₁, resource, link₂, link₃, hbegin, hsend, hcommit, hnext⟩ :=
    h.turn hpush hreal hfiles he
  have hlink : (sendFile (root.fileAt w.tree e) e.size : ClientM TransferId).run execBoth (w, link₁)
      = (.ok resource, w, link₂) := by
    show ((link₁.send _ _).1, w, (link₁.send _ _).2) = _
    rw [hsend]
  -- The client reads the file, sends it, and checks that it has not changed.
  refine ⟨link₃, ?_, hnext⟩
  refine Prog.run_bind_eq_ok.mpr ⟨_, _, Prog.run_lift_eq_ok.mpr ⟨index_ok.mpr he, rfl⟩, ?_⟩
  refine Prog.run_bind_eq_ok.mpr ⟨_, _, Prog.run_lift_eq_ok.mpr ⟨hstamp, rfl⟩, ?_⟩
  refine Prog.run_bind_eq_ok.mpr ⟨_, _, onDisk_run hread, ?_⟩
  refine Prog.run_bind_eq_ok.mpr ⟨_, _, ok_answered carried_begin hbegin, ?_⟩
  refine Prog.run_bind_eq_ok.mpr ⟨_, _, hlink, ?_⟩
  refine Prog.run_bind_eq_ok.mpr ⟨_, _, onDisk_run hunchanged, ?_⟩
  exact ok_answered carried_commit hcommit

/-- A push, from the answer to START on. -/
theorem push_run (hscan : (RrSync.scan root options.checksum).run exec w = (.ok scan, w))
    (hsource : s.source = scan.manifest) (hdestination : s.destination = destination)
    (hholds : root.Holds scan.manifest) (h : Uploading s hs link []) (hpush : s.push = true)
    (hreal : s.options.dryRun = false) (hoptions : s.options = options) :
    ∃ link', (push root scan options destination).run execBoth (w, link) = (.ok (), w, link') ∧
      link'.server.session = none ∧
      link'.disk.tree.view = goal s.root s.source s.destination options (root.fileAt w.tree) t.view ∧
      ∀ e ∈ s.source.entries, makes (guardedPaths s.source s.destination) e = true →
        Timed s.root link'.disk.tree e := by
  have hof := scan_sound (congrArg Prod.fst hscan)
  -- Each turn of the loop installs the next file of the plan on the far disk.
  have hturn (pre : List Nat) (i : Nat) (post : List Nat) (x : Disk × SimulatedTransport)
      (hfiles : s.plan.files = pre ++ i :: post) (hx : x.1 = w ∧ Uploading s hs x.2 pre) :
      ∃ x', (pushFile root scan s.source i).run execBoth x = (.ok (), x') ∧
        x'.1 = w ∧ Uploading s hs x'.2 (pre ++ [i]) := by
    obtain ⟨v, link₁⟩ := x
    obtain ⟨rfl, hup⟩ := hx
    obtain ⟨link₂, hrun, hnext⟩ := pushFile_run hof hsource hholds hup hpush hreal hfiles
    exact ⟨_, hrun, rfl, hnext⟩
  obtain ⟨⟨v, link₁⟩, hloop, hv, hup⟩ := Prog.run_forM_of_turns
    (fun is (x : Disk × SimulatedTransport) => x.1 = w ∧ Uploading s hs x.2 is)
    (show (w, link).1 = w ∧ Uploading s hs (w, link).2 [] from ⟨rfl, h⟩) hturn
  obtain rfl : v = w := hv
  obtain ⟨w', hfinish, hview, htimed⟩ := hup.finish hpush hreal
  have hcheck : (checkSource root scan).run exec v = (.ok (), v) :=
    checkSource_run hscan fun e he _ => hof.valid.takes he (hholds e he)
  -- The steps of the client: its own plan, the loop, the check of the source, and FINISH.
  refine ⟨{ link₁ with server := { link₁.server with session := none }, disk := w' }, ?_, rfl, hview,
    htimed⟩
  subst hdestination hoptions
  rw [hsource] at hloop
  refine Prog.run_bind_eq_ok.mpr ⟨_, _, Prog.run_lift_eq_ok.mpr ⟨hsource ▸ hs.plan, rfl⟩, ?_⟩
  rw [if_neg (by simp [hreal])]
  refine Prog.run_bind_eq_ok.mpr ⟨_, _, hloop, ?_⟩
  refine Prog.run_bind_eq_ok.mpr ⟨_, _, onDisk_run hcheck, ?_⟩
  exact ok_answered carried_finish hfinish

end Client

/-! ### A pull -/

/-- Between two files of a pull: the session of the server, on its export as it was scanned. -/
structure Downloading (s : Session) (v : Disk) (link : SimulatedTransport) (is : List Nat) :
    Prop where
  owner : s.connection = link.connection
  allowed : link.permission ≠ .deny
  session : link.server.session = some (s.reached false is)
  still : link.disk = v

namespace Client

variable {v : Disk} {hs : Start root s.source s.destination options s.plan (s.root.fileAt v.tree) t}
  {link : SimulatedTransport}

/-- The client pulls the next file into its place, and the server's disk stays. -/
theorem pullFile_run (hscan : s.scan.Of options.checksum s.root v.tree)
    (hsource : s.source = s.scan.manifest) (hholds : s.root.Holds s.scan.manifest)
    (h : Downloading s v link is) (hpush : s.push = false) (hreal : s.options.dryRun = false)
    (hfiles : s.plan.files = is ++ i :: post)
    (hw : w.Shows (hs.after ⟨s.plan.directories, is, []⟩)) :
    ∃ w' link', (pullFile root s.source s.destination s.plan i).run execBoth (w, link)
        = (.ok (), w', link') ∧ Downloading s v link' (is ++ [i]) ∧
      w'.Shows (hs.after ⟨s.plan.directories, is ++ [i], []⟩) ∧ w'.temp = none := by
  obtain ⟨e, he, hk, hmem, hindex, hi, hnew, his⟩ := file_next hs.plan hfiles
  have hmem' : e ∈ s.scan.manifest.entries := hsource ▸ hmem
  have htakes := hscan.valid.takes hmem' (hholds e hmem')
  obtain ⟨howner, hallowed, hsession, rfl⟩ := h
  have hsize := (fileAt_bytes hscan hmem' hk).1
  let file := s.root.fileAt link.disk.tree e
  let waiting : Session := { s.reached false is with pending := some i }
  let link₁ : SimulatedTransport := { link with
    server := { link.server with session := some waiting }, download := some file }
  let link₂ : SimulatedTransport := { link₁ with download := none }
  let link₃ : SimulatedTransport := { link₂ with
    server := { link.server with session := some (s.reached false (is ++ [i])) } }
  -- The server reads the file, and checks it again when it has arrived.
  have hget : ((s.reached false is).serve (.get (.ofNat i))).run exec link.disk
      = (.ok (.file .ok file, some waiting), link.disk) := by
    refine Prog.run_bind_eq_ok.mpr ⟨(file, waiting), link.disk, ?_, rfl⟩
    rw [hindex]
    exact Session.get_run hscan rfl hsource hpush hi hnew he hk htakes
  have hverified : (Session.serve waiting (.verified (.ofNat i))).run exec link.disk
      = (.ok (.message .ok, some (s.reached false (is ++ [i]))), link.disk) := by
    refine Prog.run_bind_eq_ok.mpr ⟨s.reached false (is ++ [i]), link.disk, ?_, rfl⟩
    rw [hindex]
    exact Session.verified_run hscan rfl hsource hpush hi hnew he htakes
  have hdispatch₁ : link.dispatch (Message.get (.ofNat i)).bytes = (.ok Message.ok.bytes, link₁) :=
    SimulatedTransport.dispatch_served_file carried_get carried_ok hallowed hsession howner hreal
      (fun _ _ _ _ h => by cases h) hget
  have hdispatch₂ : link₂.dispatch (Message.verified (.ofNat i)).bytes
      = (.ok Message.ok.bytes, link₃) :=
    SimulatedTransport.dispatch_served carried_verified carried_ok
      (show link₂.permission ≠ .deny from hallowed) (s := waiting) rfl howner hreal (fun _ _ _ _ h => by cases h) hverified
  -- The file has the size of its entry, and is installed.
  have htake : (receiveFile e.size : ClientM ReceivedFile).run execBoth (w, link₁)
      = (.ok ⟨Vector.replicate 32 0, file, e.size, false⟩, w, link₂) := by
    show ((link₁.take e.size).1, w, (link₁.take e.size).2) = _
    have hrun : link₁.take e.size = (.ok ⟨Vector.replicate 32 0, file, e.size, false⟩, link₂) := by
      show (if e.size < file.length then _ else _) = _
      rw [if_neg (Nat.not_lt.mpr hsize.le)]
      exact congrArg (fun n => (Except.ok (⟨Vector.replicate 32 0, file, n, false⟩ : ReceivedFile),
        link₂)) hsize
    rw [hrun]
  obtain ⟨⟨⟩, w', hinstall, hw', htemp'⟩ := (hs.does_install his he hi hnew hw).run
  refine ⟨w', link₃, ?_, ⟨howner, hallowed, rfl, rfl⟩, hw', htemp'⟩
  refine Prog.run_bind_eq_ok.mpr ⟨_, _, Prog.run_lift_eq_ok.mpr ⟨index_ok.mpr he, rfl⟩, ?_⟩
  refine Prog.run_bind_eq_ok.mpr ⟨_, _, ok_answered carried_get hdispatch₁, ?_⟩
  refine Prog.run_bind_eq_ok.mpr ⟨_, _, htake, ?_⟩
  refine Prog.run_check_bind_eq_ok.mpr ⟨by simp, ?_⟩
  refine Prog.run_bind_eq_ok.mpr ⟨_, _, ok_answered carried_verified hdispatch₂, ?_⟩
  exact onDisk_run hinstall

/-- A pull, from the answer to START on. -/
theorem pull_run
    (hs : Start root s.source s.destination options s.plan (s.root.fileAt v.tree) t)
    (hscan : (RrSync.scan s.root options.checksum).run exec v = (.ok s.scan, v))
    (hsource : s.source = s.scan.manifest) (hdestination : s.destination = scan.manifest)
    (hholds : s.root.Holds s.scan.manifest) (h : Downloading s v link []) (hpush : s.push = false)
    (hreal : s.options.dryRun = false) (hoptions : s.options = options)
    (hw : w.Shows t.view) (htemp : w.temp = none) :
    ∃ w' link', (pull root scan options s.scan.manifest).run execBoth (w, link)
        = (.ok (), w', link') ∧ link'.server.session = none ∧ link'.disk = v ∧
      w'.tree.view = goal root s.source s.destination options (s.root.fileAt v.tree) t.view ∧
      ∀ e ∈ s.source.entries, makes (guardedPaths s.source s.destination) e = true →
        Timed root w'.tree e := by
  have hof := scan_sound (congrArg Prod.fst hscan)
  obtain ⟨⟨⟩, w₁, hprepare, hw₁, htemp₁⟩ := (hs.does_prepare hw htemp).run
  -- Each turn of the loop installs the next file of the plan on the near disk.
  have hturn (pre : List Nat) (i : Nat) (post : List Nat) (x : Disk × SimulatedTransport)
      (hfiles : s.plan.files = pre ++ i :: post)
      (hx : x.1.Shows (hs.after ⟨s.plan.directories, pre, []⟩) ∧ x.1.temp = none ∧
        Downloading s v x.2 pre) :
      ∃ x', (pullFile root s.source s.destination s.plan i).run execBoth x = (.ok (), x') ∧
        x'.1.Shows (hs.after ⟨s.plan.directories, pre ++ [i], []⟩) ∧ x'.1.temp = none ∧
        Downloading s v x'.2 (pre ++ [i]) := by
    obtain ⟨w₂, link₂⟩ := x
    obtain ⟨hshows, htemp₂, hdown⟩ := hx
    obtain ⟨w₃, link₃, hrun, hnext, hshows', htemp₃⟩ :=
      pullFile_run hof hsource hholds hdown hpush hreal hfiles hshows
    exact ⟨_, hrun, hshows', htemp₃, hnext⟩
  obtain ⟨⟨w₂, link₂⟩, hloop, hw₂, htemp₂, hdown⟩ := Prog.run_forM_of_turns
    (fun is (x : Disk × SimulatedTransport) => x.1.Shows (hs.after ⟨s.plan.directories, is, []⟩) ∧
      x.1.temp = none ∧ Downloading s v x.2 is)
    (show (w₁, link).1.Shows (hs.after ⟨s.plan.directories, [], []⟩) ∧ (w₁, link).1.temp = none ∧
      Downloading s v (w₁, link).2 [] from ⟨hw₁, htemp₁, h⟩) hturn
  -- The server confirms that its source has not changed, and ends the session.
  obtain ⟨howner, hallowed, hsession, rfl⟩ := hdown
  have hserve : ((s.reached false s.plan.files).serve .finish).run exec link₂.disk
      = (.ok (.message .ok, none), link₂.disk) := by
    refine Prog.run_bind_eq_ok.mpr ⟨(), link₂.disk, ?_, rfl⟩
    exact Session.pull_finish_run hpush hreal
      (checkSource_run hscan fun e he _ => hof.valid.takes he (hholds e he))
  have hdispatch := SimulatedTransport.dispatch_served carried_finish carried_ok hallowed hsession
    howner hreal (fun _ _ _ _ h => by cases h) hserve
  -- Only then does the client remove what is extraneous.
  obtain ⟨⟨⟩, w', hfinish, hw', -, htimed⟩ := (hs.does_finish hw₂ htemp₂).run
  refine ⟨w', { link₂ with server := { link₂.server with session := none } }, ?_, rfl, rfl, hw'.view,
    htimed⟩
  subst hoptions
  rw [hsource, hdestination] at hloop
  refine Prog.run_bind_eq_ok.mpr ⟨_, _, Prog.run_lift_eq_ok.mpr
    ⟨hsource ▸ hdestination ▸ hs.plan, rfl⟩, ?_⟩
  rw [if_neg (by simp [hreal])]
  refine Prog.run_bind_eq_ok.mpr ⟨_, _, onDisk_run (hsource ▸ hprepare), ?_⟩
  refine Prog.run_bind_eq_ok.mpr ⟨_, _, hloop, ?_⟩
  refine Prog.run_bind_eq_ok.mpr ⟨_, _, ok_answered carried_finish hdispatch, ?_⟩
  exact onDisk_run (hsource ▸ hfinish)

end Client

end

/-! ### Sessions -/

/-- Of two things, that of the side that sends its files. -/
def SyncRequest.sender {α : Type} (job : SyncRequest) (here there : α) : α :=
  if job.push then here else there

/-- Of two things, that of the side that is synchronized. -/
def SyncRequest.receiver {α : Type} (job : SyncRequest) (here there : α) : α :=
  if job.push then there else here

section
variable [Sha256] {root far : Root} {scan there : Scan} {job : SyncRequest} {w : Disk}
  {link : SimulatedTransport} {p : Plan}

/-- What the two parties bring to a session: a client that has scanned its tree, and an idle server
that allows the session, with an export that can be scanned. -/
structure Meeting (root : Root) (scan : Scan) (job : SyncRequest) (w : Disk)
    (link : SimulatedTransport) (far : Root) (there : Scan) : Prop where
  scans : (RrSync.scan root job.options.checksum).run exec w = (.ok scan, w)
  scansThere : (RrSync.scan far job.options.checksum).run exec link.disk = (.ok there, link.disk)
  idle : link.server.session = none
  subtree : link.server.root.subtree job.path = .ok far
  allowed : link.permission ≠ .deny
  full : job.push = true → link.permission = .full
  found : job.push = false → (far.exists? "").run exec link.disk = (.ok true, link.disk)
  start : ∃ b, (Message.start job.push job.options job.path scan.manifest).encode = .ok b
  listed : ∃ b, (Message.manifest there.manifest).encode = .ok b
  /-- No joined path is too long, on either side. -/
  hold : root.Holds scan.manifest ∧ far.Holds there.manifest ∧
    (job.receiver root far).Holds (job.sender scan.manifest there.manifest)
  /-- No call fails on the disk that is synchronized, and nothing is staged on it. -/
  calm : ∀ k, (job.receiver w link.disk).env.fault k = false
  clean : (job.receiver w link.disk).temp = none

/-- The answer to START. -/
theorem Meeting.starts (h : Meeting root scan job w link far there)
    (hp : plan (job.sender scan.manifest there.manifest)
      (job.receiver scan.manifest there.manifest) job.options = .ok p) :
    (Client.request (.start job.push job.options job.path scan.manifest)).run execBoth (w, link)
      = (.ok (.manifest there.manifest), w, { link with server := { link.server with
        session := some (.opened link.connection job.push job.options far scan.manifest there p 0) } }) := by
  obtain ⟨b, hb⟩ := h.start
  obtain ⟨c, hc⟩ := h.listed
  obtain ⟨hsend, rfl, hfit⟩ := Message.encode_ok.mp hb
  obtain ⟨hsend', rfl, hfit'⟩ := Message.encode_ok.mp hc
  refine Client.request_answered ⟨hsend, id, hfit⟩ ⟨hsend', id, hfit'⟩ (fun _ _ h => by cases h) ?_
  exact SimulatedTransport.dispatch_message ⟨hsend, id, hfit⟩ ⟨hsend', id, hfit'⟩
    (Server.start_answers h.allowed h.full h.idle h.subtree h.found h.scansThere hp)

/-- How a session ends: the client returns without an error, the server is idle again, the side that
sends is as it was, and the other one is at the goal, with the files of the sender. -/
def Completes (root : Root) (scan : Scan) (job : SyncRequest) (w : Disk)
    (link : SimulatedTransport) (far : Root) (there : Scan) : Prop :=
  ∃ w' link', (Client.synchronize root scan job).run execBoth (w, link) = (.ok (), w', link') ∧
    link'.server.session = none ∧
    job.sender w' link'.disk = job.sender w link.disk ∧
    (job.receiver w' link'.disk).tree.view = goal (job.receiver root far)
      (job.sender scan.manifest there.manifest) (job.receiver scan.manifest there.manifest) job.options
      ((job.sender root far).fileAt (job.sender w link.disk).tree)
      (job.receiver w link.disk).tree.view ∧
    Outcome (job.receiver root far) (job.sender scan.manifest there.manifest)
      (job.receiver scan.manifest there.manifest) job.options (job.receiver w link.disk).tree
      (job.receiver w' link'.disk)

omit [Sha256] in
/-- A server without a session has none after a lost connection. -/
theorem disconnect_idle {server : Server} {connection : ConnectionId} (h : server.session = none) :
    (server.disconnect connection).session = none := by
  unfold Server.disconnect
  rw [h]
  exact h

/-- A session that ends without an error, but for the close. -/
theorem Client.synchronize_run {w' : Disk} {link' : SimulatedTransport}
    (h : (synchronizeInner root scan job).run execBoth (w, link) = (.ok (), w', link')) :
    (synchronize root scan job).run execBoth (w, link)
      = (.ok (), w', { link'.disconnect with download := none }) := by
  have hattempt : ((synchronizeInner root scan job).attempt : ClientM (Except Error Unit)).run
      execBoth (w, link) = (.ok (.ok ()), w', link') := by
    rw [Prog.run_attempt, h]
  exact Prog.run_bind_eq_ok.mpr ⟨_, _, hattempt, Prog.run_bind_eq_ok.mpr ⟨_, _, rfl, rfl⟩⟩

/-- Two trees that were scanned are a start for the plan between them, with the files of one. -/
theorem start_of_scans {sent received : Root} {v v' : Disk} {s s' : Scan} {options : Options}
    (hs : (RrSync.scan sent options.checksum).run exec v = (.ok s, v))
    (hs' : (RrSync.scan received options.checksum).run exec v' = (.ok s', v'))
    (hp : plan s.manifest s'.manifest options = .ok p) (hhold : received.Holds s.manifest)
    (hhold' : received.Holds s'.manifest) :
    Start received s.manifest s'.manifest options p (sent.fileAt v.tree) v'.tree := by
  have hof := scan_sound (congrArg Prod.fst hs)
  have hok : ((RrSync.scan received options.checksum).run exec v').1 = .ok s' := by rw [hs']
  obtain ⟨hclear, hbase⟩ := scan_clear hok
  refine Start.of hp (scan_sound hok).mirrors hclear hbase hhold hhold' fun i hi e he => ?_
  obtain ⟨e', he', ht⟩ := (mem_files hp).mp hi
  obtain rfl := Option.some.inj (he.symm.trans he')
  have hmem := List.mem_of_getElem? he
  obtain ⟨hsize, hhash⟩ := fileAt_bytes hof hmem (live_of_transfers ht).2
  refine ⟨hsize, fun x hx => ?_⟩
  have hsome := hhash (hof.hash e hmem (by rw [hx]; rfl)).2
  exact Option.some.inj (hx.symm.trans hsome)

end

/-- An honest session completes, in both directions. -/
theorem sessions_complete [Sha256] {root far : Root} {scan there : Scan} {job : SyncRequest} {w : Disk}
    {link : SimulatedTransport} {p : Plan} (h : Meeting root scan job w link far there)
    (hp : plan (job.sender scan.manifest there.manifest)
      (job.receiver scan.manifest there.manifest) job.options = .ok p)
    (hreal : job.options.dryRun = false) : Completes root scan job w link far there := by
  have hstart := h.starts hp
  obtain ⟨hscan, hthere, -, -, hallowed, hfull, -, -, -, ⟨hhere, hfar, hhold⟩, hcalm, hclean⟩ := h
  obtain ⟨push, path, options⟩ := job
  let s : Session := .opened link.connection push options far scan.manifest there p 0
  let link₀ : SimulatedTransport :=
    { link with server := { link.server with session := some s } }
  -- A push changes the far disk only, a pull the near one only.
  cases push with
  | true =>
    have hs := start_of_scans hscan hthere hp hhold hfar
    have hup : Uploading s hs link₀ [] :=
      ⟨rfl, hfull rfl, ⟨false, rfl, fun _ => rfl, hcalm, rfl⟩, hclean⟩
    obtain ⟨link', hrun, hidle, hview, htimed⟩ :=
      Client.push_run hscan rfl rfl hhere hup rfl hreal rfl
    have hinner : (Client.synchronizeInner root scan ⟨true, path, options⟩).run execBoth (w, link)
        = (.ok (), w, link') := Prog.run_bind_eq_ok.mpr ⟨_, _, hstart, hrun⟩
    exact ⟨w, _, Client.synchronize_run hinner, disconnect_idle hidle, rfl, hview,
      hs.outcome hview htimed⟩
  | false =>
    have hs := start_of_scans hthere hscan hp hhold hhere
    have hdown : Downloading s link.disk link₀ [] := ⟨rfl, hallowed, rfl, rfl⟩
    obtain ⟨w', link', hrun, hidle, hdisk, hview, htimed⟩ :=
      Client.pull_run (s := s) hs hthere rfl rfl hfar hdown rfl hreal rfl ⟨hcalm, rfl⟩ hclean
    have hinner : (Client.synchronizeInner root scan ⟨false, path, options⟩).run execBoth (w, link)
        = (.ok (), w', link') := Prog.run_bind_eq_ok.mpr ⟨_, _, hstart, hrun⟩
    exact ⟨w', _, Client.synchronize_run hinner, disconnect_idle hidle, hdisk, hview,
      hs.outcome hview htimed⟩

/-- The push of the small destination to an export that is empty. -/
def emptyLink : SimulatedTransport :=
  ⟨⟨.opened, none⟩, .empty, Vector.replicate 16 1, .full, 0, none⟩

/-- The plan that makes all of the small destination where nothing is. -/
def emptyPlan : Plan := ⟨[⟨.create, "a"⟩, ⟨.create, "c"⟩], [0, 1], [], [], []⟩

/-- The scan of an empty export. -/
theorem empty_scan : ∃ s, (@scan emptySha Root.opened true).run exec .empty = (.ok s, .empty) ∧
    s.manifest = ⟨[]⟩ := by
  let := emptySha
  have h : ((scan Root.opened true).run exec .empty).1.map Scan.manifest = .ok ⟨[]⟩ := by
    decide +kernel
  cases hs : ((scan Root.opened true).run exec .empty).1 with
  | error e =>
    rw [hs] at h
    cases h
  | ok s =>
    rw [hs] at h
    exact ⟨s, Prod.ext hs ((quiet_of_reads calls_scan).run_snd _), Except.ok.inj h⟩

/-- A push of two files to an empty export. -/
theorem sessions_complete_small : ∃ s s', s.manifest = smallDestination ∧ s'.manifest = ⟨[]⟩ ∧
    @Completes emptySha .opened s ⟨true, "", smallOptions⟩ smallDisk emptyLink .opened s' := by
  obtain ⟨s, hscan, hs⟩ := small_scan
  obtain ⟨s', hscan', hs'⟩ := empty_scan
  have hp : plan s.manifest s'.manifest smallOptions = .ok emptyPlan := by
    rw [hs, hs']
    decide +kernel
  have hvalid := (plan_ok.mp hp).1
  have hvalid' := (plan_ok.mp hp).2.1
  -- Both messages with a manifest are small enough to be encoded.
  have hstart : (Message.start true smallOptions "" s.manifest).encode
      = .ok (Message.start true smallOptions "" s.manifest).bytes := by
    rw [hs]
    decide +kernel
  have hlisted : (Message.manifest s'.manifest).encode
      = .ok (Message.manifest s'.manifest).bytes := by
    rw [hs']
    decide +kernel
  have hmeeting : @Meeting emptySha .opened s ⟨true, "", smallOptions⟩ smallDisk emptyLink .opened
      s' := @Meeting.mk emptySha _ _ _ _ _ _ _ hscan hscan' rfl rfl (by decide) (fun _ => rfl)
    (fun h => by cases h) ⟨_, hstart⟩ ⟨_, hlisted⟩
    ⟨opened_holds hvalid, opened_holds hvalid', opened_holds hvalid⟩ (fun _ => rfl) rfl
  exact ⟨s, s', hs, hs', @sessions_complete emptySha _ _ _ _ _ _ _ _ hmeeting hp rfl⟩

end RrSync

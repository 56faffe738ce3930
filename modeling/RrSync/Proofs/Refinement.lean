import RrSync.Proofs.Confined
import RrSync.Proofs.Replay

/-!
# `RrSync.Proofs.Refinement`: the requests of a session run its plan

When the FINISH of a push session is answered OK, the requests since its START have done to the
export what one run of the plan does, with the files in the order of their uploads and with the
contents that were uploaded (`refined_of_run`). This is so in every run of the first server, whatever
other connections ask in between.
-/

set_option autoImplicit false

namespace RrSync

open Lib

/-! ### The first server -/

section
variable [Sha256] {server : Server} {s : Session} {now : Instant} {connection : ConnectionId}
  {permission : Permission} {request : Message} {given : Nat → Bytes → Prop} {w w' w₀ : Disk}

/-- A request of the owner that is answered is a run of `serve`. -/
theorem Server.serve_run {r : ServerReply × Server} (hs : server.session = some s)
    (howner : s.connection = connection)
    (hne : ∀ push options path manifest, request ≠ .start push options path manifest)
    (h : (server.handleInner now connection permission request).run exec w = (.ok r, w')) :
    ∃ session, (Session.serve { s with activity := now } request).run exec w
      = (.ok (r.1, session), w') ∧ r.2 = { server with session } := by
  have hfilter : server.session.filter (·.connection = connection) = some s := by
    rw [hs]
    simp [howner]
  obtain ⟨-, h⟩ := Prog.run_check_bind_eq_ok.mp h
  -- A request that is no START goes to the session.
  have hrest : (server.inSession now connection request).run exec w = (.ok r, w') := by
    cases request with
    | start push options path manifest => exact absurd rfl (hne _ _ _ _)
    | _ => exact h
  unfold inSession at hrest
  rw [hfilter] at hrest
  obtain ⟨-, hrest⟩ := Prog.run_check_bind_eq_ok.mp hrest
  obtain ⟨⟨reply, session⟩, w₁, hserve, hpure⟩ := Prog.run_bind_eq_ok.mp hrest
  obtain ⟨rfl, rfl⟩ := Prog.run_pure_eq_ok.mp hpure
  exact ⟨session, hserve, rfl⟩

/-- An answered START has scanned the export and left it alone. -/
theorem Server.start_run {push : Bool} {options : Options} {path : String} {manifest : Manifest}
    {r : ServerReply × Server}
    (h : (server.handleInner now connection permission
      (.start push options path manifest)).run exec w = (.ok r, w')) :
    w' = w ∧ ∀ s ∈ r.2.session, (scan s.root s.options.checksum).run exec w = (.ok s.scan, w) := by
  obtain ⟨-, h⟩ := Prog.run_check_bind_eq_ok.mp h
  replace h : (server.start now connection permission push options path manifest).run exec w
      = (.ok r, w') := h
  have hquiet : (server.start now connection permission push options path manifest).Quiet exec :=
    quiet_of_reads (calls_start fun _ hc => hc)
  have hw := hquiet.run_snd w
  rw [h] at hw
  obtain rfl : w' = w := hw
  refine ⟨rfl, fun s hs => ?_⟩
  obtain ⟨-, h⟩ := Prog.run_check_bind_eq_ok.mp h
  obtain ⟨-, h⟩ := Prog.run_check_bind_eq_ok.mp h
  obtain ⟨root, w₁, hlift, h⟩ := Prog.run_bind_eq_ok.mp h
  obtain ⟨-, rfl⟩ := Prog.run_lift_eq_ok.mp hlift
  -- What a START does once the root is known to be there.
  let rest : FsM (ServerReply × Server) := do
    let scan ← scan root options.checksum
    let plan ← (RrSync.plan (if push then manifest else scan.manifest)
      (if push then scan.manifest else manifest) options : Except Error Plan)
    pure (.message (.manifest scan.manifest), ⟨server.root,
      some (.opened connection push options root manifest scan plan now)⟩)
  have hrest (h : rest.run exec w' = (.ok r, w')) :
      (scan s.root s.options.checksum).run exec w' = (.ok s.scan, w') := by
    obtain ⟨found, w₁, hscan, h⟩ := Prog.run_bind_eq_ok.mp h
    obtain ⟨plan, w₂, hlift, hpure⟩ := Prog.run_bind_eq_ok.mp h
    obtain ⟨-, rfl⟩ := Prog.run_lift_eq_ok.mp hlift
    obtain ⟨rfl, rfl⟩ := Prog.run_pure_eq_ok.mp hpure
    cases hs
    exact hscan
  cases push with
  | true => exact hrest h
  | false =>
    obtain ⟨found, w₁, hexists, h⟩ := Prog.run_bind_eq_ok.mp h
    obtain ⟨-, h⟩ := Prog.run_check_bind_eq_ok.mp h
    have hquiet : (root.exists? "").Quiet exec := quiet_of_reads calls_exists
    have hw := hquiet.run_snd w'
    rw [hexists] at hw
    obtain rfl : w₁ = w' := hw
    exact hrest h

namespace Session

/-- The invariant of a push session of the first server: nothing is pending before `prepare`. -/
def Runs (s : Session) (given : Nat → Bytes → Prop) (w₀ w : Disk) : Prop :=
  s.Ran given w₀ w ∧ (s.pending ≠ none → s.prepared = true)

/-- A run with less given is one with more. -/
theorem Runs.imp {given' : Nat → Bytes → Prop} (h : s.Runs given w₀ w)
    (hgiven : ∀ i data, given i data → given' i data) : s.Runs given' w₀ w :=
  ⟨h.1.imp hgiven, h.2⟩

/-- A COMMIT that is answered was for the pending file and used the file that was received. -/
theorem commit_used {i : UInt32} {resource : TransferId} {s' : Session}
    (h : (s.commit i.toNat resource).run exec w = (.ok s', w')) : ∃ f,
      s.pending = some i.toNat ∧ s.received = some f ∧ f.transferId = resource := by
  obtain ⟨u, _, hlift, h⟩ := Prog.run_bind_eq_ok.mp h
  obtain ⟨-, rfl⟩ := Prog.run_lift_eq_ok.mp hlift
  obtain ⟨hpending, h⟩ := Prog.run_check_bind_eq_ok.mp h
  split at h
  · cases h
  · next f hf =>
    obtain ⟨e, _, hlift, h⟩ := Prog.run_bind_eq_ok.mp h
    obtain ⟨-, rfl⟩ := Prog.run_lift_eq_ok.mp hlift
    obtain ⟨hcheck, -⟩ := Prog.run_check_bind_eq_ok.mp h
    simp only [ne_eq, Bool.or_eq_true, decide_eq_true_eq, not_or, Decidable.not_not] at hcheck
    exact ⟨f, not_not.mp hpending, hf, hcheck.1.1⟩

/-- A COMMIT that is answered installs a file with the content that was received. -/
theorem Runs.commit {i : UInt32} {resource : TransferId} {s' : Session} (hs : s.Coherent)
    (h : s.Runs given w₀ w) (hcommit : (s.commit i.toNat resource).run exec w = (.ok s', w'))
    (hgiven : ∀ f, f.transferId = resource → s.pending = some i.toNat → s.received = some f →
      given i.toNat f.file) : s'.Runs given w₀ w' := by
  obtain ⟨hran, hpending⟩ := h
  obtain ⟨f', hpend, hf', hused⟩ := commit_used hcommit
  obtain ⟨u, _, hlift, hcommit⟩ := Prog.run_bind_eq_ok.mp hcommit
  obtain ⟨hfile, rfl⟩ := Prog.run_lift_eq_ok.mp hlift
  obtain ⟨hp, hcommit⟩ := Prog.run_check_bind_eq_ok.mp hcommit
  split at hcommit
  · cases hcommit
  · next f hf =>
    obtain rfl := Option.some.inj (hf'.symm.trans hf)
    obtain ⟨e, _, hlift, hcommit⟩ := Prog.run_bind_eq_ok.mp hcommit
    obtain ⟨he, rfl⟩ := Prog.run_lift_eq_ok.mp hlift
    obtain ⟨-, hcommit⟩ := Prog.run_check_bind_eq_ok.mp hcommit
    rw [← bind_assoc] at hcommit
    obtain ⟨u, w₂, hinstall, hpure⟩ := Prog.run_bind_eq_ok.mp hcommit
    obtain ⟨rfl, rfl⟩ := Prog.run_pure_eq_ok.mp hpure
    -- A pending file means that the plan was prepared.
    have hprepared : s.prepared = true := hpending (by rw [hpend]; simp)
    exact ⟨hran.install hs hprepared (requireFile_ok.mp hfile).2.2 (index_ok.mp he)
      (hgiven f' hused hpend hf') (run_marked unmarked_install hinstall), fun _ => hprepared⟩

/-- What a request of the owner makes of the invariant. The content of a file that is committed is
that of the file that was received. -/
theorem Runs.serve {reply : ServerReply} {session : Option Session} (hs : s.Coherent)
    (hpush : s.push = true) (hreal : s.options.dryRun = false) (h : s.Runs given w₀ w)
    (hrun : (s.serve request).run exec w = (.ok (reply, session), w'))
    (hgiven : ∀ i f, request = .commit i f.transferId → reply = .message .ok →
      s.pending = some i.toNat → s.received = some f → given i.toNat f.file) :
    (∀ s' ∈ session, s'.Runs given w₀ w') ∧ (request = .finish → s.Replays given w₀ w') := by
  obtain ⟨hran, hpending⟩ := h
  cases request with
  | begin i =>
    refine ⟨?_, fun h => by cases h⟩
    obtain ⟨s₁, w₁, hbegin, hpure⟩ := Prog.run_bind_eq_ok.mp hrun
    obtain ⟨heq, rfl⟩ := Prog.run_pure_eq_ok.mp hpure
    obtain ⟨u, _, hlift, hbegin⟩ := Prog.run_bind_eq_ok.mp hbegin
    obtain ⟨-, rfl⟩ := Prog.run_lift_eq_ok.mp hlift
    obtain ⟨-, hbegin⟩ := Prog.run_check_bind_eq_ok.mp hbegin
    obtain ⟨s₂, w₂, hready, hpure⟩ := Prog.run_bind_eq_ok.mp hbegin
    obtain ⟨rfl, rfl⟩ := Prog.run_pure_eq_ok.mp hpure
    -- After BEGIN the plan is prepared, for the first time or since before.
    obtain ⟨hprepared, hran⟩ := hran.ready hready
    cases heq
    rintro _ ⟨⟩
    exact ⟨hran, fun _ => by rw [hprepared]⟩
  | commit i resource =>
    refine ⟨?_, fun h => by cases h⟩
    obtain ⟨s₁, w₁, hcommit, hpure⟩ := Prog.run_bind_eq_ok.mp hrun
    obtain ⟨heq, rfl⟩ := Prog.run_pure_eq_ok.mp hpure
    obtain ⟨f, hpend, hf, rfl⟩ := commit_used hcommit
    cases heq
    rintro _ ⟨⟩
    -- The id of the transfer names the file that was received.
    refine Runs.commit hs ⟨hran, hpending⟩ hcommit fun f' _ _ hf' => ?_
    obtain rfl := Option.some.inj (hf.symm.trans hf')
    exact hgiven i f rfl rfl hpend hf
  | get i =>
    obtain ⟨s₁, w₁, hget, -⟩ := Prog.run_bind_eq_ok.mp hrun
    obtain ⟨u, _, hlift, -⟩ := Prog.run_bind_eq_ok.mp hget
    -- A push has no GET.
    have hpull := (requireFile_ok.mp (Prog.run_lift_eq_ok.mp hlift).1).1
    rw [hpush] at hpull
    cases hpull
  | verified i =>
    obtain ⟨s₁, w₁, hverified, -⟩ := Prog.run_bind_eq_ok.mp hrun
    obtain ⟨u, _, hlift, -⟩ := Prog.run_bind_eq_ok.mp hverified
    have hpull := (requireFile_ok.mp (Prog.run_lift_eq_ok.mp hlift).1).1
    rw [hpush] at hpull
    cases hpull
  | finish =>
    obtain ⟨u, w₁, hfinish, hpure⟩ := Prog.run_bind_eq_ok.mp hrun
    obtain ⟨heq, rfl⟩ := Prog.run_pure_eq_ok.mp hpure
    cases heq
    refine ⟨fun _ h => absurd h (Option.not_mem_none _), fun _ => ?_⟩
    unfold Session.finish at hfinish
    rw [if_pos (by simp [hreal])] at hfinish
    -- All files of the plan are done, so only the removals and the times are left.
    obtain ⟨hcomplete, hfinish⟩ := Prog.run_check_bind_eq_ok.mp hfinish
    simp only [Bool.or_eq_true, decide_eq_true_eq, not_or, Decidable.not_not, ne_eq] at hcomplete
    rw [if_pos hpush] at hfinish
    obtain ⟨s₁, w₂, hready, hfinish⟩ := Prog.run_bind_eq_ok.mp hfinish
    obtain ⟨rfl, hran⟩ := hran.ready hready
    exact hran.finish (s := { s with prepared := true }) hs.done hcomplete.2
      (run_marked unmarked_finish hfinish) rfl
  | _ => cases hrun

/-- What holds of a session after the START in which it has scanned the disk `w₀`. -/
structure Since (I : Session → Disk → Disk → Prop) (s : Session) (w₀ w : Disk) : Prop where
  scanned : (RrSync.scan s.root s.options.checksum).run exec w₀ = (.ok s.scan, w₀)
  led : s.push = true → s.options.dryRun = false → I s w₀ w

/-- What is said of the time since START is kept by a step that keeps its parts. -/
theorem Since.keep {I I' : Session → Disk → Disk → Prop} {s' : Session} (h : s.Since I w₀ w)
    (hfixed : s'.fixed = s.fixed)
    (hled : s.push = true → s.options.dryRun = false → I s w₀ w → I' s' w₀ w') :
    s'.Since I' w₀ w' := by
  have hof {β : Type} (f : Session → β) (hf : ∀ s, f s.fixed = f s) : f s' = f s :=
    (hf s').symm.trans ((congrArg f hfixed).trans (hf s))
  have hroot : s'.root = s.root := hof Session.root fun _ => rfl
  have hscan : s'.scan = s.scan := hof Session.scan fun _ => rfl
  have hpush : s'.push = s.push := hof Session.push fun _ => rfl
  have hoptions : s'.options = s.options := hof Session.options fun _ => rfl
  refine ⟨?_, fun hp hd => ?_⟩
  · rw [hroot, hscan, hoptions]
    exact h.scanned
  · rw [hpush] at hp
    rw [hoptions] at hd
    exact hled hp hd (h.led hp hd)

end Session

/-! ### The runs of the first server -/

variable {st : Server × Disk}

/-- Only the owner of the session touches the disk. -/
theorem still_of_stranger (h : ∀ s ∈ st.1.session, s.connection ≠ connection) :
    (step st (.handle now connection permission request)).2.2 = st.2 := by
  have hcalls : Prog.Issues (S := FsSig) FsCall.Reads
      (st.1.handle now connection permission request) :=
    Server.calls_handle (Server.calls_handleInner (fun _ hc => hc)
      fun s _ hs howner => absurd howner (h s hs))
  have hrun := (quiet_of_reads hcalls).run_snd st.2
  rwa [Prog.run_eq_runOk] at hrun

/-- A request that is answered is a run of `handleInner`. -/
theorem step_answered {reply : ServerReply}
    (hreply : (step st (.handle now connection permission request)).1 = .reply (.ok reply)) :
    (st.1.handleInner now connection permission request).run exec st.2
      = (.ok (reply, (step st (.handle now connection permission request)).2.1),
        (step st (.handle now connection permission request)).2.2) := by
  rw [step_handle, Server.handle_run] at hreply ⊢
  rcases hrun : (st.1.handleInner now connection permission request).run exec st.2 with
    ⟨_ | ⟨reply', server'⟩, w'⟩
  · rw [hrun] at hreply
    cases hreply
  · rw [hrun] at hreply
    cases hreply
    rfl

/-- A session that a call leaves was there before, if the call opens none. -/
theorem kept_of_step (hs : st.1.Coherent) {i : Input}
    (hstart : Occurrence.starts (event step st i) = false) {s' : Session}
    (hs' : s' ∈ (step st i).2.1.session) : ∃ s ∈ st.1.session, s'.fixed = s.fixed := by
  rcases (step_session hs i).2 with ⟨-, hkept⟩ | ⟨htrue, -⟩
  · exact hkept s' hs'
  · rw [hstart] at htrue
    cases htrue

/-- A request that opens no session takes the invariant of the session along. -/
theorem handle_runs (hs : st.1.Coherent) {s s' : Session} (hsession : st.1.session = some s)
    (hstart : Occurrence.starts (event step st (.handle now connection permission request)) = false)
    (hs' : s' ∈ (step st (.handle now connection permission request)).2.1.session)
    (hpush : s.push = true) (hreal : s.options.dryRun = false) (hruns : s.Runs given w₀ st.2)
    (hgiven : ∀ j f, request = .commit j f.transferId → s.connection = connection →
      (step st (.handle now connection permission request)).1 = .reply (.ok (.message .ok)) →
      s.pending = some j.toNat → s.received = some f → given j.toNat f.file) :
    s'.Runs given w₀ (step st (.handle now connection permission request)).2.2 := by
  rcases Server.handle_cases hs now connection permission request st.2 with
    ⟨reply, hr, hacc⟩ | ⟨err, hr, -, hdis⟩
  · have hreply : (step st (.handle now connection permission request)).1 = .reply (.ok reply) :=
      congrArg Output.reply hr
    by_cases howner : s.connection = connection
    · -- The owner is answered, and its request is no START.
      have hne : ∀ push options path manifest, request ≠ .start push options path manifest := by
        rintro push options path manifest rfl
        unfold Occurrence.starts event at hstart
        rw [hreply] at hstart
        cases hstart
      obtain ⟨session, hserve, hserver⟩ := Server.serve_run hsession howner hne (step_answered hreply)
      dsimp only at hserver
      rw [hserver] at hs'
      refine (Session.Runs.serve (s := { s with activity := now })
        ((hs s hsession).1.touch now) hpush hreal hruns hserve fun j f hj hok => ?_).1 s' hs'
      have hanswer : reply = .message .ok := hok
      rw [hanswer] at hreply
      exact hgiven j f hj howner hreply
    · generalize ((st.1.handle now connection permission request).runOk exec st.2).1.2 = server'
        at hacc
      cases hacc with
      | start _ _ idle =>
        rw [hsession] at idle
        cases idle
      | serve _ active owner =>
        rw [hsession] at active
        exact absurd (Option.some.inj active ▸ owner) howner
  · -- A refused request of another connection leaves the session and the disk.
    change s' ∈ ((st.1.handle now connection permission request).runOk exec st.2).1.2.session at hs'
    rw [hdis] at hs'
    obtain ⟨hmem, hother⟩ := Server.mem_disconnect hs'
    obtain rfl := Option.some.inj (hsession.symm.trans hmem)
    rw [still_of_stranger fun x hx => Option.some.inj (Eq.trans (Eq.symm hx) hmem) ▸ hother]
    exact hruns

/-- A call that opens no session takes the invariant of the session along. What is given after the
call contains what was given before it, and the file of a COMMIT that is answered. -/
theorem step_runs (hs : st.1.Coherent) {i : Input}
    (hstart : Occurrence.starts (event step st i) = false) {s' : Session}
    (hs' : s' ∈ (step st i).2.1.session) {given given' : Nat → Bytes → Prop}
    (hmore : ∀ i data, given i data → given' i data)
    (hgiven : ∀ s ∈ st.1.session, ∀ now permission j f,
      i = .handle now s.connection permission (.commit j f.transferId) →
      (step st i).1 = .reply (.ok (.message .ok)) → s.push = true → s.pending = some j.toNat →
      s.received = some f → given' j.toNat f.file) :
    ∃ s ∈ st.1.session, s'.fixed = s.fixed ∧
      ∀ w₀, s.push = true → s.options.dryRun = false → s.Runs given w₀ st.2 →
        s'.Runs given' w₀ (step st i).2.2 := by
  obtain ⟨s, hsession, hfixed⟩ := kept_of_step hs hstart hs'
  refine ⟨s, hsession, hfixed, fun w₀ hpush hreal hbefore => ?_⟩
  -- An earlier upload is still one.
  have hruns := hbefore.imp hmore
  cases i with
  | handle now connection permission request =>
    refine handle_runs hs hsession hstart hs' hpush hreal hruns fun j f hj howner ho => ?_
    subst hj howner
    exact hgiven s hsession now permission j f rfl ho hpush
  | receive connection file =>
    obtain ⟨server', h, -, hcases⟩ := hs.receive connection file
    rw [step_receive, h] at hs' ⊢
    rcases hcases with rfl | ⟨x, hx, -, -, rfl⟩
    · obtain rfl := Option.some.inj (hsession.symm.trans hs')
      exact hruns
    · obtain rfl := Option.some.inj (hsession.symm.trans hx)
      obtain rfl := Option.some.inj hs'
      exact hruns
  | disconnect connection =>
    obtain rfl := Option.some.inj (hsession.symm.trans (Server.mem_disconnect hs').1)
    exact hruns
  | touch connection now =>
    obtain ⟨x, hx, rfl⟩ := Option.map_eq_some_iff.mp hs'
    obtain rfl := Option.some.inj (hsession.symm.trans hx)
    show Session.Runs (if s.connection = connection then { s with activity := now } else s) given'
      w₀ st.2
    split <;> exact hruns
  | expire now timeout =>
    obtain rfl := Option.some.inj (hsession.symm.trans (Server.mem_expire hs'))
    exact hruns

/-- An accepted START leaves the disk alone and opens a session that has scanned it. -/
theorem step_opened (hs : st.1.Coherent) {i : Input}
    (hstart : Occurrence.starts (event step st i) = true) :
    (step st i).2.2 = st.2 ∧ ∀ s ∈ (step st i).2.1.session,
      (scan s.root s.options.checksum).run exec st.2 = (.ok s.scan, st.2) ∧
      s.prepared = false ∧ s.done = [] ∧ s.pending = none := by
  unfold Occurrence.starts event at hstart
  split at hstart
  · next now connection permission push options path manifest reply hi ho =>
    dsimp only at hi ho
    subst hi
    have hrun := step_answered ho
    obtain ⟨hdisk, hscan⟩ := Server.start_run hrun
    refine ⟨hdisk, fun s hsession => ⟨hscan s hsession, ?_⟩⟩
    -- START leaves a session in which nothing is done.
    have hacc := (Server.handleInner_ends hs now connection permission
      (.start push options path manifest)).run exec st.2
    rw [hrun] at hacc
    generalize (step st (.handle now connection permission
      (.start push options path manifest))).2.1 = server' at hacc hsession
    cases hacc with
    | start =>
      cases hsession
      exact ⟨rfl, rfl, rfl⟩
    | serve _ _ _ _ served => cases served
  · cases hstart

omit [Sha256] in
/-- Which request has started a session depends only on its fixed part. -/
theorem began_of_fixed {e : Occurrence} {root : Root} {s s' : Session} {o : Origin}
    (h : Occurrence.Began e root s o) (hfixed : s'.fixed = s.fixed) : Occurrence.Began e root s' o := by
  have hbegan : Occurrence.Began e root s.fixed o := ⟨⟨h.1.1, h.1.2, h.1.3⟩, h.2⟩
  rw [← hfixed] at hbegan
  exact ⟨⟨hbegan.1.1, hbegan.1.2, hbegan.1.3⟩, hbegan.2⟩

/-- The content `data` was uploaded for the file `n`: one of the calls is a COMMIT of it that was
answered, with a file that was delivered between its BEGIN and this COMMIT. -/
def Uploaded (connection : ConnectionId) (since : List Occurrence) (n : Nat) (data : Bytes) : Prop :=
  ∃ a commit b i f, since = a ++ commit :: b ∧
    commit.Answers connection (.commit i f.transferId) ∧ i.toNat = n ∧ f.file = data ∧
    Delivered connection n f a

omit [Sha256] in
/-- An upload stays one when more is requested. -/
theorem Uploaded.snoc {since : List Occurrence} {n : Nat} {data : Bytes} {e : Occurrence}
    (h : Uploaded connection since n data) : Uploaded connection (since ++ [e]) n data := by
  obtain ⟨a, commit, b, i, f, rfl, hrest⟩ := h
  exact ⟨a, commit, b ++ [e], i, f, by simp, hrest⟩

/-- In a run, a push session has run what its state says since its START, with the contents that
were uploaded since then. -/
theorem runs_of_run {root : Root} {w : Disk} {is : List Input} {past fut : List Occurrence}
    {e : Occurrence} (h : events step (⟨root, none⟩, w) is = past ++ e :: fut) :
    ∀ s ∈ e.pre.1.session, ∃ before first, past = before ++ first :: sinceStart past ∧
      (∃ o, Occurrence.Began first root s o) ∧
      s.Since (fun s => s.Runs (Uploaded s.connection (sinceStart past))) first.pre.2 e.pre.2 := by
  let Opens (first : Occurrence) (since : List Occurrence) (b : Session × Disk) : Prop :=
    (∃ o, Occurrence.Began first root b.1 o) ∧
      b.1.Since (fun s => s.Runs (Uploaded s.connection since)) first.pre.2 b.2
  let Inv (past : List Occurrence) (st : Server × Disk) : Prop := Track past st ∧ st.1.root = root
  -- START begins the run, before its first step.
  have hopen (past : List Occurrence) (st : Server × Disk) (i : Input) (hst : Inv past st)
      (hs : Occurrence.starts (event step st i) = true) (b : Session × Disk)
      (hb : b ∈ (step st i).2.1.session.map fun s => (s, (step st i).2.2)) :
      Opens (event step st i) [] b := by
    obtain ⟨s, hsession, rfl⟩ := Option.map_eq_some_iff.mp hb
    rcases (step_session hst.1.coherent i).2 with ⟨hfalse, -⟩ | ⟨-, hbegan⟩
    · rw [hs] at hfalse
      cases hfalse
    · obtain ⟨hdisk, hscan⟩ := step_opened hst.1.coherent hs
      obtain ⟨hrun, hprepared, hdone, hpending⟩ := hscan s hsession
      refine ⟨hst.2 ▸ hbegan s hsession, hrun, fun _ _ => ⟨.inl ⟨hprepared, hdone, ?_⟩, ?_⟩⟩
      · exact congrArg Disk.plain hdisk
      · exact fun hne => absurd hpending hne
  -- Each later call continues it, with what was uploaded by then.
  have hkeep (past : List Occurrence) (st : Server × Disk) (i : Input) (hst : Inv past st)
      (hs : Occurrence.starts (event step st i) = false) (b' : Session × Disk)
      (hb' : b' ∈ (step st i).2.1.session.map fun s => (s, (step st i).2.2)) :
      ∃ b ∈ st.1.session.map fun s => (s, st.2), ∀ first : Occurrence,
        Opens first (sinceStart past) b → Opens first (sinceStart past ++ [event step st i]) b' := by
    obtain ⟨s', hs', rfl⟩ := Option.map_eq_some_iff.mp hb'
    -- The file of a COMMIT was delivered after its BEGIN, so it is an upload of this session.
    have hcommit (s : Session) (hsession : s ∈ st.1.session) (now : Instant)
        (permission : Permission) (j : UInt32) (f : ReceivedFile)
        (hi : i = .handle now s.connection permission (.commit j f.transferId))
        (ho : (step st i).1 = .reply (.ok (.message .ok))) (hpush : s.push = true)
        (hpending : s.pending = some j.toNat) (hreceived : s.received = some f) :
        Uploaded s'.connection (sinceStart past ++ [event step st i]) j.toNat f.file := by
      obtain ⟨s₀, hs₀, hfixed⟩ := kept_of_step hst.1.coherent hs hs'
      obtain rfl := Option.some.inj (Eq.trans (Eq.symm hs₀) hsession)
      have hconnection : s'.connection = s₀.connection := congrArg (·.connection) hfixed
      rw [hconnection]
      exact ⟨sinceStart past, _, [], j, f, rfl, ⟨now, permission, hi, ho⟩, rfl, rfl,
        (hst.1.session s₀ hsession).delivered hpush hpending hreceived⟩
    have hmore (n : Nat) (data : Bytes) (h : Uploaded s'.connection (sinceStart past) n data) :
        Uploaded s'.connection (sinceStart past ++ [event step st i]) n data := h.snoc
    obtain ⟨s, hsession, hfixed, hruns⟩ := step_runs hst.1.coherent hs hs' hmore hcommit
    have hconnection : s'.connection = s.connection := congrArg (·.connection) hfixed
    refine ⟨(s, st.2), Option.mem_map_of_mem _ hsession, fun first hfirst => ?_⟩
    obtain ⟨⟨o, hbegan⟩, hsince⟩ := hfirst
    refine ⟨⟨o, began_of_fixed hbegan hfixed⟩, hsince.keep hfixed fun hpush hreal hled => ?_⟩
    exact hruns _ hpush hreal (hconnection ▸ hled)
  obtain ⟨-, -, hcur⟩ := events_evolve
    (fun st : Server × Disk => st.1.session.map fun s => (s, st.2)) Occurrence.starts Opens Inv
    ⟨started_track root w, rfl⟩ rfl
    (fun past st i hst => ⟨hst.1.step i, (step_session hst.1.coherent i).1.trans hst.2⟩) hopen hkeep h
  intro s hs
  exact hcur (s, e.pre.2) (Option.mem_map_of_mem _ hs)

/-- A FINISH is answered in the session of its connection. -/
theorem owner_of_finish (hs : st.1.Coherent) {reply : ServerReply}
    (hreply : (step st (.handle now connection permission .finish)).1 = .reply (.ok reply)) :
    ∃ s, st.1.session = some s ∧ s.connection = connection := by
  rcases Server.handle_cases hs now connection permission .finish st.2 with
    ⟨reply, -, hacc⟩ | ⟨err, hr, -⟩
  · generalize ((st.1.handle now connection permission .finish).runOk exec st.2).1.2 = server'
      at hacc
    cases hacc with
    | serve _ active owner => exact ⟨_, active, owner⟩
  · have ho : (step st (.handle now connection permission .finish)).1 = .reply (.error err) :=
      congrArg Output.reply hr
    rw [hreply] at ho
    cases ho

/-- What is known of a session that has come to its end on the disk `w`, when its START has found
the disk `w₀`. Its own manifest is a scan of `w₀`. If it is a push that is no dry run, the disk `w` is
what one run of its plan leaves of `w₀`. -/
structure Session.Refines (s : Session) (given : Nat → Bytes → Prop) (w₀ w : Disk) : Prop where
  scanned : (RrSync.scan s.root s.options.checksum).run exec w₀ = (.ok s.scan, w₀)
  own : (if s.push then s.destination else s.source) = s.scan.manifest
  replays : s.push = true → s.options.dryRun = false → s.Replays given w₀ w

/-- The call ends the session of the connection, which comes from one START among the calls `past`.
The contents of its run are those that were uploaded since then. -/
def Refined (root : Root) (past : List Occurrence) (e : Occurrence) (connection : ConnectionId) :
    Prop :=
  ∃ s ∈ e.pre.1.session, s.connection = connection ∧ ∃ before first o,
    past = before ++ first :: sinceStart past ∧ Occurrence.Began first root s o ∧
    s.Refines (Uploaded connection (sinceStart past)) first.pre.2 e.post.2

/-- When the owner's FINISH is answered, what the session has done to the tree is a run of the plan
with the contents that were uploaded. -/
theorem refined_of_run {root : Root} {w : Disk} {is : List Input} {past fut : List Occurrence}
    {e : Occurrence} (h : events step (⟨root, none⟩, w) is = past ++ e :: fut)
    (he : e.Answers connection .finish) : Refined root past e connection := by
  obtain ⟨hcoh, hevent, -⟩ := session_began h
  obtain ⟨now, permission, hinput, houtput⟩ := he
  have hstep : step e.pre (.handle now connection permission .finish) = (e.output, e.post) := by
    rw [← hinput]
    generalize e.input = i at hevent
    exact (congrArg (fun e : Occurrence => (e.output, e.post)) hevent).symm
  have hreply : (step e.pre (.handle now connection permission .finish)).1
      = .reply (.ok (.message .ok)) := (congrArg Prod.fst hstep).trans houtput
  obtain ⟨s, hsession, howner⟩ := owner_of_finish hcoh hreply
  obtain ⟨before, first, hpast, ⟨o, hbegan⟩, hsince⟩ := runs_of_run h s hsession
  subst howner
  have hcoherent := (hcoh s hsession).1
  refine ⟨s, hsession, rfl, before, first, o, hpast, hbegan, hsince.scanned, hcoherent.own.symm,
    fun hpush hreal => ?_⟩
  -- FINISH completes the run.
  obtain ⟨session, hserve, -⟩ := Server.serve_run hsession rfl (by intros; intro h; cases h)
    (step_answered hreply)
  rw [hstep] at hserve
  have hruns : Session.Runs { s with activity := now } (Uploaded s.connection (sinceStart past))
      first.pre.2 e.pre.2 := hsince.led hpush hreal
  exact (hruns.serve (hcoherent.touch now) hpush hreal hserve (by intro i f h; cases h)).2 rfl

end

end RrSync

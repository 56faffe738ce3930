import RrSync.Proofs.CacheCalls
import RrSync.Proofs.Transfers

/-!
# `RrSync.Proofs.AuthorityV2`: who may do what in a session of the second server

A request is answered without an error inside a session only if it comes from the connection
and the peer of its START and carries enough permission. Any other request on the connection
of the owner ends the session, and changes nothing but an activity record of the cache.
-/

set_option autoImplicit false

namespace RrSync

open Lib

/-! ### Dropping a transfer -/

/-- Nothing but activity records has changed, times aside. -/
def SameChunks (w w' : Disk) : Prop :=
  ∀ q, baseName q ≠ "activity".utf8 →
    (w'.tree.get q).map Node.body = (w.tree.get q).map Node.body

/-- The effects that leave everything but activity records as it is. -/
def recording : Effect := fun q old new =>
  baseName q ≠ "activity".utf8 → new.map Node.body = old.map Node.body

/-- Recording the activity stamps nothing. -/
theorem recording_stamps {q : Path} : recording.Stamps q := by
  rintro _ _ ⟨n, n', rfl, rfl, hb⟩ -
  exact congrArg some hb

/-- Recording the activity writes the file of the activity and no other. -/
theorem recording_puts {root : Root} : recording.Puts (root.pathOf "activity") := by
  intro old n data _ _ hne
  refine absurd ?_ hne
  have hname : slash ∉ "activity".utf8 := by decide
  by_cases hbase : root.base.utf8 = []
  · unfold Root.pathOf join
    rw [hbase, SepPath.join_nil_left]
    exact SepPath.baseName_of_notMem hname
  · exact SepPath.baseName_join_name _ (by decide) hname

namespace V2

section
variable [Sha256]

/-- Dropping a transfer writes the activity record of its store. -/
theorem drop_disks (t : Transfer) (w : Disks) :
    let w' := ((t.drop : Prog _ Empty Unit).runOk execVol w).2
    w' .tree = w .tree ∧ SameChunks (w .cache) (w' .cache) := by
  dsimp only
  unfold Transfer.drop
  split
  · next store missing hp =>
    rw [execVol, Prog.runOk_atVol]
    dsimp only
    refine ⟨Function.update_of_ne (by decide) _ _, fun q hq => ?_⟩
    rw [Function.update_self]
    have hcalls := @Store.calls_drop _ _ store Empty recording_stamps recording_puts
    have hmoment := Prog.moment_run exec (store.drop : Prog FsSig Empty Unit) (w .cache)
    have h := frame_of_issues hcalls (fun _ _ _ => rfl)
      (fun _ _ _ _ h h' hne => (h' hne).trans (h hne)) (fun _ hc => hc.2) hmoment q hq
    rw [Prog.run_eq_runOk] at h
    exact h
  · exact ⟨rfl, fun _ _ => rfl⟩

/-- A lost connection leaves the tree alone, and of the cache all but the files of the activity. -/
theorem disconnect_disks (server : Server) (connection : ConnectionId) (w : Disks) :
    let w' := ((server.disconnect connection : Prog _ Empty _).runOk execVol w).2
    w' .tree = w .tree ∧ SameChunks (w .cache) (w' .cache) := by
  dsimp only
  unfold Server.disconnect Server.forget
  split
  · split
    · next t ht =>
      rw [Prog.runOk_bind]
      exact drop_disks t w
    · exact ⟨rfl, fun _ _ => rfl⟩
  · exact ⟨rfl, fun _ _ => rfl⟩

end

/-! ### Requests that are refused -/

/-- The program fails before it does anything. -/
def Fails {S : Sig} {α : Type} (m : Prog S Error α) : Prop := ∃ e, m = throw e

/-- An error is a failure. -/
theorem fails_throw {S : Sig} {α : Type} (e : Error) : Fails (throw e : Prog S Error α) := ⟨e, rfl⟩

/-- A check before a program that fails is a failure either way. -/
theorem fails_check {S : Sig} {α β : Type} {c : Prop} [Decidable c] {e : Error}
    {k : β → Prog S Error α} {m : Prog S Error α} (hm : ¬ c → Fails m) :
    Fails (if c then throw e >>= k else m) := by
  split
  · exact ⟨e, rfl⟩
  · next hc => exact hm hc

/-- There is no second session. -/
theorem start_busy [Sha256] {server : RrSync.Server} {s : Session} {now : Instant}
    {connection : ConnectionId} {permission : Permission} {push : Bool} {options : Options}
    {path : String} {manifest : Manifest} (hactive : server.session = some s) :
    Fails (server.start now connection permission push options path manifest) := by
  refine fails_check fun _ => ?_
  rw [hactive]
  exact fails_check fun h => absurd rfl h

/-- A request of another peer than `starter`, or without the permission the session `s`
asks for. -/
def Foreign (s : Session) (starter peer : Id) (permission : Permission) : Prop :=
  peer ≠ starter ∨ permission = .deny ∨ s.push = true ∧ permission ≠ .full

section
variable [Sha256] {server : Server} {now : Instant} {connection : ConnectionId}
  {peer starter : Id} {permission : Permission} {s : Session}

/-- Such a request fails before it does anything. -/
theorem handleInner_foreign (hactive : server.base.session = some s)
    (howner : s.connection = connection)
    (hpeer : server.peer = some starter) (h : Foreign s starter peer permission)
    (request : Message) :
    Fails (server.handleInner now connection peer permission request) := by
  refine fails_check fun hdeny => ?_
  -- Another peer, or less permission than the session needs: the check of the owner fails.
  have hrest (hstart : ∀ push options path manifest,
      request ≠ .common (.start push options path manifest)) : Fails
      (server.inSession now connection peer permission request) := by
    unfold Server.inSession
    have hfilter : server.base.session.filter (·.connection = connection) = some s := by
      rw [hactive]
      simp [howner]
    rw [hfilter]
    have hrefused : (server.peer ≠ some peer || (s.push && permission ≠ .full)) = true := by
      rw [hpeer]
      rcases h with h | h | ⟨h1, h2⟩
      · simp [Ne.symm h]
      · exact absurd h hdeny
      · simp [h1, h2]
    exact fails_check fun h => absurd hrefused h
  cases request with
  | common m =>
    cases m with
    | start push options path manifest =>
      -- START finds the session.
      obtain ⟨e, he⟩ := @start_busy _ _ _ now connection permission push options path manifest
          hactive
      have hinner : server.base.handleInner now connection permission
          (.start push options path manifest) = throw e := (if_neg hdeny).trans he
      dsimp only
      rw [hinner]
      exact fails_throw e
    | _ => exact hrest (by intros; exact nofun)
  | _ => exact hrest (by intros; exact nofun)

omit [Sha256] in
/-- When the owner is gone there is no session, no transfer and no peer. -/
theorem disconnected_owner (hactive : server.base.session = some s)
    (howner : s.connection = connection) : (server.disconnected connection).base.session = none ∧
      (server.disconnected connection).transfer = none ∧
      (server.disconnected connection).peer = none := by
  have hany : server.base.session.any (·.connection = connection) = true := by
    rw [hactive]
    simp [howner]
  unfold Server.disconnected
  rw [if_pos hany]
  refine ⟨?_, rfl, rfl⟩
  show (RrSync.Server.disconnect _ _).session = none
  unfold RrSync.Server.disconnect
  rw [if_pos hany]

/-- It is refused, ends the session and changes at most an activity record of the cache. -/
theorem step_foreign {w : Disks} (hactive : server.base.session = some s)
    (howner : s.connection = connection) (hpeer : server.peer = some starter)
    (h : Foreign s starter peer permission) (request : Message) :
    let r := step (server, w) (.handle now connection peer permission request)
    (∃ e, r.1 = .reply (.error e)) ∧ r.2.2 .tree = w .tree ∧ SameChunks (w .cache) (r.2.2 .cache) ∧
      r.2.1.base.session = none ∧ r.2.1.transfer = none ∧ r.2.1.peer = none := by
  obtain ⟨e, he⟩ := @handleInner_foreign _ _ now _ _ _ _ _ hactive howner hpeer h request
  have hrun := @Server.handle_run _ server now connection peer permission request w
  rw [he] at hrun
  -- The error ends the session of the connection.
  have hstep : step (server, w) (.handle now connection peer permission request)
      = (.reply (.error e), server.disconnected connection,
        ((server.disconnect connection : Prog _ Empty _).runOk execVol w).2) := by
    show (Output.reply (Prog.runOk execVol (server.handle now connection peer permission request) w).1.1,
      _, _) = _
    rw [hrun]
    rfl
  dsimp only
  rw [hstep]
  obtain ⟨h1, h2⟩ := disconnect_disks server connection w
  exact ⟨⟨e, rfl⟩, h1, h2, disconnected_owner hactive howner⟩

end

/-! ### Authority in every run -/

/-- The session `s` was started by `peer`, with the last START of the calls `past`. -/
def StartedBy (past : List Occurrence) (s : Session) (peer : Id) : Prop :=
  ∃ before o now permission path manifest reply, past = before ++ o :: sinceStart past ∧
    o.input = .handle now s.connection peer permission
      (.common (.start s.push s.options path manifest)) ∧
    o.output = .reply (.ok reply)

/-- What is recorded of a session names the peer that has started it. -/
theorem Recorded.startedBy {past : List Occurrence} {server : Server} {s : Session}
    (h : Recorded past server s) : ∃ peer, server.peer = some peer ∧ StartedBy past s peer := by
  obtain ⟨⟨before, o, hpast, ⟨now, peer, permission, manifest, reply, hi, ho, hpeer, -⟩, -⟩, -⟩ := h
  exact ⟨peer, hpeer, before, o, now, permission, server.path, manifest, reply, hpast, hi, ho⟩

/-- There is one last START. -/
theorem StartedBy.unique {past : List Occurrence} {s : Session} {peer peer' : Id}
    (h : StartedBy past s peer) (h' : StartedBy past s peer') : peer = peer' := by
  obtain ⟨before, o, now, permission, path, manifest, reply, hpast, hi, -⟩ := h
  obtain ⟨before', o', now', permission', path', manifest', reply', hpast', hi', -⟩ := h'
  obtain ⟨-, hcons⟩ := List.append_inj' (hpast.symm.trans hpast') rfl
  obtain rfl := (List.cons.inj hcons).1
  rw [hi] at hi'
  cases hi'
  rfl

/-- What one call may do, and to whom, after the calls `past`. -/
structure Authority (past : List Occurrence) (e : Occurrence) : Prop where
  /-- Every session has a peer that started it. -/
  started : ∀ s ∈ e.pre.1.base.session, ∃ starter, StartedBy past s starter
  /-- Without a session only a START is answered. -/
  idle : ∀ now connection peer permission request reply,
    e.input = .handle now connection peer permission request → e.output = .reply (.ok reply) →
    e.pre.1.base.session = none → ∃ push options path manifest,
      request = .common (.start push options path manifest) ∧ permission ≠ .deny ∧
        (push = true → permission = .full)
  /-- In a session only the owner is answered. -/
  answered : ∀ now connection peer permission request reply,
    e.input = .handle now connection peer permission request → e.output = .reply (.ok reply) →
    ∀ s ∈ e.pre.1.base.session, s.connection = connection ∧ StartedBy past s peer ∧
      permission ≠ .deny ∧ (s.push = true → permission = .full)
  /-- Anybody else on the owner's connection is refused, and the session is over. -/
  refused : ∀ now connection peer permission request,
    e.input = .handle now connection peer permission request →
    ∀ s ∈ e.pre.1.base.session, s.connection = connection → ∀ starter, StartedBy past s starter →
      Foreign s starter peer permission →
      (∃ err, e.output = .reply (.error err)) ∧ e.post.2 .tree = e.pre.2 .tree ∧
        SameChunks (e.pre.2 .cache) (e.post.2 .cache) ∧ e.post.1.base.session = none ∧
        e.post.1.transfer = none ∧ e.post.1.peer = none
  /-- A file is kept only for the owner of a push session. -/
  stored : ∀ connection file, e.input = .receive connection file → e.post.1 ≠ e.pre.1 →
    ∃ s, e.pre.1.base.session = some s ∧ s.connection = connection ∧ s.push = true ∧
      s.options.dryRun = false

section
variable [Sha256] {past : List Occurrence} {e : Occurrence}

/-- A request that is answered is of the owner, or it is a START of a free server. -/
theorem Server.Accepts.cases_session {server server' : Server} {now : Instant}
    {connection : ConnectionId} {peer : Id} {permission : Permission} {request : Message}
    {reply : ServerReply}
    (h : server.Accepts now connection peer permission request reply server') :
    permission ≠ .deny ∧
    ((∃ s, server.base.session = some s ∧ s.connection = connection ∧ server.peer = some peer ∧
      (s.push = true → permission = .full)) ∨
    (server.base.session = none ∧ ∃ push options path manifest,
      request = .common (.start push options path manifest) ∧
        (push = true → permission = .full))) := by
  cases h with
  | start accepted =>
    cases accepted with
    | start allowed full idle => exact ⟨allowed, .inr ⟨idle, _, _, _, _, rfl, full⟩⟩
    | serve _ _ _ _ served => cases served
  | finish allowed active owner same full => exact ⟨allowed, .inl ⟨_, active, owner, same, full⟩⟩
  | serve allowed active owner same full => exact ⟨allowed, .inl ⟨_, active, owner, same, full⟩⟩

/-- A property of all sessions is an invariant. -/
theorem kept_trivial : Kept fun _ _ _ => True :=
  ⟨fun _ _ _ => trivial, fun _ _ _ _ _ _ _ _ _ _ _ => trivial, fun _ _ _ _ _ => trivial,
    fun _ _ _ _ _ => trivial⟩

/-- Authority in every run of the second server. -/
theorem session_authority (root : Root) (cache : Cache) (w : Disks) (is : List Input)
    (past : List Occurrence) (e : Occurrence) (fut : List Occurrence)
    (h : events step (.new root cache, w) is = past ++ e :: fut) : Authority past e := by
  obtain ⟨ht, -, he⟩ := session_invariant kept_trivial h
  have hturn := step_turns ht.coherent e.input
  have hout : e.output = (step e.pre e.input).1 := congrArg Event.output he
  have hpost : e.post = (step e.pre e.input).2 := congrArg Event.post he
  -- A request that is answered was accepted.
  have haccepts {now connection peer permission request reply}
      (hi : e.input = .handle now connection peer permission request)
      (ho : e.output = .reply (.ok reply)) :
      e.pre.1.Accepts now connection peer permission request reply e.post.1 := by
    rw [hi, ← hi, ← hout, ← hpost, ho] at hturn
    rw [hi] at hturn
    cases hturn with
    | accepted accepts => exact accepts
  refine ⟨fun s hs => ?_, fun now connection peer permission request reply hi ho hnone => ?_,
    fun now connection peer permission request reply hi ho s hs => ?_,
    fun now connection peer permission request hi s hs howner starter hstarter hforeign => ?_,
    fun connection file hi hne => ?_⟩
  · obtain ⟨peer, -, hp⟩ := (ht.recorded s hs).startedBy
    exact ⟨peer, hp⟩
  · obtain ⟨hdeny, ⟨s, hs, -⟩ | ⟨-, push, options, path, manifest, hr, hfull⟩⟩ :=
      (haccepts hi ho).cases_session
    · rw [hnone] at hs
      cases hs
    · exact ⟨push, options, path, manifest, hr, hdeny, hfull⟩
  · obtain ⟨hdeny, ⟨s', hs', howner, hpeer, hfull⟩ | ⟨hnone, -⟩⟩ := (haccepts hi ho).cases_session
    · obtain rfl := Option.some.inj (hs'.symm.trans hs)
      obtain ⟨starter, hstarter, hp⟩ := (ht.recorded s' hs).startedBy
      obtain rfl := Option.some.inj (hstarter.symm.trans hpeer)
      exact ⟨howner, hp, hdeny, hfull⟩
    · rw [Option.mem_def, hnone] at hs
      cases hs
  · obtain ⟨peer', hpeer', hp⟩ := (ht.recorded s hs).startedBy
    obtain rfl := hp.unique hstarter
    have hstep := @step_foreign _ _ now _ _ _ _ _ e.pre.2 hs howner hpeer' hforeign request
    rw [hout, hpost, hi]
    exact hstep
  · rw [hi] at hturn hpost
    rw [hpost] at hne
    generalize step e.pre (.receive connection file) = r at hturn hne
    obtain ⟨o, server', w'⟩ := r
    cases hturn with
    | ignored => exact absurd rfl hne
    | stored active push real => exact ⟨_, active, rfl, push, real⟩

end

/-- The sixth request of a pull, and all before it, are of the owner. -/
theorem session_authority_small : Authority (smallPulled.take 5) (smallPulled.get ⟨5, by decide⟩) :=
  @session_authority emptySha .opened ⟨"export", none⟩ smallServer.2 smallPull _ _
    (smallPulled.drop 6) (by
      show smallPulled = _
      rw [List.get_eq_getElem, List.getElem_cons_drop, List.take_append_drop])

end V2

end RrSync

import RrSync.Proofs.Ownership

/-!
# `RrSync.Proofs.Strangers`: other Links cannot disturb the owner

`Agree` relates two states of the service that are the same for one Link: the engines, when
all files that have arrived are delivered, what the service knows of the Link, and the disks.
While the Link owns the session, a call of another Link leads to a state that agrees
(`stranger_agrees`), and the calls of the Link itself take states that agree to states that
agree and return the same (`own_agrees`).

Together with the induction rule for bisimulations this is `strangers_harmless`.
-/

set_option autoImplicit false

namespace RrSync

open Lib

section
variable [Sha256]

/-- The request of a connection that does not own the session ends at once. -/
theorem Server.handle_stranger {server : Server} {s : Session} {now : Instant}
    {connection : ConnectionId} {permission : Permission} {request : Message}
    (hs : server.session = some s) (hne : s.connection ≠ connection) :
    ∃ e, server.handle now connection permission request = pure (.error e, server) := by
  have hinner : ∃ e, server.handleInner now connection permission request = .done (.error e) := by
    unfold handleInner
    by_cases hdeny : permission = .deny
    · exact ⟨_, by rw [if_pos hdeny]; rfl⟩
    · rw [if_neg hdeny]
      -- The session is not of this connection, so there is none to serve.
      have hfilter : server.session.filter (·.connection = connection) = none := by
        rw [hs, Option.filter_some, if_neg (by simpa using hne)]
      cases request with
      | start push options path manifest =>
        show ∃ e, server.start now connection permission push options path manifest = _
        unfold start
        by_cases hfull : push = true ∧ permission ≠ .full
        · exact ⟨_, by rw [if_pos hfull]; rfl⟩
        -- START finds the session of another connection.
        · refine ⟨.busy, ?_⟩
          rw [if_neg hfull, hs]
          rfl
      | _ =>
        simp only [hfilter]
        exact ⟨_, rfl⟩
  obtain ⟨e, he⟩ := hinner
  refine ⟨e, ?_⟩
  unfold handle
  rw [he]
  show (pure (Except.error e, server.disconnect connection) : Prog FsSig Empty _) = _
  -- After the error nobody loses a session, since this connection has none.
  rw [disconnect_stranger]
  intro s' hs'
  rw [hs] at hs'
  cases hs'
  exact hne

/-- A request of another connection is refused and changes nothing. -/
theorem V2.Server.handle_stranger {server : V2.Server} {s : Session} {now : Instant}
    {connection : ConnectionId} {peer : Id} {permission : Permission} {request : V2.Message}
    (hs : server.base.session = some s) (hne : s.connection ≠ connection) :
    ∃ e, server.handle now connection peer permission request = pure (.error e, server) := by
  have hinner : ∃ e, server.handleInner now connection peer permission request
      = .done (.error e) := by
    unfold handleInner
    by_cases hdeny : permission = .deny
    · exact ⟨_, by rw [if_pos hdeny]; rfl⟩
    · rw [if_neg hdeny]
      -- The session is not of this connection, so there is none to serve.
      have hfilter : server.base.session.filter (·.connection = connection) = none := by
        rw [hs, Option.filter_some, if_neg (by simpa using hne)]
      cases request with
      | common m =>
        cases m with
        | start push options path manifest =>
          -- START is decided by the first engine, which is busy.
          have hbase : ∃ e, server.base.handleInner now connection permission
              (.start push options path manifest) = .done (.error e) := by
            unfold RrSync.Server.handleInner
            rw [if_neg hdeny]
            show ∃ e, server.base.start now connection permission push options path manifest = _
            unfold RrSync.Server.start
            by_cases hfull : push = true ∧ permission ≠ .full
            · exact ⟨_, by rw [if_pos hfull]; rfl⟩
            · refine ⟨.busy, ?_⟩
              rw [if_neg hfull, hs]
              rfl
          obtain ⟨e, he⟩ := hbase
          refine ⟨e, ?_⟩
          simp only [he]
          rfl
        | _ =>
          simp only [hfilter]
          exact ⟨_, rfl⟩
      | _ =>
        simp only [hfilter]
        exact ⟨_, rfl⟩
  obtain ⟨e, he⟩ := hinner
  refine ⟨e, ?_⟩
  unfold handle
  rw [he]
  show (server.disconnect connection >>= fun server => pure (Except.error e, server)) = _
  rw [disconnect_stranger]
  · rfl
  · intro s' hs'
    rw [hs] at hs'
    cases hs'
    exact hne

/-! ### What an engine does whatever file it has received -/

omit [Sha256] in
/-- The server with a session of the Link only. -/
def V2.Server.Sole (server : V2.Server) (link : ConnectionId) : Prop :=
  ∀ s ∈ server.base.session, s.connection = link

/-- A disconnect drops the same transfer. -/
theorem V2.Server.disconnect_erase {server server' : V2.Server} {link : ConnectionId}
    (hc : server.Coherent) (hc' : server'.Coherent) (h : server'.erase = server.erase)
    (hsole : server.Sole link) :
    (server'.disconnect link : Prog _ Empty _) = server.disconnect link := by
  have hbase := base_eq_of_erase h
  -- What was received makes no difference to a connection that owns the session.
  have herase (server : V2.Server) (hc : server.Coherent)
      (hsole : ∀ s ∈ server.base.session, s.connection = link) :
      (server.disconnect link : Prog _ Empty _) = server.erase.disconnect link := by
    unfold disconnect
    show _ = if server.base.session.any (fun s => s.connection = link) then
      server.erase.forget (server.base.disconnect link) else pure server.erase
    cases hs : server.base.session with
    | none =>
      have hsame : server.erase = server := by
        unfold erase
        rw [(hc.idle hs).1, Option.map_none, ← (hc.idle hs).1]
      rw [hsame]
    | some s =>
      rw [forget_erase]
      simp [hsole s hs]
  rw [herase server hc hsole, herase server' hc' (by rw [hbase]; exact hsole), h]

/-- An expiry drops the same transfer, or nothing. -/
theorem V2.Server.expire_erase (server : V2.Server) (now : Instant) (timeout : Nat) :
    (∀ server' : V2.Server, server'.erase = server.erase →
      (server'.expire now timeout : Prog _ Empty _) = pure (none, server')) ∨
    ∃ s, server.base.session = some s ∧ ∀ server' : V2.Server, server'.erase = server.erase →
      (server'.expire now timeout : Prog _ Empty _) = (do
        let server ← server.erase.forget ⟨server.base.root, none⟩
        pure (some s.connection, server)) := by
  rcases @Service.expire_first now server.base timeout with h | ⟨s, hs, -, h⟩
  · refine .inl fun server' he => ?_
    have hbase := base_eq_of_erase he
    unfold expire
    rw [hbase, h]
    show pure (none, { server' with base := server.base }) = _
    rw [← hbase]
  · refine .inr ⟨s, hs, fun server' he => ?_⟩
    have hbase := base_eq_of_erase he
    unfold expire
    rw [hbase, h, ← he, forget_erase]

namespace Service

variable [TruncatedHash] {st st' : Service × Disks} {link : ConnectionId} {now : Instant}
  {path : Id} {data : Bytes}

/-- The states are the same for the Link. -/
structure Agree (link : ConnectionId) (a b : Service × Disks) : Prop where
  engine : a.1.settled.engine = b.1.settled.engine
  v2 : a.1.settled.v2 = b.1.settled.v2
  version : a.1.versions link = b.1.versions link
  identity : a.1.identities link = b.1.identities link
  config : a.1.config = b.1.config
  disks : a.2 = b.2

/-- The session, if there is one, is of the Link. -/
def Sole (service : Service) (link : ConnectionId) : Prop :=
  ∀ s, service.Active s → s.connection = link

/-- The Link owns the session. -/
def Owner (service : Service) (link : ConnectionId) : Prop :=
  ∃ s, service.Active s ∧ s.connection = link

omit [Sha256] [TruncatedHash] in
/-- A Link that owns a session owns the only one. -/
theorem Coherent.sole {service : Service} (hs : service.Coherent) (ho : service.Owner link) :
    service.Sole link := by
  obtain ⟨s, hactive, howner⟩ := ho
  intro s' hactive'
  rcases hactive with h | ⟨server, hserver, h⟩ <;>
    rcases hactive' with h' | ⟨server', hserver', h'⟩
  · obtain rfl := Option.some.inj (h.symm.trans h')
    exact howner
  · have hnone := hs.alone s h server' hserver'
    rw [hnone] at h'
    cases h'
  · have hnone := hs.alone s' h' server hserver
    rw [hnone] at h
    cases h
  · obtain rfl := Option.some.inj (hserver.symm.trans hserver')
    obtain rfl := Option.some.inj (h.symm.trans h')
    exact howner

omit [TruncatedHash] in
/-- Delivering the queue does not change who owns a session. -/
theorem Owner.settled {service : Service} (hs : service.Coherent) (ho : service.Owner link) :
    service.settled.Owner link := by
  obtain ⟨s, h | ⟨server, hserver, h⟩, howner⟩ := ho
  · obtain ⟨s', hs', he⟩ := Server.session_of_erase
      (@Server.erase_deliver service.engine service.incoming hs.engine) h
    have hconnection := congrArg Session.connection he
    exact ⟨s', .inl hs', (show s'.connection = s.connection from hconnection).trans howner⟩
  · refine ⟨s, .inr ⟨server.deliver service.incoming, ?_, ?_⟩, howner⟩
    · exact Option.map_eq_some_iff.mpr ⟨server, hserver, rfl⟩
    · rw [V2.Server.base_eq_of_erase V2.Server.erase_deliver]
      exact h

/-! ### Calls of other Links -/

omit [TruncatedHash] in
/-- A Link without a session may close. -/
theorem disconnect_stranger {service : Service} {ε : Type}
    (h : ∀ s, service.Active s → s.connection ≠ link) :
    (service.disconnect link : Prog _ ε _) = pure service := by
  obtain ⟨engine, v2, versions, incoming, identities, config⟩ := service
  unfold disconnect
  dsimp only
  rw [Server.disconnect_stranger fun s hs => h s (.inl hs)]
  cases v2 with
  | none => rfl
  | some server =>
    dsimp only
    rw [V2.Server.disconnect_stranger fun s hs => h s (.inr ⟨server, rfl, hs⟩)]
    rfl

omit [Sha256] [TruncatedHash] in
/-- A Link without a session has no activity to record. -/
theorem touch_stranger {service : Service} (h : ∀ s, service.Active s → s.connection ≠ link) :
    service.touch link now = service := by
  obtain ⟨engine, v2, versions, incoming, identities, config⟩ := service
  unfold touch
  dsimp only
  rw [Server.touch_stranger fun s hs => h s (.inl hs)]
  cases v2 with
  | none => rfl
  | some server =>
    rw [Option.map_some, V2.Server.touch_stranger fun s hs => h s (.inr ⟨server, rfl, hs⟩)]

omit [Sha256] [TruncatedHash] in
/-- No other Link has a session. -/
theorem Sole.ne {service : Service} {other : ConnectionId} (hs : service.Sole link)
    (hne : other ≠ link) : ∀ s, service.Active s → s.connection ≠ other :=
  fun s h he => hne (he.symm.trans (hs s h))

/-- The request of another Link fails, and at most delivers what has arrived. -/
theorem request_stranger {service : Service} {other : ConnectionId} (hs : service.Coherent)
    (ho : service.Owner link) (hne : other ≠ link) : ∃ e service',
      service.request now other path data = pure (.error e, service') ∧
      (service' = service ∨ service' = (service.pin other path).settled) := by
  by_cases h : service.Authorized other path ∧ service.Free other path
  · obtain ⟨ha, hfree⟩ := h
    obtain ⟨peer, -, -, heq⟩ := @request_eq _ _ _ now _ _ data hs ha hfree
    have hp := hs.pin hfree
    obtain ⟨-, hc⟩ := receive_eq hp
    have hpinned : (service.pin other path).Owner link := ho
    obtain ⟨s, hactive, howner⟩ := hpinned.settled hp
    have hother : s.connection ≠ other := fun he => hne (he.symm.trans howner)
    rw [heq]
    -- Each engine refuses, and the other one has no session while this one has.
    cases h2 : isV2 path with
    | true =>
      rw [if_pos rfl]
      rcases @requestV2_cases _ other now data peer (service.config.permission peer) (service.pin
          other path).settled with
        ⟨e, hb⟩ | ⟨server, request, hidle, hserver, -, hb⟩
      · exact ⟨e, _, hb _ rfl rfl, .inr rfl⟩
      · have hsession : server.base.session = some s := by
          rcases hactive with h | ⟨server', hserver', h⟩
          · rw [hidle] at h
            cases h
          · obtain rfl := Option.some.inj (hserver.symm.trans hserver')
            exact h
        obtain ⟨e, he⟩ := @V2.Server.handle_stranger _ _ _ now _ peer (service.config.permission
            peer) request hsession hother
        refine ⟨e, _, ?_, .inr rfl⟩
        rw [hb _ rfl rfl, he]
        have hsame : { (service.pin other path).settled with v2 := some server }
            = (service.pin other path).settled := by rw [← hserver]
        let answer (service : Service) :
            Prog (FsSig.vol Volume) Empty (Except Error RequestOutcome × Service) :=
          pure (.error e, service)
        exact congrArg answer hsame
    | false =>
      rw [if_neg (by decide)]
      rcases @requestV1_cases _ other now data (service.config.permission peer) (service.pin other
          path).settled with
        ⟨e, hb⟩ | ⟨request, hidle, -, hb⟩
      · exact ⟨e, _, hb _ rfl rfl, .inr rfl⟩
      · have hsession : (service.pin other path).settled.engine.session = some s := by
          rcases hactive with h | ⟨server', hserver', h⟩
          · exact h
          · rw [hidle server' hserver'] at h
            cases h
        obtain ⟨e, he⟩ := @Server.handle_stranger _ _ _ now _ (service.config.permission peer)
            request hsession hother
        refine ⟨e, _, ?_, .inr rfl⟩
        rw [hb _ rfl rfl, he]
        rfl
  · obtain ⟨e, he⟩ := @request_refused _ _ _ now _ _ data h
    exact ⟨e, service, he service rfl rfl rfl, .inl rfl⟩

/-- The Link whose call it is. -/
def Input.link? : Input → Option ConnectionId
  | .request _ link _ _ | .touch link _ | .closed link | .identify link _ => some link
  | .complete file => some file.linkId
  | .receive | .expire _ _ => Option.none

/-- A call of another Link, or the delivery of what has arrived. -/
def Input.Stranger (link : ConnectionId) (i : Input) : Prop :=
  i = .receive ∨ ∃ other, i.link? = some other ∧ other ≠ link

omit [Sha256] [TruncatedHash] in
/-- A state agrees with itself. -/
theorem Agree.refl (link : ConnectionId) (st : Service × Disks) : Agree link st st :=
  ⟨rfl, rfl, rfl, rfl, rfl, rfl⟩

omit [Sha256] [TruncatedHash] in
/-- States that agree with a third agree. -/
theorem Agree.trans {a b c : Service × Disks} (h1 : Agree link a b) (h2 : Agree link b c) :
    Agree link a c :=
  ⟨h1.engine.trans h2.engine, h1.v2.trans h2.v2, h1.version.trans h2.version,
    h1.identity.trans h2.identity, h1.config.trans h2.config, h1.disks.trans h2.disks⟩

omit [Sha256] [TruncatedHash] in
/-- After the queue is delivered nothing is left to deliver. -/
theorem settled_settled (service : Service) : service.settled.settled = service.settled := by
  obtain ⟨engine, v2, versions, incoming, identities, config⟩ := service
  cases v2 <;> rfl

/-- Calls of other Links do not change what the Link has. -/
theorem stranger_agrees (hs : st.1.Coherent) (ho : st.1.Owner link) {i : Input}
    (hi : i.Stranger link) : Agree link st (step st i).2 ∧ (step st i).2.1.Owner link := by
  have hsole := hs.sole ho
  -- The delivery of the queue is of nobody, and shows in no engine that is compared after it.
  rcases hi with rfl | ⟨other, hi, hne⟩
  · obtain ⟨h, -⟩ := receive_eq hs
    rw [step_receive, h]
    refine ⟨⟨?_, ?_, rfl, rfl, rfl, rfl⟩, ho.settled hs⟩
    · rw [settled_settled]
    · rw [settled_settled]
  cases i with
  | request now link' path data =>
    obtain rfl := Option.some.inj hi
    obtain ⟨e, service', hrequest, hcases⟩ := @request_stranger _ _ _ now path data _ _ hs ho hne
    have hagree : Agree link st (service', st.2) ∧ service'.Owner link := by
      rcases hcases with rfl | rfl
      · exact ⟨.refl link st, ho⟩
      · refine ⟨⟨?_, ?_, ?_, rfl, rfl, rfl⟩, @Owner.settled _ _ st.1 hs ho⟩
        · rw [settled_settled]
          rfl
        · rw [settled_settled]
          rfl
        · exact (Function.update_of_ne (Ne.symm hne) _ _).symm
    -- The error of the handler closes the sessions of this Link. It owns none.
    have hsole' : ∀ s, service'.Active s → s.connection ≠ link' := by
      obtain ⟨-, s, hactive, howner⟩ := hagree
      rcases hcases with rfl | rfl
      · exact hsole.ne hne
      · exact ((receive_eq hs).2.sole (ho.settled hs)).ne hne
    have hrun : (st.1.handler now link' path data).runOk execVol st.2
        = (((.error e, answer path e), service'), st.2) := by
      rw [handler_eq, hrequest]
      show (((_, _), ((service'.disconnect link' : Prog _ Empty _).runOk execVol st.2).1), _) = _
      rw [disconnect_stranger hsole']
      rfl
    rw [step_request, hrun]
    exact hagree
  | complete file =>
    obtain rfl := Option.some.inj hi
    -- The file is queued behind what the owner has sent, and no engine takes it.
    have hsettled := (receive_eq hs).2.sole (ho.settled hs)
    refine ⟨⟨?_, ?_, rfl, rfl, rfl, rfl⟩, ho⟩
    · show _ = st.1.engine.deliver (st.1.incoming ++ [file])
      rw [Server.deliver_append]
      exact (Server.take_stranger fun s h => hsettled.ne hne s (.inl h)).symm
    · show _ = st.1.v2.map (·.deliver (st.1.incoming ++ [file]))
      cases hv2 : st.1.v2 with
      | none =>
        show st.1.v2.map _ = _
        rw [hv2]
        rfl
      | some server =>
        show st.1.v2.map _ = _
        rw [hv2, Option.map_some, Option.map_some, V2.Server.deliver_append]
        refine congrArg some (V2.Server.take_stranger fun s h => hsettled.ne hne s ?_).symm
        exact .inr ⟨_, Option.map_eq_some_iff.mpr ⟨server, hv2, rfl⟩, h⟩
  | receive => cases hi
  | touch link' now =>
    obtain rfl := Option.some.inj hi
    show Agree link st (st.1.touch link' now, st.2) ∧ (st.1.touch link' now).Owner link
    rw [touch_stranger (hsole.ne hne)]
    exact ⟨.refl link st, ho⟩
  | expire now timeout => cases hi
  | closed link' =>
    obtain rfl := Option.some.inj hi
    rw [step_closed, disconnect_stranger (hsole.ne hne)]
    refine ⟨⟨rfl, rfl, ?_, rfl, rfl, rfl⟩, ho⟩
    exact (Function.update_of_ne (Ne.symm hne) _ _).symm
  | identify link' peer =>
    obtain rfl := Option.some.inj hi
    refine ⟨⟨rfl, rfl, rfl, ?_, rfl, rfl⟩, ho⟩
    exact (Function.update_of_ne (Ne.symm hne) _ _).symm

/-! ### Calls of the Link -/

omit [TruncatedHash] in
/-- Delivering the queue starts no session. -/
theorem Sole.settled {service : Service} (hs : service.Coherent) (h : service.Sole link) :
    service.settled.Sole link := by
  rintro s (hsession | ⟨server, hserver, hsession⟩)
  · obtain ⟨s', hs', he⟩ := Server.session_of_erase
      (@Server.erase_deliver service.engine service.incoming hs.engine).symm hsession
    have hconnection := congrArg Session.connection he
    exact (show s'.connection = s.connection from hconnection).symm.trans (h s' (.inl hs'))
  · obtain ⟨server₀, hserver₀, rfl⟩ := Option.map_eq_some_iff.mp hserver
    rw [V2.Server.base_eq_of_erase V2.Server.erase_deliver] at hsession
    exact h s (.inr ⟨server₀, hserver₀, hsession⟩)

/-- A request of the Link starts no session of another one. -/
theorem Requested.sole {service service' : Service} {result : Except Error RequestOutcome}
    (hs : service.Coherent) (h : service.Sole link)
    (hr : service.Requested link path result service') : service'.Sole link := by
  -- Delivering the queue starts no session.
  have hsettled (hfree : service.Free link path) : (service.pin link path).settled.Sole link :=
    Sole.settled (hs.pin hfree) h
  cases hr with
  | refused => exact h
  | stopped _ free => exact hsettled free
  | first _ free _ _ _ owned =>
    rintro s (hsession | hsession)
    -- A session after the request is of this Link, or it was there before.
    · rcases owned s hsession with howner | hold
      · exact howner
      · exact hsettled free s (.inl hold)
    · exact hsettled free s (.inr hsession)
  | second _ free _ _ _ before owned =>
    rintro s (hsession | ⟨_, ⟨⟩, hsession⟩)
    · exact hsettled free s (.inl hsession)
    · rcases owned s hsession with howner | hold
      · exact howner
      · exact hsettled free s (.inr ⟨_, before, hold⟩)

omit [Sha256] [TruncatedHash] in
/-- States that agree have the same first engine, but for what it has received. -/
theorem Agree.erase {a b : Service × Disks} (h : Agree link a b) (ha : a.1.Coherent)
    (hb : b.1.Coherent) : b.1.engine.erase = a.1.engine.erase := by
  have herase := congrArg Server.erase h.engine.symm
  change (b.1.engine.deliver _).erase = (a.1.engine.deliver _).erase at herase
  rwa [Server.erase_deliver ha.engine, Server.erase_deliver hb.engine] at herase

omit [TruncatedHash] in
/-- Both services have a second engine, or neither has. -/
theorem Agree.v2_cases {a b : Service × Disks} (h : Agree link a b) :
    (a.1.v2 = none ∧ b.1.v2 = none) ∨ ∃ server server', a.1.v2 = some server ∧
      b.1.v2 = some server' ∧ server'.erase = server.erase ∧
      server'.deliver b.1.incoming = server.deliver a.1.incoming := by
  have hv2 : a.1.v2.map (·.deliver a.1.incoming) = b.1.v2.map (·.deliver b.1.incoming) := h.v2
  cases ha : a.1.v2 with
  | none =>
    rw [ha] at hv2
    exact .inl ⟨rfl, Option.map_eq_none_iff.mp hv2.symm⟩
  | some server =>
    rw [ha] at hv2
    obtain ⟨server', hb, hdeliver⟩ := Option.map_eq_some_iff.mp hv2.symm
    refine .inr ⟨server, server', rfl, hb, ?_, hdeliver⟩
    have herase := congrArg V2.Server.erase hdeliver
    rwa [V2.Server.erase_deliver, V2.Server.erase_deliver] at herase

omit [TruncatedHash] in
/-- A lost Link changes the disks only by dropping a store. -/
theorem disconnect_disks (service : Service) (link : ConnectionId) (w : Disks) :
    ((service.disconnect link : Prog _ Empty _).runOk execVol w).2 = match service.v2 with
      | none => w
      | some server => ((server.disconnect link : Prog _ Empty _).runOk execVol w).2 := by
  unfold disconnect
  cases service.v2 with
  | none => rfl
  | some server =>
    show (Prog.runOk execVol (server.disconnect link >>= _) w).2 = _
    rw [Prog.runOk_bind]
    rfl

omit [TruncatedHash] in
/-- After a disconnect of the Link nothing is left that a file could change. -/
theorem disconnect_agrees {a b : Service × Disks} (h : Agree link a b) (ha : a.1.Coherent)
    (hb : b.1.Coherent) (hsole : a.1.Sole link) (hsole' : b.1.Sole link) :
    Agree link ((a.1.disconnect link : Prog _ Empty _).runOk execVol a.2)
      ((b.1.disconnect link : Prog _ Empty _).runOk execVol b.2) := by
  -- The owner is gone, so both engines are idle and differ in nothing.
  have hroot : b.1.engine.root = a.1.engine.root := Server.root_eq_of_erase (h.erase ha hb)
  have hengine : a.1.engine.disconnect link = b.1.engine.disconnect link := by
    rw [Server.disconnect_owned fun s hs => hsole s (.inl hs),
      Server.disconnect_owned fun s hs => hsole' s (.inl hs), hroot]
  have hidle : (b.1.engine.disconnect link).session = none := by
    rw [Server.disconnect_owned fun s hs => hsole' s (.inl hs)]
  -- The second engines run the same program, on the same disks.
  have hprogram (server server' : V2.Server) (h1 : a.1.v2 = some server)
      (h2 : b.1.v2 = some server') (herase : server'.erase = server.erase) :
      (server'.disconnect link : Prog _ Empty _) = server.disconnect link :=
    V2.Server.disconnect_erase (ha.v2 server h1) (hb.v2 server' h2) herase
      fun s hs => hsole s (.inr ⟨server, h1, hs⟩)
  have hruna := disconnect_run a.1 link a.2
  have hrunb := disconnect_run b.1 link b.2
  refine ⟨?_, ?_, ?_, ?_, ?_, ?_⟩
  · rw [hruna, hrunb]
    show (a.1.engine.disconnect link).deliver _ = (b.1.engine.disconnect link).deliver _
    rw [hengine, Server.deliver_idle hidle, Server.deliver_idle hidle]
  · rw [hruna, hrunb]
    show (a.1.v2.map _).map _ = (b.1.v2.map _).map _
    rcases h.v2_cases with ⟨h1, h2⟩ | ⟨server, server', h1, h2, herase, -⟩
    · rw [h1, h2]
      rfl
    · have hnone : (server.disconnected link).base.session = none :=
        Option.eq_none_iff_forall_not_mem.mpr fun s hs =>
          (V2.Server.mem_disconnected hs).2 (hsole s (.inr ⟨server, h1, (V2.Server.mem_disconnected hs).1⟩))
      have hsame : server'.disconnected link = server.disconnected link := by
        rw [← V2.Server.disconnect_run server link a.2, ← V2.Server.disconnect_run server' link a.2,
          hprogram server server' h1 h2 herase]
      rw [h1, h2]
      simp only [Option.map_some]
      rw [hsame, V2.Server.deliver_idle hnone, V2.Server.deliver_idle hnone]
  · rw [hruna, hrunb]
    exact h.version
  · rw [hruna, hrunb]
    exact h.identity
  · rw [hruna, hrunb]
    exact h.config
  · rw [disconnect_disks, disconnect_disks, h.disks]
    rcases h.v2_cases with ⟨h1, h2⟩ | ⟨server, server', h1, h2, herase, -⟩
    · rw [h1, h2]
    · rw [h1, h2]
      dsimp only
      rw [hprogram server server' h1 h2 herase]

omit [Sha256] in
/-- A request is authorized in both of two states that agree, or in neither. -/
theorem Agree.authorized {a b : Service × Disks} (h : Agree link a b) :
    a.1.Authorized link path ∧ a.1.Free link path ↔
      b.1.Authorized link path ∧ b.1.Free link path := by
  unfold Authorized Free
  rw [h.identity, h.config, h.version]

/-- A request of the Link has the same result in both states. -/
theorem request_agrees {a b : Service × Disks} (h : Agree link a b) (ha : a.1.Coherent)
    (hb : b.1.Coherent) :
    let r := (a.1.request now link path data).runOk execVol a.2
    let r' := (b.1.request now link path data).runOk execVol b.2
    r.1.1 = r'.1.1 ∧ Agree link (r.1.2, r.2) (r'.1.2, r'.2) := by
  dsimp only
  by_cases hauth : a.1.Authorized link path ∧ a.1.Free link path
  · obtain ⟨hauth₁, hfree⟩ := hauth
    obtain ⟨hauth₁', hfree'⟩ := h.authorized.mp ⟨hauth₁, hfree⟩
    obtain ⟨peer, hpeer, -, heq⟩ := @request_eq _ _ _ now _ _ data ha hauth₁ hfree
    obtain ⟨peer', hpeer', -, heq'⟩ := @request_eq _ _ _ now _ _ data hb hauth₁' hfree'
    obtain rfl : peer = peer' := by
      rw [h.identity, hpeer'] at hpeer
      exact (Option.some.inj hpeer).symm
    -- The engines of the two services are the same from here on.
    have hengine : (b.1.pin link path).settled.engine = (a.1.pin link path).settled.engine :=
      h.engine.symm
    have hv2 : (b.1.pin link path).settled.v2 = (a.1.pin link path).settled.v2 := h.v2.symm
    have hpinned : Agree link ((a.1.pin link path).settled, a.2)
        ((b.1.pin link path).settled, b.2) := by
      refine ⟨?_, ?_, ?_, h.identity, h.config, h.disks⟩
      · rw [settled_settled, settled_settled, hengine]
      · rw [settled_settled, settled_settled, hv2]
      · show Function.update _ link _ link = Function.update _ link _ link
        rw [Function.update_self, Function.update_self]
    rw [heq, heq', ← h.config, ← h.disks]
    cases isV2 path with
    | true =>
      rw [if_pos rfl, if_pos rfl]
      rcases @requestV2_cases _ link now data peer (a.1.config.permission peer) (a.1.pin link
          path).settled with
        ⟨e, hcases⟩ | ⟨server, request, -, -, -, hcases⟩
      · rw [hcases _ rfl rfl, hcases _ hengine hv2]
        rw [← h.disks] at hpinned
        exact ⟨rfl, hpinned⟩
      · rw [hcases _ rfl rfl, hcases _ hengine hv2, Prog.runOk_bind, Prog.runOk_bind]
        refine ⟨rfl, ?_, rfl, hpinned.version, hpinned.identity, hpinned.config, rfl⟩
        exact hpinned.engine
    | false =>
      rw [if_neg (by decide), if_neg (by decide)]
      rcases @requestV1_cases _ link now data (a.1.config.permission peer) (a.1.pin link
          path).settled with
        ⟨e, hcases⟩ | ⟨request, -, -, hcases⟩
      · rw [hcases _ rfl rfl, hcases _ hengine hv2]
        rw [← h.disks] at hpinned
        exact ⟨rfl, hpinned⟩
      · rw [hcases _ rfl rfl, hcases _ hengine hv2, Prog.runOk_bind, Prog.runOk_bind]
        refine ⟨rfl, rfl, ?_, hpinned.version, hpinned.identity, hpinned.config, rfl⟩
        exact hpinned.v2
  · obtain ⟨e, he⟩ := @request_refused _ _ _ now _ _ data hauth
    rw [he a.1 rfl rfl rfl, he b.1 h.identity.symm h.config.symm h.version.symm]
    exact ⟨rfl, h⟩

/-- A call of the Link, or of the event loop for all Links. -/
def Input.Own (link : ConnectionId) (i : Input) : Prop := ∀ other ∈ i.link?, other = link

/-- The states that a later run of the Link starts from. -/
structure Alike (link : ConnectionId) (a b : Service × Disks) : Prop where
  agree : Agree link a b
  left : a.1.Coherent ∧ a.1.Sole link
  right : b.1.Coherent ∧ b.1.Sole link

omit [Sha256] [TruncatedHash] in
/-- A lost Link starts no session. -/
theorem Sole.disconnected {service : Service} (h : service.Sole link) (other : ConnectionId) :
    (service.disconnected other).Sole link := by
  rintro s (hsession | ⟨server, hserver, hsession⟩)
  · exact h s (.inl (Server.mem_disconnect hsession).1)
  · obtain ⟨server₀, hserver₀, rfl⟩ := Option.map_eq_some_iff.mp hserver
    exact h s (.inr ⟨server₀, hserver₀, (V2.Server.mem_disconnected hsession).1⟩)

/-- No call of the Link makes another one the owner. -/
theorem sole_step (hs : st.1.Coherent) (hsole : st.1.Sole link) {i : Input} (hi : i.Own link) :
    (step st i).2.1.Sole link := by
  cases i with
  | request now link' path data =>
    obtain rfl := hi link' rfl
    obtain ⟨-, hpost⟩ := handler_run st.1 now link' path data st.2
    rw [step_request]
    dsimp only
    rw [hpost]
    -- A session that the request has started is of its Link, which is this one.
    have hrequested := (@request_requested _ _ link' now _ path data
      hs st.2).sole hs hsole
    unfold handled
    split
    · exact hrequested
    · exact hrequested.disconnected link'
  | complete file => exact hsole
  | receive =>
    obtain ⟨h, -⟩ := receive_eq hs
    rw [step_receive, h]
    exact hsole.settled hs
  | touch link' now =>
    rintro s (hsession | ⟨server, hserver, hsession⟩)
    · obtain ⟨s₀, hs₀, rfl⟩ := Option.map_eq_some_iff.mp hsession
      have howner := hsole s₀ (.inl hs₀)
      split <;> exact howner
    · obtain ⟨server₀, hserver₀, rfl⟩ := Option.map_eq_some_iff.mp hserver
      obtain ⟨s₀, hs₀, rfl⟩ := Option.map_eq_some_iff.mp hsession
      have howner := hsole s₀ (.inr ⟨server₀, hserver₀, hs₀⟩)
      split <;> exact howner
  | expire now timeout =>
    have hexpires := @expire_expires _ _ now hs timeout st.2
    dsimp only at hexpires
    rw [step_expire]
    dsimp only
    generalize ((st.1.expire now timeout : Prog _ Empty _).runOk execVol st.2).1.1 = o at hexpires
    generalize ((st.1.expire now timeout : Prog _ Empty _).runOk execVol st.2).1.2 = service'
      at hexpires ⊢
    -- The maintenance only ends sessions.
    cases hexpires with
    | kept => exact hsole
    | first =>
      rintro s (hsession | hsession)
      · cases hsession
      · exact hsole s (.inr hsession)
    | second =>
      rintro s (hsession | ⟨_, ⟨⟩, hsession⟩)
      · exact hsole s (.inl hsession)
      · cases hsession
  | closed link' =>
    rw [step_closed, disconnect_run]
    exact hsole.disconnected link'
  | identify link' peer => exact hsole

omit [TruncatedHash] in
/-- The maintenance without a second engine. -/
theorem expire_of_none {service : Service} {timeout : Nat} (h : service.v2 = none) (w : Disks) :
    (service.expire now timeout : Prog _ Empty _).runOk execVol w =
      (((service.engine.expire now timeout).1,
        { service with engine := (service.engine.expire now timeout).2 }), w) := by
  unfold expire
  rw [h]
  rfl

omit [TruncatedHash] in
/-- The maintenance with a second engine. -/
theorem expire_of_some {service : Service} {server : V2.Server} {timeout : Nat}
    (h : service.v2 = some server) (w : Disks) :
    (service.expire now timeout : Prog _ Empty _).runOk execVol w =
      (((service.engine.expire now timeout).1.or
          ((server.expire now timeout : Prog _ Empty _).runOk execVol w).1.1,
        { service with
          engine := (service.engine.expire now timeout).2
          v2 := some ((server.expire now timeout : Prog _ Empty _).runOk execVol w).1.2 }),
        ((server.expire now timeout : Prog _ Empty _).runOk execVol w).2) := by
  unfold expire
  rw [h]
  show Prog.runOk execVol (server.expire now timeout >>= _) w = _
  rw [Prog.runOk_bind]
  rfl

omit [Sha256] [TruncatedHash] in
/-- The expiry of the first engine, for engines that agree. -/
theorem expire_first_agrees {a b : Service × Disks} (h : Agree link a b) (ha : a.1.Coherent)
    (hb : b.1.Coherent) (timeout : Nat) :
    (a.1.engine.expire now timeout).1 = (b.1.engine.expire now timeout).1 ∧
      (a.1.engine.expire now timeout).2.deliver a.1.incoming
        = (b.1.engine.expire now timeout).2.deliver b.1.incoming := by
  have herase := h.erase ha hb
  rcases @expire_first now a.1.engine timeout with h1 | ⟨s, hs, hlate, h1⟩
  · rcases @expire_first now b.1.engine timeout with h2 | ⟨s, hs, hlate, -⟩
    · rw [h1, h2]
      exact ⟨rfl, h.engine⟩
    · -- The leases are the same, so both are over.
      obtain ⟨s', hs', he⟩ := Server.session_of_erase herase.symm hs
      have hactivity := congrArg Session.activity he
      rw [Server.expire_eq, Option.mem_def.mp hs'] at h1
      change s'.activity = s.activity at hactivity
      simp only [hactivity, if_pos hlate] at h1
      cases congrArg Prod.fst h1
  -- The session is late in both, and belongs to the same connection.
  · obtain ⟨s', hs', he⟩ := Server.session_of_erase herase hs
    have hactivity := congrArg Session.activity he
    have hconnection := congrArg Session.connection he
    have hroot := Server.root_eq_of_erase herase
    change s'.activity = s.activity at hactivity
    change s'.connection = s.connection at hconnection
    rw [h1, Server.expire_eq, Option.mem_def.mp hs']
    simp only [hactivity, if_pos hlate, hconnection, hroot]
    exact ⟨trivial, by rw [Server.deliver_idle rfl, Server.deliver_idle rfl]⟩

omit [TruncatedHash] in
/-- The maintenance does the same to two states that agree. -/
theorem expire_agrees {a b : Service × Disks} (h : Agree link a b) (ha : a.1.Coherent)
    (hb : b.1.Coherent) (timeout : Nat) :
    let r := (a.1.expire now timeout : Prog _ Empty _).runOk execVol a.2
    let r' := (b.1.expire now timeout : Prog _ Empty _).runOk execVol b.2
    r.1.1 = r'.1.1 ∧ Agree link (r.1.2, r.2) (r'.1.2, r'.2) := by
  dsimp only
  obtain ⟨hreturned, hengine⟩ := @expire_first_agrees _ now _ _ h ha hb timeout
  -- The second engine has the same lease in both runs, whatever it has received.
  rcases h.v2_cases with ⟨h1, h2⟩ | ⟨server, server', h1, h2, herase, hdeliver⟩
  · rw [expire_of_none h1, expire_of_none h2]
    exact ⟨hreturned, hengine, h.v2, h.version, h.identity, h.config, h.disks⟩
  · rw [expire_of_some h1, expire_of_some h2, hreturned, ← h.disks]
    rcases server.expire_erase now timeout with hkept | ⟨s, -, hdropped⟩
    · rw [hkept server rfl, hkept server' herase]
      refine ⟨rfl, hengine, ?_, h.version, h.identity, h.config, rfl⟩
      exact congrArg some hdeliver.symm
    · have hidle : (Prog.runOk execVol (server.expire now timeout) a.2).1.2.base.session = none := by
        rw [hdropped server rfl, Prog.runOk_bind, V2.Server.forget_run]
        rfl
      rw [hdropped server' herase, ← hdropped server rfl]
      refine ⟨rfl, hengine, ?_, h.version, h.identity, h.config, rfl⟩
      exact congrArg some
        ((V2.Server.deliver_idle hidle).trans (V2.Server.deliver_idle hidle).symm)

/-- A request of the Link and the answer to it, which closes the Link after an error. -/
theorem handler_agrees {a b : Service × Disks} (h : Alike link a b) :
    (step a (.request now link path data)).1 = (step b (.request now link path data)).1 ∧
      Agree link (step a (.request now link path data)).2
        (step b (.request now link path data)).2 := by
  obtain ⟨hagree, ⟨ha, hsole⟩, ⟨hb, hsole'⟩⟩ := h
  obtain ⟨hresult, hnext⟩ := @request_agrees _ _ _ now path data _ _ hagree ha hb
  have hreq := @request_requested _ _ link now _ path data ha a.2
  have hreq' := @request_requested _ _ link now _ path data hb b.2
  dsimp only at hreq hreq' hresult hnext
  rw [step_request, step_request, handler_eq, handler_eq]
  generalize (a.1.request now link path data).runOk execVol a.2 = r at hresult hnext hreq ⊢
  generalize (b.1.request now link path data).runOk execVol b.2 = r' at hresult hnext hreq' ⊢
  obtain ⟨⟨result, x⟩, w⟩ := r
  obtain ⟨⟨result', y⟩, w'⟩ := r'
  -- Both requests have the same result. After an error the Link is closed in both.
  obtain rfl : result = result' := hresult
  cases result with
  | ok reply => exact ⟨rfl, hnext⟩
  | error e =>
    exact ⟨rfl, disconnect_agrees hnext (ha.requested hreq) (hb.requested hreq')
      (hreq.sole ha hsole) (hreq'.sole hb hsole')⟩

/-- A file comes after what is queued, and the engines agree on the queue. -/
theorem complete_agrees {a b : Service × Disks} (h : Agree link a b)
    (file : FileResourceCompletion) :
    Agree link (step a (.complete file)).2 (step b (.complete file)).2 := by
  refine ⟨?_, ?_, h.version, h.identity, h.config, h.disks⟩
  · show a.1.engine.deliver (a.1.incoming ++ [file]) = b.1.engine.deliver (b.1.incoming ++ [file])
    rw [Server.deliver_append, Server.deliver_append]
    exact congrArg (Server.deliver · [file]) h.engine
  · show a.1.v2.map (·.deliver (a.1.incoming ++ [file]))
      = b.1.v2.map (·.deliver (b.1.incoming ++ [file]))
    rcases h.v2_cases with ⟨h1, h2⟩ | ⟨server, server', h1, h2, -, hdeliver⟩
    · rw [h1, h2]
      rfl
    · rw [h1, h2, Option.map_some, Option.map_some, V2.Server.deliver_append,
        V2.Server.deliver_append, hdeliver]

/-- The time of the last activity is noted in both states, whatever is queued. -/
theorem touch_agrees {a b : Service × Disks} (h : Agree link a b) :
    Agree link (step a (.touch link now)).2 (step b (.touch link now)).2 := by
  refine ⟨?_, ?_, h.version, h.identity, h.config, h.disks⟩
  · show (a.1.engine.touch link now).deliver _ = (b.1.engine.touch link now).deliver _
    rw [Server.deliver_touch, Server.deliver_touch]
    exact congrArg (Server.touch · link now) h.engine
  · show (a.1.v2.map _).map _ = (b.1.v2.map _).map _
    rcases h.v2_cases with ⟨h1, h2⟩ | ⟨server, server', h1, h2, -, hdeliver⟩
    · rw [h1, h2]
      rfl
    · rw [h1, h2]
      simp only [Option.map_some]
      rw [V2.Server.deliver_touch, V2.Server.deliver_touch]
      exact congrArg (fun server : V2.Server => some (server.touch link now)) hdeliver.symm

/-- The calls of the Link do the same in both states. -/
theorem own_agrees {a b : Service × Disks} (h : Alike link a b) {i : Input} (hi : i.Own link) :
    (step a i).1 = (step b i).1 ∧ Agree link (step a i).2 (step b i).2 := by
  obtain ⟨hagree, ⟨ha, hsole⟩, ⟨hb, hsole'⟩⟩ := h
  cases i with
  | request now link' path data =>
    obtain rfl := hi link' rfl
    exact handler_agrees ⟨hagree, ⟨ha, hsole⟩, ⟨hb, hsole'⟩⟩
  | complete file =>
    obtain rfl := hi file.linkId rfl
    exact ⟨rfl, complete_agrees hagree file⟩
  | receive =>
    obtain ⟨h1, -⟩ := receive_eq ha
    obtain ⟨h2, -⟩ := receive_eq hb
    rw [step_receive, step_receive, h1, h2]
    refine ⟨rfl, ?_, ?_, hagree.version, hagree.identity, hagree.config, hagree.disks⟩
    · rw [settled_settled, settled_settled]
      exact hagree.engine
    · rw [settled_settled, settled_settled]
      exact hagree.v2
  | touch link' now =>
    obtain rfl := hi link' rfl
    exact ⟨rfl, touch_agrees hagree⟩
  | expire now timeout =>
    obtain ⟨h1, h2⟩ := @expire_agrees _ _ now _ _ hagree ha hb timeout
    rw [step_expire, step_expire]
    exact ⟨congrArg Output.expired h1, h2⟩
  | closed link' =>
    obtain rfl := hi link' rfl
    have hdisconnect := disconnect_agrees hagree ha hb hsole hsole'
    rw [step_closed, step_closed]
    refine ⟨rfl, hdisconnect.engine, hdisconnect.v2, ?_, hdisconnect.identity,
      hdisconnect.config, hdisconnect.disks⟩
    show Function.update _ link' _ link' = Function.update _ link' _ link'
    rw [Function.update_self, Function.update_self]
  | identify link' peer =>
    obtain rfl := hi link' rfl
    refine ⟨rfl, hagree.engine, hagree.v2, hagree.version, ?_, hagree.config, hagree.disks⟩
    show Function.update _ link' _ link' = Function.update _ link' _ link'
    rw [Function.update_self, Function.update_self]

/-! ### Runs -/

/-- Calls of other Links lead to a state that agrees. -/
theorem strangers_agree (hs : st.1.Coherent) (ho : st.1.Owner link) {js : List Input}
    (hjs : ∀ j ∈ js, j.Stranger link) : Agree link st (after step st js) ∧
      (after step st js).1.Coherent ∧ (after step st js).1.Owner link := by
  induction js generalizing st with
  | nil => exact ⟨.refl link st, hs, ho⟩
  | cons j js ih =>
    obtain ⟨h1, h2⟩ := stranger_agrees hs ho (hjs j (by simp))
    obtain ⟨h3, h4⟩ := ih (step_coherent hs j) h2 fun i hi => hjs i (by simp [hi])
    exact ⟨h1.trans h3, h4⟩

/-- What the calls `js` of other Links cannot do to the Link that owns the session in the
state `st`. -/
structure Undisturbed (link : ConnectionId) (st : Service × Disks) (js : List Input) : Prop where
  /-- When what has arrived is delivered, the engines are the same. -/
  engines : ∃ a b, st.1.receive = .ok a ∧ (after step st js).1.receive = .ok b ∧
    b.engine = a.engine ∧ b.v2 = a.v2
  disks : (after step st js).2 = st.2
  owner : (after step st js).1.Owner link
  /-- Every later run of the Link returns the same, and leaves the same trees. -/
  later : ∀ ks : List Input, (∀ k ∈ ks, k.Own link) →
    (events step (after step st js) ks).map (fun e => (e.output, e.post.2))
      = (events step st ks).map fun e => (e.output, e.post.2)
  /-- An error that is returned to the Link ends its session. -/
  ended : ∀ now path data err answer,
    (step (after step st js) (.request now link path data)).1 = .reply (.error err) answer →
      ∀ s, ¬ (step (after step st js) (.request now link path data)).2.1.Active s

/-- While a Link owns the session, no calls of other Links can disturb it, in every state that
the service can reach. -/
theorem strangers_harmless (root : Root) (cache : Option Cache) (config : Config) (w : Disks)
    (is : List Input) (link : ConnectionId) (js : List Input)
    (ho : (after step (.new root cache config, w) is).1.Owner link)
    (hjs : ∀ j ∈ js, j.Stranger link) :
    Undisturbed link (after step (.new root cache config, w) is) js := by
  have hs : (after step (.new root cache config, w) is).1.Coherent :=
    after_invariant (fun st : Service × Disks => st.1.Coherent)
      (started_coherent root cache config) (fun _ i hs => step_coherent hs i) is
  generalize after step (.new root cache config, w) is = st at hs ho ⊢
  obtain ⟨hagree, hs', ho'⟩ := strangers_agree hs ho hjs
  have hsole := hs'.sole ho'
  refine ⟨?_, hagree.disks.symm, ho', fun ks hks => ?_, ?_⟩
  · exact ⟨_, _, (receive_eq hs).1, (receive_eq hs').1, hagree.engine.symm, hagree.v2.symm⟩
  -- From then on the two runs agree step by step.
  · refine events_bisim (fun a b => Alike link b a) (·.Own link) Prod.snd
      (fun a b h => h.agree.disks.symm) (fun a b i h hi => ?_)
      ⟨hagree, ⟨hs, hs.sole ho⟩, hs', hsole⟩ hks
    obtain ⟨h1, h2⟩ := own_agrees h hi
    exact ⟨h1.symm, h2, ⟨step_coherent h.left.1 i, sole_step h.left.1 h.left.2 hi⟩,
      step_coherent h.right.1 i, sole_step h.right.1 h.right.2 hi⟩
  -- A request of the owner that is refused ends its session.
  · intro now path data err answer herror s hactive
    have hsole' := sole_step (i := .request now link path data) hs' hsole fun _ h =>
      (Option.some.inj h).symm
    obtain ⟨hresult, hpost⟩ := handler_run (after step st js).1 now link path data
      (after step st js).2
    rw [step_request] at herror
    obtain ⟨herror, -⟩ := Output.reply.inj herror
    rw [← hresult, herror] at hpost
    rw [step_request] at hactive
    change Active ((handler (after step st js).1 now link path data).runOk execVol
      (after step st js).2).1.2 s at hactive
    rw [hpost] at hactive
    refine absurd (hsole' s ?_) ?_
    · rw [step_request]
      show Active ((handler (after step st js).1 now link path data).runOk execVol
        (after step st js).2).1.2 s
      rw [hpost]
      exact hactive
    · rcases hactive with h | ⟨server, hserver, h⟩
      · exact (Server.mem_disconnect h).2
      · obtain ⟨server₀, -, rfl⟩ := Option.map_eq_some_iff.mp hserver
        exact (V2.Server.mem_disconnected h).2

end Service

end

namespace Service

/-- Calls of a second Link while the first one owns the session. -/
def smallStrangers : List Input :=
  [.request 1 smallLink (smallPaths.truncatedHash V2.requestPath.utf8) [],
    .complete ⟨smallLink, Vector.replicate 32 0, [], 0, none⟩, .touch smallLink 2, .receive,
    .closed smallLink]

/-- A small session that other Links do not disturb. -/
theorem strangers_harmless_small : @Undisturbed emptySha smallPaths smallConnection
    (after (@step emptySha smallPaths) smallService (smallRequests.take 3)) smallStrangers :=
  @strangers_harmless emptySha smallPaths .opened (some ⟨"export", none⟩) ⟨[[("others", .full)]]⟩
    smallService.2 (smallRequests.take 3) smallConnection smallStrangers (by
      have h : (after (@step emptySha smallPaths) smallService (smallRequests.take
          3)).1.engine.session.map
          Session.connection = some smallConnection := by decide +kernel
      obtain ⟨s, hs, howner⟩ := Option.map_eq_some_iff.mp h
      exact ⟨s, .inl hs, howner⟩) (by
      intro j hj
      simp only [smallStrangers, List.mem_cons, List.not_mem_nil, or_false] at hj
      rcases hj with rfl | rfl | rfl | rfl | rfl
      · exact .inr ⟨smallLink, rfl, by decide⟩
      · exact .inr ⟨smallLink, rfl, by decide⟩
      · exact .inr ⟨smallLink, rfl, by decide⟩
      · exact .inl rfl
      · exact .inr ⟨smallLink, rfl, by decide⟩)

end Service

end RrSync

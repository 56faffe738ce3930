import RrSync.Model.Service
import RrSync.Proofs.Sessions

/-!
# `RrSync.Proofs.Service`: one export over both protocols

`Service.Coherent` is the invariant of the service: at most one of the engines has a session,
and its Link has the version of that engine. `request_routes` lists what a request can be: it
is refused, it stops before an engine is asked, or it is a call of one engine.

A file that has arrived is for the engine whose session its Link owns. So to deliver the queue
is to give all of it to both engines (`receive_eq`).
-/

set_option autoImplicit false

namespace RrSync

open Lib

/-! ### Delivering files -/

/-- `receive`, which does not fail. -/
def Server.take (server : Server) (file : FileResourceCompletion) : Server :=
  (server.receive file.linkId file.received).toOption.getD server

/-- The files of a queue, taken one after the other. -/
def Server.deliver (server : Server) (files : List FileResourceCompletion) : Server :=
  files.foldl Server.take server

namespace V2.Server

/-- `receive`, which does not fail. -/
def take (server : Server) (file : FileResourceCompletion) : Server :=
  (server.receive file.linkId file.received).toOption.getD server

/-- The files of a queue, taken one after the other. -/
def deliver (server : Server) (files : List FileResourceCompletion) : Server :=
  files.foldl take server

end V2.Server

namespace Server

variable {server : Server} {file : FileResourceCompletion} {files : List FileResourceCompletion}
  {link : ConnectionId} {now : Instant}

/-- `receive` never fails on a coherent server, and takes the file or leaves it. -/
theorem receive_take (hs : server.Coherent) :
    server.receive file.linkId file.received = .ok (server.take file) := by
  obtain ⟨server', h, -⟩ := hs.receive file.linkId file.received
  unfold take
  rw [h]
  rfl

/-- A file that is taken keeps the invariant. -/
theorem Coherent.take (hs : server.Coherent) : (server.take file).Coherent := by
  obtain ⟨server', h, hc, -⟩ := hs.receive file.linkId file.received
  rw [receive_take hs] at h
  exact Except.ok.inj h ▸ hc

/-- A file of a Link that does not own the session is dropped. -/
theorem take_stranger (h : ∀ s ∈ server.session, s.connection ≠ file.linkId) :
    server.take file = server := by
  have haccepts : server.acceptsFile file.linkId file.received.size file.received.hasMetadata
      = .ok false := by
    unfold acceptsFile
    cases hsession : server.session with
    | none => rfl
    | some s =>
      have hne := h s hsession
      simp only [hne, decide_false, Bool.false_and]
      rfl
  unfold take receive
  rw [haccepts]
  rfl

/-- The server without the file that has been received. -/
def erase (server : Server) : Server :=
  { server with session := server.session.map fun s => { s with received := none } }

/-- A file that is taken changes nothing but what was received. -/
theorem erase_take (hs : server.Coherent) : (server.take file).erase = server.erase := by
  obtain ⟨server', h, -, hcases⟩ := hs.receive file.linkId file.received
  rw [receive_take hs] at h
  rw [Except.ok.inj h]
  rcases hcases with rfl | ⟨s, hsession, -, -, rfl⟩
  · rfl
  · unfold erase
    rw [hsession]
    rfl

/-- So do all files of a queue. -/
theorem erase_deliver (hs : server.Coherent) : (server.deliver files).erase = server.erase := by
  induction files generalizing server with
  | nil => rfl
  | cons file files ih => exact (ih hs.take).trans (erase_take hs)

/-- The export is not part of what was received. -/
theorem root_eq_of_erase {server' : Server} (h : server'.erase = server.erase) :
    server'.root = server.root := by
  have hroot := congrArg Server.root h
  exact hroot

/-- What of the session is not its received file is the same. -/
theorem session_of_erase {server' : Server} (h : server'.erase = server.erase) {s : Session}
    (hs : s ∈ server.session) :
    ∃ s' ∈ server'.session, { s' with received := none } = { s with received := none } := by
  have hmap : server'.session.map (fun s => { s with received := none })
      = server.session.map fun s => { s with received := none } :=
    congrArg (fun server : Server => server.session) h
  rw [Option.mem_def.mp hs] at hmap
  exact Option.map_eq_some_iff.mp hmap

/-- A queue may be delivered in two parts. -/
theorem deliver_append {more : List FileResourceCompletion} :
    server.deliver (files ++ more) = (server.deliver files).deliver more := List.foldl_append

/-- Without a session every file is dropped. -/
theorem deliver_idle (h : server.session = none) : server.deliver files = server := by
  have htake (file : FileResourceCompletion) : server.take file = server :=
    take_stranger fun s hs => absurd hs (by rw [h]; exact Option.not_mem_none _)
  induction files with
  | nil => rfl
  | cons file files ih =>
    show (server.take file).deliver files = server
    rw [htake, ih]

/-- Whether a file is accepted does not depend on the last activity. -/
theorem acceptsFile_touch {connection : ConnectionId} {size : Nat} {hasMetadata : Bool} :
    (server.touch link now).acceptsFile connection size hasMetadata
      = server.acceptsFile connection size hasMetadata := by
  unfold acceptsFile touch
  cases server.session with
  | none => rfl
  | some s => by_cases h : s.connection = link <;> simp [h]

/-- Time does not matter to a file. -/
theorem take_touch : (server.touch link now).take file = (server.take file).touch link now := by
  unfold take receive
  rw [acceptsFile_touch]
  rcases server.acceptsFile file.linkId file.received.size file.received.hasMetadata with
    e | _ | _
  · rfl
  · rfl
  · unfold touch
    cases server.session with
    | none => rfl
    | some s =>
      cases hr : s.received <;> by_cases h : s.connection = link <;>
        simp [h, hr, Except.toOption, bind, Except.bind, pure, Except.pure]

/-- So deliveries and activities may be exchanged. -/
theorem deliver_touch : (server.touch link now).deliver files
    = (server.deliver files).touch link now := by
  induction files generalizing server with
  | nil => rfl
  | cons file files ih =>
    show ((server.touch link now).take file).deliver files = _
    rw [take_touch, ih]
    rfl

/-- The session of the Link is dropped. -/
theorem disconnect_owned (h : ∀ s ∈ server.session, s.connection = link) :
    server.disconnect link = ⟨server.root, none⟩ := by
  obtain ⟨root, session⟩ := server
  cases session with
  | none => rfl
  | some s =>
    unfold disconnect
    rw [if_pos (by simpa using h s rfl)]

/-- A connection without a session may close. -/
theorem disconnect_stranger (h : ∀ s ∈ server.session, s.connection ≠ link) :
    server.disconnect link = server := by
  obtain ⟨root, session⟩ := server
  cases session with
  | none => rfl
  | some s =>
    unfold disconnect
    rw [if_neg (by simpa using h s rfl)]

/-- A connection without a session has no activity to record. -/
theorem touch_stranger (h : ∀ s ∈ server.session, s.connection ≠ link) :
    server.touch link now = server := by
  obtain ⟨root, session⟩ := server
  cases session with
  | none => rfl
  | some s =>
    unfold touch
    rw [Option.map_some, if_neg (h s rfl)]

/-- A session whose lease is over is dropped, and its connection is returned. -/
theorem expire_eq {timeout : Nat} : server.expire now timeout =
    match server.session with
    | some s => if timeout < now - s.activity then (some s.connection, ⟨server.root, none⟩)
      else (none, server)
    | none => (none, server) := rfl

end Server

/-! ### Delivering files to the second server -/

namespace V2.Server

variable {server : Server} {file : FileResourceCompletion} {files : List FileResourceCompletion}
  {link : ConnectionId} {now : Instant}

section
variable [Sha256]

/-- `receive` never fails, and takes the file or leaves it. -/
theorem receive_take (server : Server) (file : FileResourceCompletion) :
    server.receive file.linkId file.received = .ok (server.take file) := by
  obtain ⟨server', h, -⟩ := receive_turns server file.linkId file.received
  unfold take
  rw [h]
  rfl

/-- A file that is taken is a turn of the server. -/
theorem take_turns (server : Server) (file : FileResourceCompletion) :
    Turn server (.receive file.linkId file.received) (.received (.ok ())) (server.take file) := by
  obtain ⟨server', h, hturn⟩ := receive_turns server file.linkId file.received
  rw [receive_take] at h
  exact Except.ok.inj h ▸ hturn

/-- A file that is taken keeps the invariant. -/
theorem Coherent.take (hs : server.Coherent) : (server.take file).Coherent :=
  (take_turns server file).coherent hs

/-- A file is left, or it is kept as what the transfer has received. -/
theorem take_cases (server : Server) (file : FileResourceCompletion) :
    server.take file = server ∨ ∃ s t, server.base.session = some s ∧
      s.connection = file.linkId ∧ server.transfer = some t ∧
      server.take file = { server with transfer := some { t with received := some file.received } } := by
  have h := take_turns server file
  generalize file.linkId = link at h ⊢
  generalize server.take file = server' at h ⊢
  cases h with
  | ignored => exact .inl rfl
  | stored active push real transfer => exact .inr ⟨_, _, active, rfl, transfer, rfl⟩

/-- A file of a Link that does not own the session is dropped. -/
theorem take_stranger (h : ∀ s ∈ server.base.session, s.connection ≠ file.linkId) :
    server.take file = server := by
  rcases take_cases server file with htake | ⟨s, t, hsession, howner, -⟩
  · exact htake
  · exact absurd howner (h s hsession)

/-- Without a session every file is dropped. -/
theorem deliver_idle (h : server.base.session = none) : server.deliver files = server := by
  have htake (file : FileResourceCompletion) : server.take file = server :=
    take_stranger fun s hs => absurd hs (by rw [h]; exact Option.not_mem_none _)
  induction files with
  | nil => rfl
  | cons file files ih =>
    show (server.take file).deliver files = server
    rw [htake, ih]

/-- The server without the file that has been received. -/
def erase (server : Server) : Server :=
  { server with transfer := server.transfer.map fun t => { t with received := none } }

/-- A file that is taken changes nothing but what was received. -/
theorem erase_take : (server.take file).erase = server.erase := by
  rcases take_cases server file with h | ⟨s, t, -, -, ht, h⟩
  · rw [h]
  · rw [h]
    unfold erase
    rw [ht]
    rfl

/-- So do all files of a queue. -/
theorem erase_deliver : (server.deliver files).erase = server.erase := by
  induction files generalizing server with
  | nil => rfl
  | cons file files ih => exact ih.trans erase_take

omit [Sha256] in
/-- The first engine is not part of what was received. -/
theorem base_eq_of_erase {server' : Server} (h : server'.erase = server.erase) :
    server'.base = server.base := by
  have hbase := congrArg base h
  exact hbase

omit [Sha256] in
/-- A queue may be delivered in two parts. -/
theorem deliver_append {more : List FileResourceCompletion} :
    server.deliver (files ++ more) = (server.deliver files).deliver more := List.foldl_append

omit [Sha256] in
/-- Whether a file is accepted does not depend on the last activity. -/
theorem acceptsFile_touch {connection : ConnectionId} {size : Nat} {hasMetadata : Bool} :
    (server.touch link now).acceptsFile connection size hasMetadata
      = server.acceptsFile connection size hasMetadata := by
  have hany : (server.touch link now).base.session.any (fun s =>
      s.connection = connection && s.push && !s.options.dryRun)
      = server.base.session.any fun s =>
        s.connection = connection && s.push && !s.options.dryRun := by
    show (server.base.touch link now).session.any _ = _
    unfold RrSync.Server.touch
    cases server.base.session with
    | none => rfl
    | some s => by_cases h : s.connection = link <;> simp [h]
  unfold acceptsFile
  rw [hany]
  rfl

omit [Sha256] in
/-- Time does not matter to a file. -/
theorem take_touch : (server.touch link now).take file = (server.take file).touch link now := by
  unfold take receive
  rw [acceptsFile_touch]
  rcases server.acceptsFile file.linkId file.received.size file.received.hasMetadata with
    e | _ | _
  · rfl
  · rfl
  · unfold touch
    cases ht : server.transfer <;>
      simp [ht, Except.toOption, bind, Except.bind, pure, Except.pure, throw, throwThe,
        MonadExceptOf.throw]

omit [Sha256] in
/-- So deliveries and activities may be exchanged. -/
theorem deliver_touch : (server.touch link now).deliver files
    = (server.deliver files).touch link now := by
  induction files generalizing server with
  | nil => rfl
  | cons file files ih =>
    show ((server.touch link now).take file).deliver files = _
    rw [take_touch, ih]
    rfl

omit [Sha256] in
/-- A connection without a session has no activity to record. -/
theorem touch_stranger (h : ∀ s ∈ server.base.session, s.connection ≠ link) :
    server.touch link now = server := by
  unfold touch
  rw [RrSync.Server.touch_stranger h]

/-- A connection without a session may close. -/
theorem disconnect_stranger {ε : Type} (h : ∀ s ∈ server.base.session, s.connection ≠ link) :
    (server.disconnect link : Prog _ ε _) = pure server := by
  have hany : server.base.session.any (fun s => s.connection = link) = false := by
    cases hs : server.base.session with
    | none => rfl
    | some s => simpa using h s hs
  unfold disconnect
  rw [hany]
  rfl

/-- A transfer is dropped whatever file it has received. -/
theorem forget_erase {ε : Type} (base : RrSync.Server) :
    (server.erase.forget base : Prog _ ε _) = server.forget base := by
  unfold forget erase
  cases server.transfer <;> rfl

end

end V2.Server

/-! ### The service -/

namespace Service

/-- The invariant of the service. -/
structure Coherent (service : Service) : Prop where
  engine : service.engine.Coherent
  v2 : ∀ server ∈ service.v2, server.Coherent
  /-- At most one engine has a session. -/
  alone : ∀ s ∈ service.engine.session, ∀ server ∈ service.v2, server.base.session = none
  /-- The Link of a session has the version of its engine. -/
  first : ∀ s ∈ service.engine.session, service.versions s.connection = some 1
  second : ∀ server ∈ service.v2, ∀ s ∈ server.base.session,
    service.versions s.connection = some 2

/-- The service when all files that have arrived are delivered. -/
def settled (service : Service) : Service :=
  { service with engine := service.engine.deliver service.incoming
                 v2 := service.v2.map (·.deliver service.incoming)
                 incoming := [] }

section
variable [Sha256] {service : Service} {link : ConnectionId} {now : Instant}

/-- A file goes to the engine whose session its Link owns, and the other one ignores it. -/
theorem receiveFile_eq (hs : service.Coherent) (file : FileResourceCompletion) :
    service.receiveFile file = .ok { service with engine := service.engine.take file
                                                  v2 := service.v2.map (·.take file) } := by
  unfold receiveFile
  split
  · next hversion =>
    -- a Link of the second version owns no session of the first engine
    have hengine : service.engine.take file = service.engine := by
      refine Server.take_stranger fun s hsession h => ?_
      have h1 := hs.first s hsession
      rw [h, hversion] at h1
      exact absurd h1 (by decide)
    cases hv2 : service.v2 with
    | none =>
      have hsame : { service with v2 := none } = service := by rw [← hv2]
      rw [hengine, Option.map_none]
      exact congrArg Except.ok hsame.symm
    | some server =>
      simp only [V2.Server.receive_take, hengine]
      rfl
  · next hversion =>
    -- and the other way round, so a file goes to the engine that wants it
    have hv2 : service.v2.map (·.take file) = service.v2 := by
      cases h : service.v2 with
      | none => rfl
      | some server =>
        refine congrArg some (V2.Server.take_stranger fun s hsession howner => ?_)
        have h2 := hs.second server h s hsession
        rw [howner] at h2
        exact hversion h2
    rw [Server.receive_take hs.engine, hv2]
    rfl

/-- What an engine has received does not change whose session it is. -/
theorem Coherent.take (hs : service.Coherent) (file : FileResourceCompletion) :
    Coherent { service with engine := service.engine.take file
                            v2 := service.v2.map (·.take file) } where
  engine := hs.engine.take
  v2 := by
    intro server h
    obtain ⟨server, hserver, rfl⟩ := Option.map_eq_some_iff.mp h
    exact (hs.v2 server hserver).take
  -- What is received does not change the session of either engine.
  alone := by
    intro s hsession server h
    obtain ⟨server, hserver, rfl⟩ := Option.map_eq_some_iff.mp h
    obtain ⟨s₀, hs₀, -⟩ := Server.session_of_erase (Server.erase_take hs.engine).symm hsession
    rw [V2.Server.base_eq_of_erase V2.Server.erase_take]
    exact hs.alone s₀ hs₀ server hserver
  first := by
    intro s hsession
    obtain ⟨s₀, hs₀, h⟩ := Server.session_of_erase (Server.erase_take hs.engine).symm hsession
    have hconnection := congrArg Session.connection h
    rw [← show s₀.connection = s.connection from hconnection]
    exact hs.first s₀ hs₀
  second := by
    intro server h s hsession
    obtain ⟨server, hserver, rfl⟩ := Option.map_eq_some_iff.mp h
    rw [V2.Server.base_eq_of_erase V2.Server.erase_take] at hsession
    exact hs.second server hserver s hsession

/-- `receive` never fails on a coherent service, and leaves an empty queue. -/
theorem receive_eq (hs : service.Coherent) :
    service.receive = .ok service.settled ∧ service.settled.Coherent := by
  -- The loop over the queue, for any queue and from any coherent service.
  suffices h : ∀ (files : List FileResourceCompletion) (service : Service), service.Coherent →
      let service' := { service with engine := service.engine.deliver files
                                     v2 := service.v2.map (·.deliver files) }
      files.foldlM receiveFile service = .ok service' ∧ service'.Coherent by
    obtain ⟨h1, h2⟩ := h service.incoming service hs
    refine ⟨?_, ⟨h2.engine, h2.v2, h2.alone, h2.first, h2.second⟩⟩
    unfold receive
    rw [h1]
    rfl
  intro files
  induction files with
  | nil =>
    intro service hs
    have hv2 : service.v2.map (·.deliver []) = service.v2 := by
      cases service.v2 <;> rfl
    simp only [hv2]
    exact ⟨rfl, hs⟩
  | cons file files ih =>
    intro service hs
    -- The first file is taken by both engines, and the rest is as from the service after it.
    have hstep := ih _ (hs.take file)
    rw [List.foldlM_cons, receiveFile_eq hs]
    simp only [Option.map_map] at hstep
    exact hstep

/-! ### The calls of the event loop -/

omit [Sha256] in
/-- An activity keeps the invariant. -/
theorem Coherent.touch (hs : service.Coherent) : (service.touch link now).Coherent where
  engine := hs.engine.touch
  v2 := by
    intro server h
    obtain ⟨server, hserver, rfl⟩ := Option.map_eq_some_iff.mp h
    exact (hs.v2 server hserver).touch
  alone := by
    intro s hsession server h
    -- Only the time of the activity has changed.
    obtain ⟨s₀, hs₀, rfl⟩ := Option.map_eq_some_iff.mp hsession
    obtain ⟨server, hserver, rfl⟩ := Option.map_eq_some_iff.mp h
    exact Option.map_eq_none_iff.mpr (hs.alone s₀ hs₀ server hserver)
  first := by
    intro s hsession
    obtain ⟨s₀, hs₀, rfl⟩ := Option.map_eq_some_iff.mp hsession
    split <;> exact hs.first s₀ hs₀
  second := by
    intro server h s hsession
    obtain ⟨server, hserver, rfl⟩ := Option.map_eq_some_iff.mp h
    obtain ⟨s₀, hs₀, rfl⟩ := Option.map_eq_some_iff.mp hsession
    split <;> exact hs.second server hserver s₀ hs₀

/-- What a disconnect leaves. -/
def disconnected (service : Service) (link : ConnectionId) : Service :=
  { service with engine := service.engine.disconnect link
                 v2 := service.v2.map (·.disconnected link) }

/-- What is left of a service that loses a Link. -/
theorem disconnect_run (service : Service) (link : ConnectionId) (w : Disks) :
    ((service.disconnect link : Prog _ Empty _).runOk execVol w).1
      = service.disconnected link := by
  unfold disconnect disconnected
  cases service.v2 with
  | none => rfl
  | some server =>
    show ((Prog.runOk execVol (server.disconnect link >>= _) w)).1 = _
    rw [Prog.runOk_bind, V2.Server.disconnect_run]
    rfl

omit [Sha256] in
/-- A lost Link keeps the invariant. -/
theorem Coherent.disconnected (hs : service.Coherent) : (service.disconnected link).Coherent where
  engine := hs.engine.disconnect
  v2 := by
    intro server h
    obtain ⟨server, hserver, rfl⟩ := Option.map_eq_some_iff.mp h
    exact (hs.v2 server hserver).disconnected
  alone := by
    intro s hsession server h
    obtain ⟨server, hserver, rfl⟩ := Option.map_eq_some_iff.mp h
    have hnone := hs.alone s (Server.mem_disconnect hsession).1 server hserver
    refine Option.eq_none_iff_forall_not_mem.mpr fun s' hs' => ?_
    have hmem := (V2.Server.mem_disconnected hs').1
    rw [hnone] at hmem
    cases hmem
  first s hsession := hs.first s (Server.mem_disconnect hsession).1
  second := by
    intro server h s hsession
    obtain ⟨server, hserver, rfl⟩ := Option.map_eq_some_iff.mp h
    exact hs.second server hserver s (V2.Server.mem_disconnected hsession).1

omit [Sha256] in
/-- The first engine after `expire`, and what was returned. -/
theorem expire_first {server : Server} {timeout : Nat} :
    (server.expire now timeout = (none, server)) ∨ ∃ s, server.session = some s ∧
      timeout < now - s.activity ∧
      server.expire now timeout = (some s.connection, ⟨server.root, none⟩) := by
  rw [Server.expire_eq]
  cases h : server.session with
  | none => exact .inl rfl
  | some s =>
    by_cases hlate : timeout < now - s.activity
    · exact .inr ⟨s, rfl, hlate, by simp only [if_pos hlate]⟩
    · exact .inl (by simp only [if_neg hlate])

/-- What an expiry leaves: nothing happens, or the session of an engine is dropped and its
connection is returned. -/
inductive Expires (service : Service) (now : Instant) (timeout : Nat) :
    Option ConnectionId → Service → Prop
  | kept : Expires service now timeout none service
  | first {s : Session} (active : service.engine.session = some s)
      (late : timeout < now - s.activity) :
      Expires service now timeout (some s.connection)
        { service with engine := ⟨service.engine.root, none⟩ }
  | second {server : V2.Server} {s : Session} (v2 : service.v2 = some server)
      (active : server.base.session = some s) (late : timeout < now - s.activity) :
      Expires service now timeout (some s.connection)
        { service with v2 := some (server.forgotten { server.base with session := none }) }

/-- The maintenance drops one session at most: both engines never have one at the same time. -/
theorem expire_expires (hs : service.Coherent) (timeout : Nat) (w : Disks) :
    let r := (service.expire now timeout : Prog _ Empty _).runOk execVol w
    service.Expires now timeout r.1.1 r.1.2 := by
  dsimp only
  obtain ⟨engine, v2, versions, incoming, identities, config⟩ := service
  unfold expire
  cases v2 with
  | none =>
    -- the first engine has no session, or one that is too old or not
    rcases @expire_first now engine timeout with h | ⟨s, hsession, hlate, h⟩
    · simp only [h]
      exact .kept
    · simp only [h]
      exact .first hsession hlate
  | some server =>
    have hturn := V2.expire_turns server w now timeout
    dsimp only at hturn ⊢
    rw [Prog.runOk_bind]
    generalize (server.expire now timeout : Prog _ Empty _).runOk execVol w = r at hturn ⊢
    obtain ⟨⟨o, server'⟩, w'⟩ := r
    dsimp only at hturn ⊢
    rcases @expire_first now engine timeout with h | ⟨s, hsession, hlate, h⟩
    · simp only [h]
      cases hturn with
      | expired active late => exact .second rfl active late
      | kept => exact .kept
    · simp only [h]
      cases hturn with
      | expired active late =>
        rw [hs.alone s hsession server rfl] at active
        cases active
      | kept => exact .first hsession hlate

omit [Sha256] in
/-- The maintenance keeps the invariant. -/
theorem Coherent.expires {timeout : Nat} {o : Option ConnectionId} {service' : Service}
    (hs : service.Coherent) (h : service.Expires now timeout o service') : service'.Coherent := by
  cases h with
  | kept => exact hs
  | first =>
    refine ⟨fun _ h => absurd h (Option.not_mem_none _), hs.v2,
      fun _ h => absurd h (Option.not_mem_none _), fun _ h => absurd h (Option.not_mem_none _),
      hs.second⟩
  | second =>
    refine ⟨hs.engine, ?_, ?_, hs.first, ?_⟩
    · rintro _ ⟨⟩
      exact V2.Server.coherent_forgotten rfl
    · rintro _ _ _ ⟨⟩
      rfl
    · rintro _ ⟨⟩ _ h
      cases h

/-! ### Requests -/

section
variable [TruncatedHash] {path : Id} {data : Bytes} {peer : Id} {permission : Permission}

omit [Sha256] in
/-- The version of the requests on a path. -/
def versionOf (path : Id) : Option UInt8 :=
  if isV2 path then some 2
  else if path = truncatedHash requestPath.utf8 then some 1
  else none

/-- The path is known, and the peer of the Link may use the service. -/
def Authorized (service : Service) (link : ConnectionId) (path : Id) : Prop :=
  (versionOf path).isSome = true ∧
    ∃ peer ∈ service.identities link, service.config.permission peer ≠ .deny

/-- The Link has no version, or that of the path. -/
def Free (service : Service) (link : ConnectionId) (path : Id) : Prop :=
  ∀ v ∈ service.versions link, versionOf path = some v

/-- The Link gets the version of the path. -/
def pin (service : Service) (link : ConnectionId) (path : Id) : Service :=
  { service with versions := Function.update service.versions link (versionOf path) }

omit [Sha256] in
/-- A new pin keeps the versions of the Links that own a session. -/
theorem Coherent.pin (hs : service.Coherent) (hfree : service.Free link path) :
    (service.pin link path).Coherent := by
  have hupdate {connection : ConnectionId} {v : UInt8}
      (h : service.versions connection = some v) :
      (service.pin link path).versions connection = some v := by
    show Function.update service.versions link _ connection = _
    by_cases hc : connection = link
    · subst hc
      rw [Function.update_self]
      exact hfree v h
    · rw [Function.update_of_ne hc, h]
  exact ⟨hs.engine, hs.v2, hs.alone, fun s h => hupdate (hs.first s h),
    fun server h s hsession => hupdate (hs.second server h s hsession)⟩

/-- A request on another path is refused before anything else. -/
theorem request_unknown (h : versionOf path = none) : service.request now link path data =
    pure (.error (.protocol "unknown request path"), service) := by
  unfold versionOf at h
  split at h
  · cases h
  · next h2 =>
    split at h
    · cases h
    · next h1 =>
      unfold request
      simp [h1, h2]

/-- A request on a known path, with the checks in the order of the source. -/
theorem request_known {version : UInt8} (h : versionOf path = some version) :
    service.request now link path data = match service.identities link with
      | none => pure (.error .permissionDenied, service)
      | some peer =>
        if service.config.permission peer = .deny then pure (.error .permissionDenied, service)
        else if (service.versions link).any (· ≠ version) then
          pure (.error (.protocol "cannot change protocol on a Link"), service)
        else match (service.pin link path).receive with
          | .error e => pure (.error e, service.pin link path)
          | .ok a =>
            if isV2 path then a.requestV2 now link peer (service.config.permission peer) data
            else a.requestV1 now link (service.config.permission peer) data := by
  unfold pin
  rw [h]
  unfold versionOf at h
  -- The path is that of the second or of the first protocol.
  split at h
  · next h2 =>
    obtain rfl := Option.some.inj h
    unfold request
    simp only [h2]
    rfl
  · next h2 =>
    split at h
    · next h1 =>
      obtain rfl := Option.some.inj h
      have hpath : decide (path ≠ truncatedHash requestPath.utf8) = false := by simp [h1]
      unfold request
      simp only [Bool.eq_false_iff.mpr h2, hpath]
      rfl
    · cases h

omit [Sha256] in
/-- A Link is free for a version when it has chosen none or this one. -/
theorem any_free {version : UInt8} (h : versionOf path = some version) :
    (service.versions link).any (· ≠ version) = false ↔ service.Free link path := by
  unfold Free
  rw [h]
  cases service.versions link with
  | none => simp
  | some v =>
    simp only [Option.any_some, ne_eq, decide_eq_false_iff_not, Decidable.not_not, Option.mem_def,
      Option.some.injEq, forall_eq']
    exact eq_comm

/-- A request that is refused before an engine is asked. It depends only on what the service
knows of the Link. -/
theorem request_refused (h : ¬ (service.Authorized link path ∧ service.Free link path)) :
    ∃ e, ∀ b : Service, b.identities link = service.identities link → b.config = service.config →
      b.versions link = service.versions link →
      b.request now link path data = pure (.error e, b) := by
  cases hversion : versionOf path with
  | none => exact ⟨_, fun b _ _ _ => request_unknown hversion⟩
  | some version =>
    cases hpeer : service.identities link with
    | none =>
      refine ⟨.permissionDenied, fun b hi _ _ => ?_⟩
      rw [request_known hversion, hi]
    | some peer =>
      -- A peer without permission is refused before the version is looked at.
      by_cases hdeny : service.config.permission peer = .deny
      · refine ⟨.permissionDenied, fun b hi hc _ => ?_⟩
        rw [request_known hversion, hi]
        simp only [hc, hdeny, if_pos]
      · have hfree : ¬ service.Free link path := fun hfree =>
          h ⟨⟨by rw [hversion]; rfl, peer, hpeer, hdeny⟩, hfree⟩
        rw [← any_free hversion, Bool.not_eq_false] at hfree
        refine ⟨.protocol "cannot change protocol on a Link", fun b hi hc hv => ?_⟩
        rw [request_known hversion, hi]
        simp only [hc, hdeny, if_false, hv, hfree, if_true]

/-- A request that is not refused gives its Link a version and delivers the files that have
arrived. Then it is one of the requests of an engine. -/
theorem request_eq (hs : service.Coherent) (ha : service.Authorized link path)
    (hfree : service.Free link path) : ∃ peer, service.identities link = some peer ∧
      service.config.permission peer ≠ .deny ∧
      service.request now link path data =
        if isV2 path then (service.pin link path).settled.requestV2 now link peer
          (service.config.permission peer) data
        else (service.pin link path).settled.requestV1 now link
          (service.config.permission peer) data := by
  obtain ⟨hpath, peer, hpeer, hdeny⟩ := ha
  obtain ⟨version, hversion⟩ := Option.isSome_iff_exists.mp hpath
  refine ⟨peer, hpeer, hdeny, ?_⟩
  obtain ⟨hreceive, -⟩ := receive_eq (hs.pin hfree)
  rw [request_known hversion, Option.mem_def.mp hpeer]
  dsimp only
  rw [if_neg hdeny, (any_free hversion).mpr hfree, hreceive]
  rfl

omit [TruncatedHash] in
/-- A request with the second version is refused, or it is a call of the second engine. It
depends on the engines only. -/
theorem requestV2_cases (a : Service) :
    (∃ e, ∀ b : Service, b.engine = a.engine → b.v2 = a.v2 →
      b.requestV2 now link peer permission data = pure (.error e, b)) ∨
    ∃ server request, a.engine.session = none ∧ a.v2 = some server ∧
      V2.Message.decode data = .ok request ∧
      ∀ b : Service, b.engine = a.engine → b.v2 = a.v2 →
        b.requestV2 now link peer permission data = (do
          let (reply, server) ← server.handle now link peer permission request
          pure (reply.bind V2.ServerReply.outcome, { b with v2 := some server })) := by
  -- the second engine is not asked while the first one has a session
  cases hactive : a.engine.active with
  | true =>
    refine .inl ⟨.busy, fun b he _ => ?_⟩
    unfold requestV2
    rw [he, hactive, if_pos rfl]
  | false =>
    have hidle : a.engine.session = none := by simpa [Server.active] using hactive
    cases hv2 : a.v2 with
    | none =>
      refine .inl ⟨.config "v2 is disabled; configure resume on the server", fun b he hv => ?_⟩
      unfold requestV2
      rw [he, hactive, hv]
      rfl
    | some server =>
      cases hdecode : V2.Message.decode data with
      | error e =>
        refine .inl ⟨e, fun b he hv => ?_⟩
        unfold requestV2
        rw [he, hactive, hv, hdecode]
        rfl
      | ok request =>
        refine .inr ⟨server, request, hidle, rfl, rfl, fun b he hv => ?_⟩
        unfold requestV2
        rw [he, hactive, hv, hdecode]
        rfl

omit [TruncatedHash] in
/-- The same for the first version. -/
theorem requestV1_cases (a : Service) :
    (∃ e, ∀ b : Service, b.engine = a.engine → b.v2 = a.v2 →
      b.requestV1 now link permission data = pure (.error e, b)) ∨
    ∃ request, (∀ server ∈ a.v2, server.base.session = none) ∧
      Message.decode data = .ok request ∧
      ∀ b : Service, b.engine = a.engine → b.v2 = a.v2 →
        b.requestV1 now link permission data = (do
          let (reply, engine) ← (a.engine.handle now link permission request).atVol Volume.tree
          pure (reply.bind ServerReply.outcome, { b with engine })) := by
  -- The first engine is not asked while the second one is active.
  cases hactive : a.v2.any (·.active) with
  | true =>
    refine .inl ⟨.busy, fun b _ hv => ?_⟩
    unfold requestV1
    rw [hv, hactive, if_pos rfl]
  | false =>
    cases hdecode : Message.decode data with
    | error e =>
      refine .inl ⟨e, fun b _ hv => ?_⟩
      unfold requestV1
      rw [hv, hactive, hdecode]
      rfl
    | ok request =>
      refine .inr ⟨request, fun server h => ?_, rfl, fun b he hv => ?_⟩
      · rw [Option.mem_def.mp h] at hactive
        simpa [V2.Server.active] using hactive
      · unfold requestV1
        rw [he, hv, hactive, hdecode]
        rfl

/-- What can come of a request: the result, and the service before the handler looks at it. -/
inductive Requested (service : Service) (link : ConnectionId) (path : Id) :
    Except Error RequestOutcome → Service → Prop
  | refused {e : Error} (hrefused : ¬ (service.Authorized link path ∧ service.Free link path)) :
      Requested service link path (.error e) service
  | stopped {e : Error} (authorized : service.Authorized link path)
      (free : service.Free link path) :
      Requested service link path (.error e) (service.pin link path).settled
  | first {result : Except Error RequestOutcome} {engine : Server}
      (authorized : service.Authorized link path) (free : service.Free link path)
      (version : versionOf path = some 1) (coherent : engine.Coherent)
      (idle : ∀ server ∈ (service.pin link path).settled.v2, server.base.session = none)
      (owned : ∀ s ∈ engine.session, s.connection = link ∨
        s ∈ (service.pin link path).settled.engine.session) :
      Requested service link path result { (service.pin link path).settled with engine }
  | second {result : Except Error RequestOutcome} {server server' : V2.Server}
      (authorized : service.Authorized link path) (free : service.Free link path)
      (version : versionOf path = some 2) (coherent : server'.Coherent)
      (idle : (service.pin link path).settled.engine.session = none)
      (before : (service.pin link path).settled.v2 = some server)
      (owned : ∀ s ∈ server'.base.session, s.connection = link ∨ s ∈ server.base.session) :
      Requested service link path result { (service.pin link path).settled with v2 := some server' }

omit [TruncatedHash] in
/-- The session of the first engine after a request is of its Link, or it is the one before. -/
theorem handle_owned {server : Server} (hs : server.Coherent) (request : Message) (w : Disk) :
    let server' := ((server.handle now link permission request).runOk exec w).1.2
    server'.Coherent ∧ ∀ s ∈ server'.session, s.connection = link ∨ s ∈ server.session := by
  intro server'
  rcases Server.handle_cases hs now link permission request w with
    ⟨reply, -, h⟩ | ⟨e, -, -, h⟩
  · change server.Accepts now link permission request reply server' at h
    refine ⟨hs.accepts h, fun s hsession => .inl ?_⟩
    generalize server' = server'' at h hsession
    cases h with
    | start =>
      cases hsession
      rfl
    | serve allowed active owner dry served =>
      cases served <;> cases hsession <;> exact owner
  · change server' = _ at h
    rw [h]
    exact ⟨hs.disconnect, fun s hsession => .inr (Server.mem_disconnect hsession).1⟩

omit [TruncatedHash] in
/-- A request of the second engine keeps its invariant, and its session is of the Link. -/
theorem handle_owned_v2 {server : V2.Server} (hs : server.Coherent) (request : V2.Message)
    (w : Disks) :
    let server' := ((server.handle now link peer permission request).runOk execVol w).1.2
    server'.Coherent ∧
      ∀ s ∈ server'.base.session, s.connection = link ∨ s ∈ server.base.session := by
  intro server'
  rcases V2.Server.handle_cases hs now link peer permission request w with
    ⟨reply, -, h⟩ | ⟨e, -, -, h⟩
  · change server.Accepts now link peer permission request reply server' at h
    refine ⟨hs.accepts h, fun s hsession => .inl ?_⟩
    generalize server' = server'' at h hsession
    -- A session after the request was started by it, or belonged to the Link before.
    cases h with
    | start accepted =>
      cases accepted with
      | start =>
        cases hsession
        rfl
      | serve _ _ _ _ served => cases served
    | finish => cases hsession
    | serve allowed active owner same full real served =>
      cases hsession
      have hfixed := congrArg Session.connection served.fixed
      exact (show _ = _ from hfixed).trans owner
  · change server' = _ at h
    rw [h]
    exact ⟨hs.disconnected, fun s hsession => .inr (V2.Server.mem_disconnected hsession).1⟩

/-- Every request is one of the cases of `Requested`. -/
theorem request_requested (hs : service.Coherent) (w : Disks) :
    let r := (service.request now link path data).runOk execVol w
    service.Requested link path r.1.1 r.1.2 := by
  dsimp only
  -- who may not ask, or has chosen the other version, changes nothing at all
  by_cases h : service.Authorized link path ∧ service.Free link path
  · obtain ⟨ha, hfree⟩ := h
    obtain ⟨peer, -, -, heq⟩ := @request_eq _ _ _ now _ _ data hs ha hfree
    obtain ⟨-, hc⟩ := receive_eq (hs.pin hfree)
    rw [heq]
    cases h2 : isV2 path with
    | true =>
      rw [if_pos rfl]
      rcases @requestV2_cases _ link now data peer (service.config.permission peer) (service.pin
          link path).settled with
        ⟨e, hb⟩ | ⟨server, request, hidle, hserver, -, hb⟩
      · rw [hb _ rfl rfl]
        exact .stopped ha hfree
      · rw [hb _ rfl rfl, Prog.runOk_bind]
        obtain ⟨h3, h4⟩ := @handle_owned_v2 _ link now peer (service.config.permission peer) _
            (hc.v2 server hserver) request w
        exact .second ha hfree (if_pos h2) h3 hidle hserver h4
    | false =>
      rw [if_neg (by decide)]
      rcases @requestV1_cases _ link now data (service.config.permission peer) (service.pin link
          path).settled with
        ⟨e, hb⟩ | ⟨request, hidle, -, hb⟩
      · rw [hb _ rfl rfl]
        exact .stopped ha hfree
      · have hversion : versionOf path = some 1 := by
          obtain ⟨version, hv⟩ := Option.isSome_iff_exists.mp ha.1
          unfold versionOf at hv ⊢
          rw [h2] at hv ⊢
          split at hv
          · next hpath => cases hpath
          · split at hv
            · next hpath => rw [if_neg (by decide), if_pos hpath]
            · cases hv
        rw [hb _ rfl rfl, Prog.runOk_bind, execVol, Prog.runOk_atVol]
        obtain ⟨h3, h4⟩ := @handle_owned _ link now (service.config.permission peer) _ hc.engine
            request (w .tree)
        exact .first ha hfree hversion h3 hidle h4
  · obtain ⟨e, he⟩ := @request_refused _ _ _ now _ _ data h
    rw [he service rfl rfl rfl]
    exact .refused h

/-- The service after the handler. -/
def handled (service : Service) (link : ConnectionId) : Except Error RequestOutcome → Service
  | .ok _ => service
  | .error _ => service.disconnected link

omit [Sha256] [TruncatedHash] in
/-- The handler of a request does not change the versions. -/
theorem handled_versions {result : Except Error RequestOutcome} :
    (service.handled link result).versions = service.versions := by
  cases result <;> rfl

omit [Sha256] [TruncatedHash] in
/-- The handler of a request keeps the invariant. -/
theorem Coherent.handled {result : Except Error RequestOutcome} (hs : service.Coherent) :
    (service.handled link result).Coherent := by
  cases result with
  | ok reply => exact hs
  | error e => exact hs.disconnected

/-- What the handler answers to an error. -/
def answer (path : Id) (e : Error) : Except Error RequestOutcome :=
  expectBounded (if isV2 path then (V2.Message.common (Message.ofError e)).encode
    else (Message.ofError e).encode)

/-- The handler closes the Link after an error, and answers with the error. -/
theorem handler_eq (service : Service) (now : Instant) (link : ConnectionId) (path : Id)
    (data : Bytes) (w : Disks) :
    (service.handler now link path data).runOk execVol w =
      match (service.request now link path data).runOk execVol w with
      | ((.ok reply, service'), w') => (((.ok reply, .ok reply), service'), w')
      | ((.error e, service'), w') => (((.error e, answer path e),
          ((service'.disconnect link : Prog _ Empty _).runOk execVol w').1),
          ((service'.disconnect link : Prog _ Empty _).runOk execVol w').2) := by
  unfold handler
  rw [Prog.runOk_bind]
  rcases (service.request now link path data).runOk execVol w with ⟨⟨_ | _, service'⟩, w'⟩
  · dsimp only
    rw [Prog.runOk_bind]
    rfl
  · rfl

/-- The handler returns what `request` did, and disconnects the Link after an error. -/
theorem handler_run (service : Service) (now : Instant) (link : ConnectionId) (path : Id)
    (data : Bytes) (w : Disks) :
    let r := (service.request now link path data).runOk execVol w
    let h := (service.handler now link path data).runOk execVol w
    h.1.1.1 = r.1.1 ∧ h.1.2 = r.1.2.handled link r.1.1 := by
  dsimp only
  rw [handler_eq]
  rcases (service.request now link path data).runOk execVol w with ⟨⟨_ | _, service'⟩, w'⟩
  · exact ⟨rfl, disconnect_run service' link w'⟩
  · exact ⟨rfl, rfl⟩

/-- A request keeps the invariant. -/
theorem Coherent.requested {result : Except Error RequestOutcome} {service' : Service}
    (hs : service.Coherent) (h : service.Requested link path result service') :
    service'.Coherent := by
  -- The Link has the version of the path from now on.
  have hpinned {v : UInt8} (hv : versionOf path = some v) {connection : ConnectionId}
      (hc : connection = link) : (service.pin link path).settled.versions connection = some v := by
    show Function.update service.versions link _ connection = _
    rw [hc, Function.update_self, hv]
  cases h with
  | refused => exact hs
  | stopped authorized free => exact (receive_eq (hs.pin free)).2
  | first authorized free version coherent idle owned =>
    have hsettled := (receive_eq (hs.pin free)).2
    refine ⟨coherent, hsettled.v2, fun s _ => idle, fun s hsession => ?_, hsettled.second⟩
    -- A session is of this Link, which has the version, or it was there before.
    rcases owned s hsession with howner | hold
    · exact hpinned version howner
    · exact hsettled.first s hold
  | @second _ server server' authorized free version coherent idle before owned =>
    have hsettled := (receive_eq (hs.pin free)).2
    refine ⟨hsettled.engine, ?_, fun s hsession => ?_, hsettled.first, ?_⟩
    · rintro _ ⟨⟩
      exact coherent
    · rw [show (service.pin link path).settled.engine.session = none from idle] at hsession
      cases hsession
    · rintro _ ⟨⟩ s hsession
      rcases owned s hsession with howner | hold
      · exact hpinned version howner
      · exact hsettled.second server before s hold

omit [Sha256] in
/-- A request changes the version of its own Link only, and only from none. -/
theorem Requested.versions {result : Except Error RequestOutcome} {service' : Service}
    (h : service.Requested link path result service') :
    (service'.versions = service.versions ∧
      ¬ (service.Authorized link path ∧ service.Free link path) ∧ ∃ e, result = .error e) ∨
    (service'.versions = (service.pin link path).versions ∧ service.Authorized link path ∧
      service.Free link path) := by
  cases h with
  | refused hrefused => exact .inl ⟨rfl, hrefused, _, rfl⟩
  | stopped authorized free => exact .inr ⟨rfl, authorized, free⟩
  | first authorized free => exact .inr ⟨rfl, authorized, free⟩
  | second authorized free => exact .inr ⟨rfl, authorized, free⟩

/-! ### Runs -/

section
variable {st : Service × Disks}

/-- A step that is a request. -/
theorem step_request : step st (.request now link path data) =
    (.reply ((st.1.handler now link path data).runOk execVol st.2).1.1.1
        ((st.1.handler now link path data).runOk execVol st.2).1.1.2,
      ((st.1.handler now link path data).runOk execVol st.2).1.2,
      ((st.1.handler now link path data).runOk execVol st.2).2) := rfl

/-- A step that delivers the queue. -/
theorem step_receive : step st .receive = match st.1.receive with
    | .ok service => (.received (.ok ()), service, st.2)
    | .error e => (.received (.error e), st) := rfl

/-- A step that closes a Link. -/
theorem step_closed : step st (.closed link) =
    (.none, { ((st.1.disconnect link : Prog _ Empty _).runOk execVol st.2).1 with
        versions := Function.update
          ((st.1.disconnect link : Prog _ Empty _).runOk execVol st.2).1.versions link none },
      ((st.1.disconnect link : Prog _ Empty _).runOk execVol st.2).2) := rfl

/-- A step of the maintenance. -/
theorem step_expire {timeout : Nat} : step st (.expire now timeout) =
    (.expired ((st.1.expire now timeout : Prog _ Empty _).runOk execVol st.2).1.1,
      ((st.1.expire now timeout : Prog _ Empty _).runOk execVol st.2).1.2,
      ((st.1.expire now timeout : Prog _ Empty _).runOk execVol st.2).2) := rfl

/-- Every step keeps the invariant. -/
theorem step_coherent (hs : st.1.Coherent) (i : Input) : (step st i).2.1.Coherent := by
  cases i with
  | request now link path data =>
    obtain ⟨-, hpost⟩ := handler_run st.1 now link path data st.2
    rw [step_request]
    dsimp only
    rw [hpost]
    exact (hs.requested (request_requested hs st.2)).handled
  | complete file => exact ⟨hs.engine, hs.v2, hs.alone, hs.first, hs.second⟩
  | receive =>
    obtain ⟨h, hc⟩ := receive_eq hs
    rw [step_receive, h]
    exact hc
  | touch link now => exact hs.touch
  | expire now timeout => exact hs.expires (expire_expires hs timeout st.2)
  | closed link =>
    show Coherent { ((st.1.disconnect link).runOk execVol st.2).1 with versions := _ }
    rw [disconnect_run]
    -- The Link forgets its version, and owns no session any more.
    have hc : Coherent (st.1.disconnected link) := hs.disconnected
    refine ⟨hc.engine, hc.v2, hc.alone, fun s hsession => ?_, fun server hserver s hsession => ?_⟩
    · show Function.update _ _ _ s.connection = _
      rw [Function.update_of_ne (Server.mem_disconnect hsession).2]
      exact hc.first s hsession
    · have hne : s.connection ≠ link := by
        obtain ⟨server, -, rfl⟩ := Option.map_eq_some_iff.mp hserver
        exact (V2.Server.mem_disconnected hsession).2
      show Function.update _ _ _ s.connection = _
      rw [Function.update_of_ne hne]
      exact hc.second server hserver s hsession
  | identify link peer => exact ⟨hs.engine, hs.v2, hs.alone, hs.first, hs.second⟩

omit [Sha256] [TruncatedHash] in
/-- A new service has no session, no file and no version. -/
theorem started_coherent (root : Root) (cache : Option Cache) (config : Config) :
    (Service.new root cache config).Coherent := by
  have hno {P : Session → Prop} {server : V2.Server} (h : server ∈ cache.map (V2.Server.new root)) :
      server.Coherent ∧ ∀ s ∈ server.base.session, P s := by
    obtain ⟨cache, -, rfl⟩ := Option.map_eq_some_iff.mp h
    exact ⟨V2.started_coherent root cache, fun _ h => absurd h (Option.not_mem_none _)⟩
  exact ⟨RrSync.started_coherent root, fun server h => (hno (P := fun _ => True) h).1,
    fun _ h => absurd h (Option.not_mem_none _), fun _ h => absurd h (Option.not_mem_none _),
    fun server h => (hno h).2⟩

end

end

end

end Service

end RrSync

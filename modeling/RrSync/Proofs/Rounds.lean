import RrSync.Model.Simulation
import RrSync.Proofs.Engine
import RrSync.Proofs.Protocol
import RrSync.Proofs.Requests

/-!
# `RrSync.Proofs.Rounds`: one request over the transport of the tests

The transport of the tests joins a client and a server. `Client.request_answered` is one request of the
client: when both messages fit and the server answers, the client has its answer, and the session
and the disk of the server have made one step. What the server has to be asked for an answer is said
forward here (`Server.start_answers`, `Server.serve_answers`), from the parts of a request.
-/

set_option autoImplicit false

namespace RrSync

open Lib

/-! ### Messages that fit -/

/-- A message that is encoded, and decoded on the other side. -/
structure Message.Carried (m : Message) : Prop where
  sendable : m.Sendable
  short : ¬ m.LongError
  fits : m.bytes.length ≤ maxControl

/-- A message that is carried is encoded. -/
theorem Message.Carried.encode {m : Message} (h : m.Carried) : m.encode = .ok m.bytes :=
  Message.encode_ok.mpr ⟨h.sendable, rfl, h.fits⟩

/-- It is decoded on the other side. -/
theorem Message.Carried.decode {m : Message} (h : m.Carried) : Message.decode m.bytes = .ok m :=
  Message.decode_ok.mpr ⟨⟨h.sendable, h.short⟩, rfl, h.fits⟩

/-- The messages of a fixed size are carried. -/
theorem carried_ok : Message.ok.Carried := ⟨trivial, id, by decide⟩

/-- FINISH is carried. -/
theorem carried_finish : Message.finish.Carried := ⟨trivial, id, by decide⟩

section
variable {i : UInt32} {resource : TransferId}

/-- BEGIN is carried. -/
theorem carried_begin : (Message.begin i).Carried := by
  refine ⟨trivial, id, ?_⟩
  simp [Message.bytes, Message.fields, Writer.u8, Writer.u32, maxControl]

/-- COMMIT is carried. -/
theorem carried_commit : (Message.commit i resource).Carried := by
  refine ⟨trivial, id, ?_⟩
  simp [Message.bytes, Message.fields, Writer.u8, Writer.u32, maxControl]

/-- GET is carried. -/
theorem carried_get : (Message.get i).Carried := by
  refine ⟨trivial, id, ?_⟩
  simp [Message.bytes, Message.fields, Writer.u8, Writer.u32, maxControl]

/-- VERIFIED is carried. -/
theorem carried_verified : (Message.verified i).Carried := by
  refine ⟨trivial, id, ?_⟩
  simp [Message.bytes, Message.fields, Writer.u8, Writer.u32, maxControl]

end

/-! ### Requests -/

section
variable [Sha256] {link link' : SimulatedTransport} {message reply : Message} {server : Server}
  {w v : Disk} {file : Bytes}

namespace SimulatedTransport

/-- A request that the server answers with a message. -/
theorem dispatch_message (hm : message.Carried) (hr : reply.Carried)
    (h : (link.server.handleInner 0 link.connection link.permission message).run exec link.disk
      = (.ok (.message reply, server), w)) :
    link.dispatch message.bytes = (.ok reply.bytes, { link with server, disk := w }) := by
  unfold dispatch
  rw [hm.decode]
  dsimp only
  rw [Server.handle_run, h]
  dsimp only [respond]
  rw [hr.encode]

/-- A request that the server answers with a file. -/
theorem dispatch_file (hm : message.Carried) (hr : reply.Carried)
    (h : (link.server.handleInner 0 link.connection link.permission message).run exec link.disk
      = (.ok (.file reply file, server), w)) :
    link.dispatch message.bytes
      = (.ok reply.bytes, { link with server, disk := w, download := some file }) := by
  unfold dispatch
  rw [hm.decode]
  dsimp only
  rw [Server.handle_run, h]
  dsimp only [respond]
  rw [hr.encode]

end SimulatedTransport

namespace Client

/-- A request whose answer is carried returns it to the client. -/
theorem request_answered (hm : message.Carried) (hr : reply.Carried)
    (hanswer : ∀ code text, reply ≠ .error code text)
    (h : link.dispatch message.bytes = (.ok reply.bytes, link')) :
    (request message).run execBoth (v, link) = (.ok reply, v, link') := by
  have hlink : (linkRequest message.bytes : ClientM Bytes).run execBoth (v, link)
      = (.ok reply.bytes, v, link') := by
    show ((link.dispatch message.bytes).1, v, (link.dispatch message.bytes).2) = _
    rw [h]
  refine Prog.run_bind_eq_ok.mpr ⟨_, _, Prog.run_lift_eq_ok.mpr ⟨hm.encode, rfl⟩, ?_⟩
  refine Prog.run_bind_eq_ok.mpr ⟨_, _, hlink, ?_⟩
  refine Prog.run_bind_eq_ok.mpr ⟨_, _, Prog.run_lift_eq_ok.mpr ⟨hr.decode, rfl⟩, ?_⟩
  cases reply with
  | error code text => exact absurd rfl (hanswer code text)
  | _ => rfl

/-- A request that is answered OK. -/
theorem ok_answered (hm : message.Carried)
    (h : link.dispatch message.bytes = (.ok Message.ok.bytes, link')) :
    (ok message).run execBoth (v, link) = (.ok (), v, link') := by
  have hrequest := request_answered (v := v) hm carried_ok (fun _ _ h => by cases h) h
  refine Prog.run_bind_eq_ok.mpr ⟨_, _, hrequest, ?_⟩
  exact Prog.run_check_eq_ok.mpr ⟨not_not.mpr rfl, rfl⟩

end Client

/-! ### The server -/

variable {s : Session} {now : Instant} {connection : ConnectionId} {permission : Permission}

namespace Server

/-- A START that the server accepts. -/
theorem start_answers {push : Bool} {options : Options} {path : String} {manifest : Manifest}
    {root : Root} {scan : Scan} {p : Plan} (hallowed : permission ≠ .deny)
    (hfull : push = true → permission = .full) (hidle : server.session = none)
    (hroot : server.root.subtree path = .ok root)
    (hfound : push = false → (root.exists? "").run exec w = (.ok true, w))
    (hscan : (RrSync.scan root options.checksum).run exec w = (.ok scan, w))
    (hp : plan (if push then manifest else scan.manifest) (if push then scan.manifest else manifest)
      options = .ok p) :
    (server.handleInner now connection permission (.start push options path manifest)).run exec w
      = (.ok (.message (.manifest scan.manifest), { server with
        session := some (.opened connection push options root manifest scan p now) }), w) := by
  -- After the checks the tree is scanned and the plan is made.
  have hrest : (do
      let scan ← RrSync.scan root options.checksum
      let plan ← (plan (if push then manifest else scan.manifest)
        (if push then scan.manifest else manifest) options : Except Error Plan)
      pure (.message (.manifest scan.manifest), { server with
        session := some (.opened connection push options root manifest scan plan now) }) :
        FsM (ServerReply × Server)).run exec w = (.ok (.message (.manifest scan.manifest),
          { server with
            session := some (.opened connection push options root manifest scan p now) }), w) := by
    refine Prog.run_bind_eq_ok.mpr ⟨_, _, hscan, ?_⟩
    exact Prog.run_bind_eq_ok.mpr ⟨_, _, Prog.run_lift_eq_ok.mpr ⟨hp, rfl⟩, rfl⟩
  refine Prog.run_check_bind_eq_ok.mpr ⟨hallowed, ?_⟩
  show (server.start now connection permission push options path manifest).run exec w = _
  refine Prog.run_check_bind_eq_ok.mpr ⟨fun h => h.2 (hfull h.1), ?_⟩
  refine Prog.run_check_bind_eq_ok.mpr ⟨by simp [hidle], ?_⟩
  refine Prog.run_bind_eq_ok.mpr ⟨_, _, Prog.run_lift_eq_ok.mpr ⟨hroot, rfl⟩, ?_⟩
  cases push with
  | true => exact hrest
  -- A pull must find its root.
  | false =>
    refine Prog.run_bind_eq_ok.mpr ⟨_, _, hfound rfl, ?_⟩
    exact Prog.run_check_bind_eq_ok.mpr ⟨by simp, hrest⟩

/-- A request in the session of its connection that the session answers. -/
theorem serve_answers {r : ServerReply} {session : Option Session} (hallowed : permission ≠ .deny)
    (hs : server.session = some s) (howner : s.connection = connection)
    (hdry : s.options.dryRun = true → message = .finish)
    (hne : ∀ push options path manifest, message ≠ .start push options path manifest)
    (h : (Session.serve { s with activity := now } message).run exec v = (.ok (r, session), w)) :
    (server.handleInner now connection permission message).run exec v
      = (.ok (r, { server with session }), w) := by
  have hfilter : server.session.filter (·.connection = connection) = some s := by
    rw [hs]
    simp [howner]
  -- The session of the connection serves the request.
  have hrest : (server.inSession now connection message).run exec v
      = (.ok (r, { server with session }), w) := by
    unfold inSession
    rw [hfilter]
    refine Prog.run_check_bind_eq_ok.mpr ⟨fun hc => hc.2 (hdry hc.1), ?_⟩
    exact Prog.run_bind_eq_ok.mpr ⟨_, _, h, rfl⟩
  refine Prog.run_check_bind_eq_ok.mpr ⟨hallowed, ?_⟩
  cases message with
  | start push options path manifest => exact absurd rfl (hne _ _ _ _)
  | _ => exact hrest

end Server

namespace SimulatedTransport

variable {session : Option Session} (hm : message.Carried) (hr : reply.Carried)
  (hallowed : link.permission ≠ .deny) (hs : link.server.session = some s)
  (howner : s.connection = link.connection) (hreal : s.options.dryRun = false)
  (hne : ∀ push options path manifest, message ≠ .start push options path manifest)
include hm hr hallowed hs howner hreal hne

/-- A request in a session that is no dry run. -/
theorem dispatch_served (h : (Session.serve { s with activity := 0 } message).run exec link.disk
      = (.ok (.message reply, session), w)) : link.dispatch message.bytes
      = (.ok reply.bytes, { link with server := { link.server with session }, disk := w }) := by
  have hdry : s.options.dryRun = true → message = .finish := by simp [hreal]
  exact dispatch_message hm hr (Server.serve_answers hallowed hs howner hdry hne h)

/-- A request that is answered with a file leaves the file for the download. -/
theorem dispatch_served_file (h : (Session.serve { s with activity := 0 } message).run exec link.disk
      = (.ok (.file reply file, session), w)) : link.dispatch message.bytes
      = (.ok reply.bytes, { link with
        server := { link.server with session }, disk := w, download := some file }) := by
  have hdry : s.options.dryRun = true → message = .finish := by simp [hreal]
  exact dispatch_file hm hr (Server.serve_answers hallowed hs howner hdry hne h)

end SimulatedTransport

end

end RrSync

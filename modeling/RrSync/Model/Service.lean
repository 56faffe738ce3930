import RrSync.Model.EngineV2

/-!
# `RrSync.Model.Service`: the service of `transport.rs`

One export, served over both protocols. The service has an engine for each, the version that
each Link has chosen and the queue of the files that have arrived. `step` runs one call of it:
a request with the handler of `serve_on` around it, or what the event loop does.

The hash of a request path comes from the `rns_crypto` crate; it is the parameter
`TruncatedHash`. Which peer has identified itself on a Link is known to the Link manager of
that crate, so it is an input.
-/

set_option autoImplicit false

namespace RrSync

open Lib

/-- `rns_crypto::sha::truncated_hash`. -/
class TruncatedHash where
  truncatedHash : Bytes → Id

export TruncatedHash (truncatedHash)

/-! ### Permissions -/

/-- What the service reads of the configuration. Each rule has an address and its
permission. -/
structure Config where
  permits : List (List (String × Permission))

/-- `hex::decode`. -/
def unhex : Bytes → Option Bytes
  | [] => some []
  | [_] => none
  | x :: y :: rest => do
    let high ← hexValue? x
    let low ← hexValue? y
    let tail ← unhex rest
    pure (UInt8.ofNat (high * 16 + low) :: tail)

/-- `config::address`, without the text of its error. -/
def address (s : String) : Option Id := do
  let b ← unhex s.utf8
  if h : b.length = 16 then pure ⟨b.toArray, by simpa using h⟩ else none

namespace Config

/-- One rule: the permission of the address, or the fallback so far. -/
def rule (id : Id) (fallback : Option Permission) :
    String × Permission → Except Permission (Option Permission)
  | (key, value) =>
    if key = "others" then .ok (fallback.orElse fun _ => some value)
    else if address key = some id then .error value
    else .ok fallback

/-- The first rule for the address counts; `others` is the fallback. -/
def permission (config : Config) (id : Id) : Permission :=
  match config.permits.flatten.foldlM (rule id) none with
  | .error value => value
  | .ok fallback => fallback.getD .deny

end Config

/-! ### The service -/

/-- `FileResourceCompletion`: a file that has arrived on a Link. -/
structure FileResourceCompletion where
  linkId : ConnectionId
  resourceHash : TransferId
  file : Bytes
  dataSize : Nat
  metadata : Option Bytes
  deriving DecidableEq

/-- `RequestOutcome`. -/
inductive RequestOutcome where
  | reply (bytes : Bytes)
  | replyWithFile (ack file : Bytes)
  deriving DecidableEq

/-- `Service`: both engines over one export, the version that each Link has chosen, and the files
that have arrived and are not yet delivered. -/
structure Service where
  engine : Server
  v2 : Option V2.Server
  versions : ConnectionId → Option UInt8
  incoming : List FileResourceCompletion
  identities : ConnectionId → Option Id
  config : Config

/-- `REQUEST_PATH`. -/
def requestPath : String := "/rrsync/v1"

/-- `v2::REQUEST_PATH`. -/
def V2.requestPath : String := "/rrsync/v2"

/-- `is_v2`. -/
def isV2 [TruncatedHash] (path : Id) : Bool := path = truncatedHash V2.requestPath.utf8

/-- `serve_on` before its first event. -/
def Service.new (root : Root) (cache : Option Cache) (config : Config) : Service :=
  ⟨⟨root, none⟩, cache.map (V2.Server.new root), fun _ => none, [], fun _ => none, config⟩

/-- An answer of the first engine as bytes, with the file that follows it. -/
def ServerReply.outcome : ServerReply → Except Error RequestOutcome
  | .message m => do
    let bytes ← m.encode
    pure (.reply bytes)
  | .file m data => do
    let ack ← m.encode
    pure (.replyWithFile ack data)

/-- An answer of the second engine as bytes, with the file that follows it. -/
def V2.ServerReply.outcome : V2.ServerReply → Except Error RequestOutcome
  | .message m => do
    let bytes ← m.encode
    pure (.reply bytes)
  | .file m data => do
    let ack ← m.encode
    pure (.replyWithFile ack data)

/-- What an engine is given of a file that has arrived. -/
def FileResourceCompletion.received (file : FileResourceCompletion) : ReceivedFile :=
  ⟨file.resourceHash, file.file, file.dataSize, file.metadata.isSome⟩

/-- The `expect` of the request handler. -/
def expectBounded : Except Error Bytes → Except Error RequestOutcome
  | .ok bytes => pure (.reply bytes)
  | .error _ => throw (.panic "bounded error")

namespace Service

variable (service : Service)

/-- One turn of the loop of `receive`. -/
def receiveFile (file : FileResourceCompletion) : Except Error Service :=
  if service.versions file.linkId = some 2 then
    match service.v2 with
    | some engine => do
      let engine ← engine.receive file.linkId file.received
      pure { service with v2 := some engine }
    | none => pure service
  else do
    let engine ← service.engine.receive file.linkId file.received
    pure { service with engine }

/-- Deliver the files that have arrived. -/
def receive : Except Error Service := do
  let service ← service.incoming.foldlM receiveFile service
  pure { service with incoming := [] }

/-- `Service::touch`. -/
def touch (link : ConnectionId) (now : Instant) : Service :=
  { service with engine := service.engine.touch link now
                 v2 := service.v2.map fun engine => engine.touch link now }

/-- `Service::accepts_file`: the file is wanted by one of the engines. -/
def acceptsFile (link : ConnectionId) (size : Nat) (metadata : Bool) : Except Error Bool := do
  if ← service.engine.acceptsFile link size metadata then pure true
  else match service.v2 with
    | some engine => engine.acceptsFile link size metadata
    | none => pure false

section
variable [Sha256]

/-- `Service::disconnect`: the Link is closed for both engines. -/
def disconnect {ε : Type} (link : ConnectionId) : Prog (FsSig.vol Volume) ε Service := do
  let engine := service.engine.disconnect link
  match service.v2 with
  | some v2 => do
    let v2 ← v2.disconnect link
    pure { service with engine, v2 := some v2 }
  | none => pure { service with engine }

/-- `Service::expire`. -/
def expire {ε : Type} (now : Instant) (timeout : Nat) :
    Prog (FsSig.vol Volume) ε (Option ConnectionId × Service) := do
  let (v1, engine) := service.engine.expire now timeout
  match service.v2 with
  | some v2 => do
    let (expired, v2) ← v2.expire now timeout
    pure (v1.or expired, { service with engine, v2 := some v2 })
  | none => pure (v1, { service with engine })

/-- The end of `request` for a Link with the second version. -/
def requestV2 (now : Instant) (link : ConnectionId) (peer : Id) (permission : Permission)
    (data : Bytes) : Prog (FsSig.vol Volume) Empty (Except Error RequestOutcome × Service) :=
  if service.engine.active then pure (.error .busy, service)
  else match service.v2 with
    | none =>
      pure (.error (.config "v2 is disabled; configure resume on the server"), service)
    | some engine =>
      match V2.Message.decode data with
      | .error e => pure (.error e, service)
      | .ok request => do
        let (reply, engine) ← engine.handle now link peer permission request
        pure (reply.bind V2.ServerReply.outcome, { service with v2 := some engine })

/-- The end of `request` for a Link with the first version. -/
def requestV1 (now : Instant) (link : ConnectionId) (permission : Permission) (data : Bytes) :
    Prog (FsSig.vol Volume) Empty (Except Error RequestOutcome × Service) :=
  if service.v2.any (·.active) then pure (.error .busy, service)
  else match Message.decode data with
    | .error e => pure (.error e, service)
    | .ok request => do
      let (reply, engine) ←
        (service.engine.handle now link permission request).atVol Volume.tree
      pure (reply.bind ServerReply.outcome, { service with engine })

variable [TruncatedHash]

/-- What a failed request has done to the service stays. -/
def request (now : Instant) (link : ConnectionId) (path : Id) (data : Bytes) :
    Prog (FsSig.vol Volume) Empty (Except Error RequestOutcome × Service) :=
  let v2 := isV2 path
  if !v2 && path ≠ truncatedHash requestPath.utf8 then
    pure (.error (.protocol "unknown request path"), service)
  else match service.identities link with
    | none => pure (.error .permissionDenied, service)
    | some peer =>
      let permission := service.config.permission peer
      -- nobody who is denied gets as far as an engine
      if permission = .deny then pure (.error .permissionDenied, service)
      else
        let version : UInt8 := if v2 then 2 else 1
        -- a Link keeps the version of its first request
        if (service.versions link).any (· ≠ version) then
          pure (.error (.protocol "cannot change protocol on a Link"), service)
        else
          let service :=
            { service with versions := Function.update service.versions link (some version) }
          match service.receive with
          | .error e => pure (.error e, service)
          | .ok service =>
            if v2 then service.requestV2 now link peer permission data
            else service.requestV1 now link permission data

/-- The request handler: the result of `request`, and the answer. -/
def handler (now : Instant) (link : ConnectionId) (path : Id) (data : Bytes) :
    Prog (FsSig.vol Volume) Empty
      ((Except Error RequestOutcome × Except Error RequestOutcome) × Service) := do
  let (result, service) ← service.request now link path data
  match result with
  | .ok reply => pure ((.ok reply, .ok reply), service)
  | .error e => do
    let service ← service.disconnect link
    let error := Message.ofError e
    let bytes := if isV2 path then (V2.Message.common error).encode else error.encode
    pure ((.error e, expectBounded bytes), service)

end

end Service

/-! ### Runs of the service -/

namespace Service

/-- What can happen to the service. -/
inductive Input where
  | request (now : Instant) (link : ConnectionId) (path : Id) (data : Bytes)
  /-- A file has arrived. -/
  | complete (file : FileResourceCompletion)
  /-- Packets and the maintenance deliver the files that have arrived. -/
  | receive
  | touch (link : ConnectionId) (now : Instant)
  | expire (now : Instant) (timeout : Nat)
  | closed (link : ConnectionId)
  /-- A peer has identified itself on the Link, or the manager has forgotten the Link. -/
  | identify (link : ConnectionId) (peer : Option Id)

/-- What a step of the service returns. -/
inductive Output where
  /-- What `request` returned, and the answer of the handler. -/
  | reply (result answer : Except Error RequestOutcome)
  | received (result : Except Error Unit)
  | expired (connection : Option ConnectionId)
  | none
  deriving DecidableEq

variable [Sha256] [TruncatedHash]

/-- One step of the service. -/
def step (st : Service × Disks) : Input → Output × (Service × Disks)
  | .request now link path data =>
    let r := (st.1.handler now link path data).runOk execVol st.2
    (.reply r.1.1.1 r.1.1.2, r.1.2, r.2)
  | .complete file => (.none, { st.1 with incoming := st.1.incoming ++ [file] }, st.2)
  | .receive =>
    match st.1.receive with
    | .ok service => (.received (.ok ()), service, st.2)
    | .error e => (.received (.error e), st)
  | .touch link now => (.none, st.1.touch link now, st.2)
  | .expire now timeout =>
    let r := (st.1.expire now timeout).runOk execVol st.2
    (.expired r.1.1, r.1.2, r.2)
  | .closed link =>
    let r := (st.1.disconnect link).runOk execVol st.2
    (.none, { r.1 with versions := Function.update r.1.versions link Option.none }, r.2)
  | .identify link peer =>
    (.none, { st.1 with identities := Function.update st.1.identities link peer }, st.2)

end Service

end RrSync

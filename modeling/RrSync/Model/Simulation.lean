import RrSync.Model.ClientV2

/-!
# `RrSync.Model.Simulation`: the transports of the tests

`SimulatedTransport` of `tests/support/v2.rs` and of `tests/support/mod.rs`, without their faults:
each delivers the encoded messages and the files of a client to a server and its disks. No time
passes.
-/

set_option autoImplicit false

namespace RrSync.V2

open Lib

/-- `SimulatedTransport` of `tests/support/v2.rs`: a server with its disks, and what is on the
way. -/
structure SimulatedTransport where
  server : Server
  disks : Disks
  connection : ConnectionId
  peer : Id
  permission : Permission
  uploads : Nat
  download : Option Bytes

namespace SimulatedTransport

section
variable [Sha256] (link : SimulatedTransport)

/-- The connection of the client is lost for the server. -/
def disconnect : SimulatedTransport :=
  let r := (link.server.disconnect link.connection : Prog _ Empty _).runOk execVol link.disks
  { link with server := r.1, disks := r.2 }

/-- A response that cannot be encoded ends the session. -/
def respond (message : Message) : Except Error Bytes × SimulatedTransport :=
  match message.encode with
  | .ok response => (.ok response, link)
  | .error e => (.error e, link.disconnect)

/-- A request is decoded, handled and answered. An error is answered with an ERROR message and ends
the session. -/
def dispatch (payload : Bytes) : Except Error Bytes × SimulatedTransport :=
  match Message.decode payload with
  | .error e => link.disconnect.respond (.common (.ofError e))
  | .ok message =>
    let r := (link.server.handle 0 link.connection link.peer link.permission message).runOk execVol
      link.disks
    let link := { link with server := r.1.2, disks := r.2 }
    match r.1.1 with
    | .ok (.message message) => link.respond message
    | .ok (.file message file) => respond { link with download := some file } message
    | .error e => link.disconnect.respond (.common (.ofError e))

/-- The transfer id of the upload of this number. -/
def uploadId (n : Nat) : TransferId :=
  Vector.ofFn fun i => (toBytes 8 n ++ List.replicate 24 0).getD i 0

/-- The error of an upload that ends too early. -/
def lost : Error := .connection "simulated connection interrupted"

/-- An upload: the file is delivered to the server when it has the size that was announced. -/
def send (file : Bytes) (size : Nat) : Except Error TransferId × SimulatedTransport :=
  let link := { link with uploads := link.uploads + 1 }
  let file := file.take size
  if file.length ≠ size then (.error lost, link)
  else
    let transferId := uploadId link.uploads
    match link.server.receive link.connection ⟨transferId, file, size, false⟩ with
    | .ok server => (.ok transferId, { link with server })
    | .error e => (.error e, link)

/-- A download: the file that the server has answered with, within the limit of the client. -/
def take (maxSize : Nat) : Except Error ReceivedFile × SimulatedTransport :=
  match link.download with
  | none => (.error (.protocol "no simulated file pending"), link)
  | some file =>
    let link := { link with download := none }
    if maxSize < file.length then (.error (.protocol "simulated file exceeds bound"), link)
    else (.ok ⟨Vector.replicate 32 0, file, file.length, false⟩, link)

end

/-- What the transport does with the calls of a client. -/
def serve [Sha256] : Prog.Handler LinkSig SimulatedTransport
  | .request payload, link => link.dispatch payload
  | .sendFile file size, link => link.send file size
  | .receiveFile maxSize, link => link.take maxSize
  | .close, link => (.ok (), { link.disconnect with download := none })

end SimulatedTransport

/-- A client on its disks and a server on its own, with the transport between them. -/
def execBoth [Sha256] : Prog.Handler ((FsSig.vol Volume).sum LinkSig) (Disks × SimulatedTransport) :=
  execVol.sum SimulatedTransport.serve

end RrSync.V2

namespace RrSync

open Lib

/-! ### The first protocol -/

/-- `SimulatedTransport` of `tests/support/mod.rs`. -/
structure SimulatedTransport where
  server : Server
  disk : Disk
  connection : ConnectionId
  permission : Permission
  uploads : Nat
  download : Option Bytes

namespace SimulatedTransport

section
variable [Sha256] (link : SimulatedTransport)

omit [Sha256] in
/-- The connection of the client is lost for the server. -/
def disconnect : SimulatedTransport :=
  { link with server := link.server.disconnect link.connection }

omit [Sha256] in
/-- A response that cannot be encoded ends the session. -/
def respond (message : Message) : Except Error Bytes × SimulatedTransport :=
  match message.encode with
  | .ok response => (.ok response, link)
  | .error e => (.error e, link.disconnect)

/-- A request is decoded, handled and answered, as in the second protocol. -/
def dispatch (payload : Bytes) : Except Error Bytes × SimulatedTransport :=
  match Message.decode payload with
  | .error e => link.disconnect.respond (.ofError e)
  | .ok message =>
    let r := (link.server.handle 0 link.connection link.permission message).runOk exec link.disk
    let link := { link with server := r.1.2, disk := r.2 }
    match r.1.1 with
    | .ok (.message message) => link.respond message
    | .ok (.file message file) => respond { link with download := some file } message
    | .error e => link.disconnect.respond (.ofError e)

/-- The error of an upload that ends too early. -/
def lost : Error := .transport "simulated connection interrupted"

omit [Sha256] in
/-- The uploads are numbered as in the other transport. -/
def send (file : Bytes) (size : Nat) : Except Error TransferId × SimulatedTransport :=
  let link := { link with uploads := link.uploads + 1 }
  let file := file.take size
  if file.length ≠ size then (.error lost, link)
  else
    let transferId := V2.SimulatedTransport.uploadId link.uploads
    match link.server.receive link.connection ⟨transferId, file, size, false⟩ with
    | .ok server => (.ok transferId, { link with server })
    | .error e => (.error e, link)

omit [Sha256] in
/-- A download, within the limit of the client. -/
def take (maxSize : Nat) : Except Error ReceivedFile × SimulatedTransport :=
  match link.download with
  | none => (.error (.protocol "no simulated file pending"), link)
  | some file =>
    let link := { link with download := none }
    if maxSize < file.length then (.error (.protocol "simulated file exceeds bound"), link)
    else (.ok ⟨Vector.replicate 32 0, file, file.length, false⟩, link)

end

/-- What the transport does with the calls of a client. -/
def serve [Sha256] : Prog.Handler LinkSig SimulatedTransport
  | .request payload, link => link.dispatch payload
  | .sendFile file size, link => link.send file size
  | .receiveFile maxSize, link => link.take maxSize
  | .close, link => (.ok (), { link.disconnect with download := none })

end SimulatedTransport

/-- A client on its disk and a server on its own, with the transport between them. -/
def execBoth [Sha256] : Prog.Handler (FsSig.sum LinkSig) (Disk × SimulatedTransport) :=
  exec.sum SimulatedTransport.serve

end RrSync

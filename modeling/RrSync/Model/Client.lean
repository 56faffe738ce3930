import RrSync.Lib.Sum
import RrSync.Model.Engine

/-!
# `RrSync.Model.Client`: the client of `engine.rs`

`synchronize` as a program over the disk of the client and a transport. Nothing is said here
of what a transport does: each call has a reply, which may be an error. The deadline of a
call belongs to the transport, and showing the plan is left out.
-/

set_option autoImplicit false

namespace RrSync

open Lib

/-! ### The transport -/

/-- The calls of a `SyncTransport`. -/
inductive LinkCall where
  | request (payload : Bytes)
  | sendFile (file : Bytes) (size : Nat)
  | receiveFile (maxSize : Nat)
  | close

/-- What the transport returns for each call. -/
def LinkCall.Reply : LinkCall → Type
  | .request _ => Except Error Bytes
  | .sendFile _ _ => Except Error TransferId
  | .receiveFile _ => Except Error ReceivedFile
  | .close => Except Error Unit

/-- The calls of a client to its transport. -/
abbrev LinkSig : Sig := ⟨LinkCall, LinkCall.Reply⟩

section
variable {S : Sig}

/-- `SyncTransport::request`. -/
def linkRequest (payload : Bytes) : Prog (S.sum LinkSig) Error Bytes :=
  .call (.inr (.request payload)) .done

/-- `SyncTransport::send_file`. -/
def sendFile (file : Bytes) (size : Nat) : Prog (S.sum LinkSig) Error TransferId :=
  .call (.inr (.sendFile file size)) .done

/-- `SyncTransport::receive_file`. -/
def receiveFile (maxSize : Nat) : Prog (S.sum LinkSig) Error ReceivedFile :=
  .call (.inr (.receiveFile maxSize)) .done

/-- `link.close()`, whatever it returns. -/
def closeLink {ε : Type} : Prog (S.sum LinkSig) ε Unit :=
  .call (.inr .close) fun _ => .done (.ok ())

end

/-! ### The client -/

/-- What the client is asked to do. -/
structure SyncRequest where
  push : Bool
  path : String
  options : Options

/-- Programs on the disk of the client and the transport. -/
abbrev ClientM := Prog (FsSig.sum LinkSig) Error

/-- A program on the disk of the client. -/
def onDisk {α : Type} (m : FsM α) : ClientM α := m.left

namespace Client

/-- `request`: a message is sent, and an ERROR that comes back is an error here. -/
def request (message : Message) : ClientM Message := do
  let bytes ← (message.encode : Except Error Bytes)
  let response ← linkRequest bytes
  let result ← (Message.decode response : Except Error Message)
  match result with
  | .error code text =>
    throw (.protocol ("remote error " ++ toString code.toNat ++ ": " ++ text))
  | result => pure result

/-- `ok`: the answer must be OK. -/
def ok (message : Message) : ClientM Unit := do
  if (← request message) ≠ .ok then throw (.protocol "expected OK")

section
variable [Sha256] (root : Root) (scan : Scan)

omit [Sha256] in
/-- The body of the loop over the files of the plan, in a push. -/
def pushFile (source : Manifest) (i : Nat) : ClientM Unit := do
  let e ← (index source.entries i "source.entries" : Except Error Entry)
  let stamp ← (scan.stamp e.path : Except Error Stamp)
  let file ← onDisk (snapshot root e.path stamp)
  ok (.begin (.ofNat i))
  let resource ← sendFile file e.size
  onDisk (ensureUnchanged root e.path stamp)
  ok (.commit (.ofNat i) resource)

/-- The body of the loop over the files of the plan, in a pull. -/
def pullFile (source destination : Manifest) (plan : Plan) (i : Nat) : ClientM Unit := do
  let e ← (index source.entries i "source.entries" : Except Error Entry)
  ok (.get (.ofNat i))
  let received ← receiveFile e.size
  if received.size ≠ e.size || received.hasMetadata then
    throw (.protocol "unexpected file transfer")
  ok (.verified (.ofNat i))
  onDisk (install root e destination plan received.file)

omit [Sha256] in
/-- What a push does when the server has sent its manifest. -/
def push (options : Options) (remote : Manifest) : ClientM Unit := do
  let plan ← (plan scan.manifest remote options : Except Error Plan)
  if options.dryRun then ok .finish
  else do
    plan.files.forM (pushFile root scan scan.manifest)
    onDisk (checkSource root scan)
    ok .finish

/-- What a pull does when the server has sent its manifest. -/
def pull (options : Options) (remote : Manifest) : ClientM Unit := do
  let plan ← (plan remote scan.manifest options : Except Error Plan)
  if options.dryRun then ok .finish
  else do
    onDisk (prepare root remote plan)
    plan.files.forM (pullFile root remote scan.manifest plan)
    ok .finish
    onDisk (finish root remote plan)

/-- `synchronize_inner`. The two directions share no step but the first. -/
def synchronizeInner (job : SyncRequest) : ClientM Unit := do
  match ← request (.start job.push job.options job.path scan.manifest) with
  | .manifest remote =>
    if job.push then push root scan job.options remote else pull root scan job.options remote
  | _ => throw (.protocol "expected manifest")

/-- A lost close cannot undo a successful FINISH; preserve the operation result. -/
def synchronize (job : SyncRequest) : ClientM Unit := do
  let result ← (synchronizeInner root scan job).attempt
  closeLink
  result

end

end Client

end RrSync

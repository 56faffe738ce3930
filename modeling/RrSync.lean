import RrSync.Lib.Cost
import RrSync.Lib.Except
import RrSync.Lib.Machine
import RrSync.Lib.Prog
import RrSync.Lib.Reader
import RrSync.Lib.SepPath
import RrSync.Lib.Strategy
import RrSync.Lib.Strict
import RrSync.Lib.Sum
import RrSync.Lib.Timed
import RrSync.Model.Basic
import RrSync.Model.Chunks
import RrSync.Model.Client
import RrSync.Model.ClientV2
import RrSync.Model.Disk
import RrSync.Model.Engine
import RrSync.Model.EngineV2
import RrSync.Model.Fs
import RrSync.Model.Protocol
import RrSync.Model.ProtocolV2
import RrSync.Model.Reconnect
import RrSync.Model.Run
import RrSync.Model.Service
import RrSync.Model.Simulation
import RrSync.Model.Sync
import RrSync.Proofs.Accepted
import RrSync.Proofs.Apart
import RrSync.Proofs.Arrival
import RrSync.Proofs.Atomic
import RrSync.Proofs.Authority
import RrSync.Proofs.AuthorityV2
import RrSync.Proofs.CacheCalls
import RrSync.Proofs.Codec
import RrSync.Proofs.Completion
import RrSync.Proofs.Confined
import RrSync.Proofs.Convergence
import RrSync.Proofs.Delivery
import RrSync.Proofs.Disk
import RrSync.Proofs.Downloads
import RrSync.Proofs.Effects
import RrSync.Proofs.Engine
import RrSync.Proofs.EngineV2
import RrSync.Proofs.Expiry
import RrSync.Proofs.Faultless
import RrSync.Proofs.Folders
import RrSync.Proofs.Fs
import RrSync.Proofs.Geometry
import RrSync.Proofs.Guarded
import RrSync.Proofs.Hostile
import RrSync.Proofs.Install
import RrSync.Proofs.Keys
import RrSync.Proofs.Layout
import RrSync.Proofs.Manifest
import RrSync.Proofs.Marks
import RrSync.Proofs.Moments
import RrSync.Proofs.Names
import RrSync.Proofs.NoPanic
import RrSync.Proofs.Ops
import RrSync.Proofs.Outcome
import RrSync.Proofs.Ownership
import RrSync.Proofs.Panics
import RrSync.Proofs.Partition
import RrSync.Proofs.Payload
import RrSync.Proofs.Phases
import RrSync.Proofs.Plan
import RrSync.Proofs.Planned
import RrSync.Proofs.Prefixes
import RrSync.Proofs.Printed
import RrSync.Proofs.Protocol
import RrSync.Proofs.ProtocolV2
import RrSync.Proofs.Reached
import RrSync.Proofs.Reading
import RrSync.Proofs.Receive
import RrSync.Proofs.Reconnect
import RrSync.Proofs.Recovery
import RrSync.Proofs.Refinement
import RrSync.Proofs.RefinementV2
import RrSync.Proofs.Removal
import RrSync.Proofs.Replay
import RrSync.Proofs.Requests
import RrSync.Proofs.RequestsV2
import RrSync.Proofs.Rerun
import RrSync.Proofs.Rescan
import RrSync.Proofs.Reserved
import RrSync.Proofs.Rounds
import RrSync.Proofs.Run
import RrSync.Proofs.Scan
import RrSync.Proofs.Scannable
import RrSync.Proofs.Service
import RrSync.Proofs.Serving
import RrSync.Proofs.Sessions
import RrSync.Proofs.Settled
import RrSync.Proofs.Slots
import RrSync.Proofs.Splitting
import RrSync.Proofs.Store
import RrSync.Proofs.Strangers
import RrSync.Proofs.Survival
import RrSync.Proofs.Tidy
import RrSync.Proofs.Traffic
import RrSync.Proofs.Transfers
import RrSync.Proofs.Uploads
import RrSync.Proofs.Zones
import RrSync.Spec.Conversation
import RrSync.Spec.Goal
import RrSync.Spec.View

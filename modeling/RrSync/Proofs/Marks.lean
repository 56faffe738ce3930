import RrSync.Proofs.Requests
import RrSync.Proofs.Install

/-!
# `RrSync.Proofs.Marks`: what a request writes to the journal

The steps of a synchronization write nothing to the journal themselves, so a request writes
the marks the server puts in front of them. `Session.Logged` lists what a request of the
owner may write, and `handle_logged` says that no other request writes anything.
-/

set_option autoImplicit false

namespace RrSync

open Lib

/-- A call that writes nothing to the journal. -/
def FsCall.Unmarked (c : FsCall) : Prop := c.marks = []

/-- A call that reads leaves no mark. -/
theorem FsCall.Reads.unmarked {c : FsCall} (h : c.Reads) : c.Unmarked := by
  cases c <;> first | rfl | exact h.elim

/-- Neither does one that removes. -/
theorem FsCall.Clears.unmarked {c : FsCall} (h : c.Clears) : c.Unmarked := by
  cases c <;> first | rfl | exact h.elim

section
variable {root : Root} {path : String}

/-- The loop of `mkdir` leaves no mark. -/
theorem unmarked_mkdirFrom {parent : Path} {names : List Path} :
    Calls FsCall.Unmarked (Root.mkdirFrom parent names) := by
  induction names generalizing parent with
  | nil => trivial
  | cons name names ih =>
    have hrest : Calls FsCall.Unmarked (do
        ok (← sys (.openDir (join parent name)))
        Root.mkdirFrom (join parent name) names) :=
      calls_sys rfl fun _ => Prog.issues_bind (calls_ok _) fun _ => ih
    refine calls_sys rfl fun _ => Prog.issues_bind (calls_ok _) fun _ => calls_sys rfl fun r => ?_
    split
    · exact calls_sys rfl fun _ => Prog.issues_bind (calls_ok _) fun _ => hrest
    · exact hrest
    · trivial

/-- Neither does `mkdir`. -/
theorem unmarked_mkdir : Calls FsCall.Unmarked (root.mkdir path) :=
  calls_lift fun _ _ => unmarked_mkdirFrom

/-- Neither does `set_mtime`. -/
theorem unmarked_setMtime {sec : Int64} {ns : UInt32} :
    Calls FsCall.Unmarked (root.setMtime path sec ns) :=
  calls_lift fun _ _ => calls_sys rfl fun _ => Prog.issues_bind (calls_ok _) fun _ =>
    calls_lift fun _ _ => calls_sys rfl fun _ => calls_ok _

/-- Neither does dropping a staged file. -/
theorem unmarked_drop {staged : Staged} : Calls FsCall.Unmarked staged.drop :=
  calls_sys rfl fun _ => trivial

/-- Neither does a commit. -/
theorem unmarked_commit {staged : Staged} : Calls FsCall.Unmarked staged.commit :=
  calls_sys rfl fun _ => Prog.issues_bind (calls_ok _) fun _ => calls_sys rfl fun _ => calls_ok _

/-- Neither does the loop that fills a staged file. -/
theorem unmarked_stageLoop {size : Nat} {seen : Bytes} {reader : List Bytes} :
    Calls FsCall.Unmarked (stageLoop path size seen reader) := by
  induction reader generalizing seen with
  | nil => trivial
  | cons block rest ih =>
    exact calls_unless fun _ => calls_sys rfl fun _ => Prog.issues_bind (calls_ok _) fun _ => ih

/-- Neither does `stage_inner`. -/
theorem unmarked_stageInner [Sha256] {reader : List Bytes} {size : Nat} {hash : Option Hash}
    {mtime : Option (Int64 × UInt32)} :
    Calls FsCall.Unmarked (root.stageInner path reader size hash mtime) := by
  have hstamp : Calls FsCall.Unmarked (stampTemp mtime) := by
    cases mtime with
    | none => trivial
    | some t => exact calls_lift fun _ _ => calls_sys rfl fun _ => calls_ok _
  have hfill : Calls FsCall.Unmarked (fillTemp path reader size hash mtime) :=
    Prog.issues_bind unmarked_stageLoop fun _ => calls_unless fun _ => calls_unless fun _ =>
      Prog.issues_bind hstamp fun _ => calls_sys rfl fun _ => calls_ok _
  exact Prog.issues_bind (clears_parent.mono fun _ h => h.unmarked) fun _ => calls_sys rfl fun _ =>
    Prog.issues_bind (calls_ok _) fun _ =>
      Prog.issues_bind (Prog.issues_onError hfill unmarked_drop) fun _ => trivial

variable {source destination : Manifest} {plan : Plan}

/-- Neither does `check_entry`. -/
theorem unmarked_checkEntry {e : Entry} : Calls FsCall.Unmarked (checkEntry root e) :=
  calls_checkEntry.mono fun _ h => h.unmarked

/-- `prepare` leaves no mark of its own: the session marks it. -/
theorem unmarked_prepare : Calls FsCall.Unmarked (prepare root source plan) :=
  Prog.issues_bind unmarked_mkdir fun _ => Prog.issues_forM fun _ _ => calls_lift fun _ _ =>
    Prog.issues_bind (clears_clearConflict.mono fun _ h => h.unmarked) fun _ => unmarked_mkdir

/-- Neither does `install`. -/
theorem unmarked_install [Sha256] {e : Entry} {file : Bytes} :
    Calls FsCall.Unmarked (install root e destination plan file) := by
  refine Prog.issues_bind unmarked_stageInner fun staged =>
    Prog.issues_ensuring ?_ unmarked_drop
  have h : Calls FsCall.Unmarked (do
      clearConflict root plan e.path
      staged.commit) := Prog.issues_bind (clears_clearConflict.mono fun _ h => h.unmarked) fun _ => unmarked_commit
  split
  · exact Prog.issues_bind unmarked_checkEntry fun _ => h
  · exact Prog.issues_bind (calls_exists.mono fun _ h => h.unmarked) fun _ => calls_unless fun _ => h

/-- Neither does `finish`. -/
theorem unmarked_finish : Calls FsCall.Unmarked (finish root source plan) :=
  Prog.issues_bind (Prog.issues_forM fun _ _ => unmarked_checkEntry) fun _ =>
    Prog.issues_bind (Prog.issues_forM fun _ _ =>
      clears_remove.mono fun _ h => h.unmarked) fun _ =>
      Prog.issues_forM fun _ _ => calls_lift fun _ _ => unmarked_setMtime

end

/-! ### The journal of a request -/

/-- The marks a program writes satisfy `M`. -/
abbrev Writes {α : Type} (M : List Mark → Prop) (m : FsM α) : Prop :=
  Prog.Logs (S := FsSig) FsCall.marks M m

section
variable {α β : Type} {M : List Mark → Prop} {k : β → FsM α}

/-- A program without marks writes an empty journal. -/
theorem writes_of_unmarked {m : FsM α} (hm : Calls FsCall.Unmarked m) (h : M []) : Writes M m :=
  Prog.logs_of_issues hm h

/-- What follows a computed value. -/
theorem writes_lift {x : Except Error β} (h : M []) (hk : ∀ b, x = .ok b → Writes M (k b)) :
    Writes M (liftM x >>= k) := by
  cases x with
  | ok b => exact hk b rfl
  | error e => exact h

/-- A check: when it fails, nothing is written. -/
theorem writes_unless {c : Prop} [Decidable c] {e : Error} {k : PUnit → FsM α} {m : FsM α}
    (h : M []) (hm : ¬ c → Writes M m) : Writes M (if c then throw e >>= k else m) := by
  split
  · exact h
  · next hc => exact hm hc

/-- A program that writes nothing, and what comes after it. -/
theorem writes_after {m : FsM β} (hm : Calls FsCall.Unmarked m) (h : M [])
    (hk : ∀ b, Writes M (k b)) : Writes M (m >>= k) := by
  refine Prog.logs_bind (writes_of_unmarked hm (M := (· = [])) rfl) ?_ ?_
  · rintro _ rfl
    exact h
  · rintro b _ rfl
    exact hk b

/-- A mark, and what comes after it. -/
theorem writes_mark {m : Mark} {p : FsM α} (hp : Writes (fun ms => M (m :: ms)) p)
    (h : M [m]) : Writes M (mark m >>= fun _ => p) := by
  refine Prog.logs_bind (L := (· = [m])) (fun _ => rfl) ?_ ?_
  · rintro _ rfl
    exact h
  · rintro _ _ rfl
    exact hp

end

namespace Session

variable {s : Session}

/-- What a request of the owner may write. -/
inductive Logged (s : Session) : Message → List Mark → Prop
  | nothing {request : Message} : Logged s request []
  | prepare {request : Message} (admitted : s.Admits request)
      (early : ∀ i resource, request ≠ .commit i resource) (push : s.push = true)
      (real : s.options.dryRun = false) (fresh : s.prepared = false) :
      Logged s request [.prepare]
  | install {i : UInt32} {resource : TransferId} {f : ReceivedFile}
      (admitted : s.Admits (.commit i resource)) (real : s.options.dryRun = false)
      (received : s.received = some f) :
      Logged s (.commit i resource) [.install i.toNat f.file]
  | finish {ms : List Mark} (admitted : s.Admits .finish) (push : s.push = true)
      (real : s.options.dryRun = false) (before : ms = if s.prepared then [] else [.prepare]) :
      Logged s .finish (ms ++ [.finish])

/-- The directories of a plan are made at most once, and marked then. -/
theorem writes_ready :
    Writes (fun ms => ms = if s.prepared then [] else [.prepare]) s.ready := by
  unfold ready
  split
  · exact rfl
  · refine writes_mark (writes_after unmarked_prepare rfl fun _ => ?_) rfl
    exact rfl

/-- What `ready` writes before a request that is admitted. -/
theorem Logged.ready {request : Message} {ms : List Mark} (ha : s.Admits request)
    (early : ∀ i resource, request ≠ .commit i resource) (push : s.push = true) (real : s.options.dryRun = false)
    (h : ms = if s.prepared then [] else [.prepare]) : s.Logged request ms := by
  split at h
  · exact h ▸ .nothing
  · next hp => exact h ▸ .prepare ha early push real (by simpa using hp)

/-- What a request of the owner marks is what `Logged` says. -/
theorem serve_logged [Sha256] {request : Message}
    (hdry : s.options.dryRun = true → request = .finish) :
    Writes (s.Logged request) (s.serve request) := by
  have hd (hne : request ≠ .finish) : s.options.dryRun = false :=
    Bool.eq_false_iff.mpr fun hd => hne (hdry hd)
  -- A reply that comes after what has been written.
  have hreply {α : Type} {m : FsM α} {k : α → FsM (ServerReply × Option Session)}
      (hm : Writes (s.Logged request) m) (hk : ∀ a, Calls FsCall.Unmarked (k a)) :
      Writes (s.Logged request) (m >>= k) :=
    Prog.logs_bind hm (fun _ h => h) fun a ms h =>
      writes_of_unmarked (hk a) (by rwa [List.append_nil])
  cases request with
  | begin i =>
    refine hreply ?_ fun _ => trivial
    refine writes_lift .nothing fun _ hf => writes_unless .nothing fun hp => ?_
    have hf := requireFile_ok.mp hf
    have ha : s.Admits (.begin i) := ⟨hf, by simpa using hp⟩
    refine Prog.logs_bind writes_ready (fun _ h => .ready ha nofun hf.1 (hd nofun) h) fun _ ms h => ?_
    show s.Logged (.begin i) (ms ++ [])
    rw [List.append_nil]
    exact .ready ha nofun hf.1 (hd nofun) h
  | commit i resource =>
    refine hreply ?_ fun _ => trivial
    refine writes_lift .nothing fun _ hf => writes_unless .nothing fun hp => ?_
    have hf := requireFile_ok.mp hf
    split
    · exact .nothing
    · next f hr =>
      refine writes_lift .nothing fun e he => writes_unless .nothing fun hc => ?_
      simp only [ne_eq, Bool.or_eq_true, decide_eq_true_eq, not_or, Decidable.not_not,
        Bool.not_eq_true] at hc hp
      have ha : s.Admits (.commit i resource) :=
        ⟨hf, hp, f, e, hr, index_ok.mp he, hc.1.1, hc.1.2, hc.2⟩
      have hm : s.Logged (.commit i resource) [.install i.toNat f.file] :=
        .install ha (hd nofun) hr
      exact writes_mark (writes_after unmarked_install hm fun _ => hm) hm
  | get i =>
    refine writes_of_unmarked ?_ .nothing
    refine Prog.issues_bind ?_ fun _ => trivial
    exact calls_lift fun _ _ => calls_unless fun _ => calls_lift fun _ _ => calls_lift fun _ _ =>
      Prog.issues_bind (calls_snapshot.mono fun _ h => h.unmarked) fun _ => trivial
  | verified i =>
    refine writes_of_unmarked ?_ .nothing
    refine Prog.issues_bind ?_ fun _ => trivial
    exact calls_lift fun _ _ => calls_unless fun _ => calls_lift fun _ _ => calls_lift fun _ _ =>
      Prog.issues_bind (calls_ensureUnchanged.mono fun _ h => h.unmarked) fun _ => trivial
  | finish =>
    refine hreply ?_ fun _ => trivial
    unfold finish
    split
    · next hdry =>
      have hdry : s.options.dryRun = false := by simpa using hdry
      refine writes_unless .nothing fun hp => ?_
      simp only [Bool.or_eq_true, decide_eq_true_eq, not_or, Decidable.not_not, ne_eq,
        Option.not_isSome_iff_eq_none] at hp
      have ha : s.Admits .finish := fun _ => hp
      split
      · next hpush =>
        refine Prog.logs_bind writes_ready (fun _ h => .ready ha nofun hpush hdry h) fun s' ms h => ?_
        have hm : s.Logged .finish (ms ++ [.finish]) := .finish ha hpush hdry h
        exact writes_mark (writes_of_unmarked unmarked_finish hm) hm
      · exact writes_of_unmarked (calls_checkSource fun _ h => h.unmarked) .nothing
    · exact .nothing
  | _ => exact .nothing

end Session

namespace Server

variable {server : Server} {now : Instant} {connection : ConnectionId}
  {permission : Permission} [Sha256]

/-- A request writes nothing, or what a request of the owner of the session may write. -/
theorem handleInner_logged {request : Message} :
    Writes (fun ms => ms = [] ∨ ∃ s, server.session = some s ∧ s.connection = connection ∧
      Session.Logged { s with activity := now } request ms)
      (server.handleInner now connection permission request) := by
  refine writes_unless (.inl rfl) fun _ => ?_
  -- Only a session that serves leaves marks.
  have hrest : Writes (fun ms => ms = [] ∨ ∃ s, server.session = some s ∧
      s.connection = connection ∧ Session.Logged { s with activity := now } request ms)
      (server.inSession now connection request) := by
    unfold inSession
    split
    · exact .inl rfl
    · next s hs =>
      obtain ⟨hsession, howner⟩ := Option.filter_eq_some_iff.mp hs
      refine writes_unless (.inl rfl) fun hdry => ?_
      have hlogged := @Session.serve_logged ({ s with activity := now }) _ request
        fun hd => Decidable.not_not.mp fun h => hdry ⟨hd, h⟩
      refine Prog.logs_bind (hlogged.imp fun _ h =>
        .inr ⟨s, hsession, by simpa using howner, h⟩) (fun _ h => h) fun _ ms h => ?_
      rw [← List.append_nil ms] at h
      exact h
  cases request with
  | start push options path manifest =>
    exact writes_of_unmarked (calls_start fun _ h => h.unmarked) (.inl rfl)
  | _ => exact hrest

/-- Any other request marks nothing. -/
theorem handle_logged {request : Message} :
    Prog.Logs (S := FsSig) FsCall.marks (fun ms => ms = [] ∨ ∃ s, server.session = some s ∧
      s.connection = connection ∧ Session.Logged { s with activity := now } request ms)
      (server.handle now connection permission request) := by
  refine Prog.logs_bind (Prog.logs_attempt handleInner_logged) (fun _ h => h) fun r ms h => ?_
  rw [← List.append_nil ms] at h
  split <;> exact h

end Server

end RrSync

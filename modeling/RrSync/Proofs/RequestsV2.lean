import RrSync.Proofs.CacheCalls
import RrSync.Proofs.EngineV2

/-!
# `RrSync.Proofs.RequestsV2`: which calls a request of the second server makes

The counterpart of `Proofs.Requests`. On the cache a request makes the calls of the store. On
the tree of the export it only looks, or it makes the calls of `prepare`, `install` and
`finish` for a request of the owner. The rule is stated for any predicate of calls.
-/

set_option autoImplicit false

namespace RrSync

open Lib

/-- Every call that can occur in the program on the two volumes satisfies `P`. -/
abbrev VolCalls {ε α : Type} (P : Volume → FsCall → Prop) (m : Prog (FsSig.vol Volume) ε α) :
    Prop := Prog.Issues (S := FsSig.vol Volume) (fun c => P c.1 c.2) m

section
variable {P : Volume → FsCall → Prop} {α β : Type}

/-- The calls of a program on the tree. -/
theorem volCalls_onTree {m : FsM α} (hm : Calls (P .tree) m) : VolCalls P (onTree m) :=
  Prog.issues_atVol hm

/-- The calls of a program on the cache. -/
theorem volCalls_onCache {m : FsM α} (hm : Calls (P .cache) m) : VolCalls P (onCache m) :=
  Prog.issues_atVol hm

/-- What follows a computed value. -/
theorem volCalls_lift {x : Except Error β} {k : β → VolM α} (hk : ∀ b, x = .ok b → VolCalls P (k b)) :
    VolCalls P (liftM x >>= k) := by
  cases x with
  | ok b => exact hk b rfl
  | error e => trivial

/-- A check issues no call. -/
theorem volCalls_unless {c : Prop} [Decidable c] {e : Error} {k : PUnit → VolM α} {m : VolM α}
    (hm : ¬ c → VolCalls P m) : VolCalls P (if c then throw e >>= k else m) := by
  split
  · trivial
  · next hc => exact hm hc

end

namespace V2

/-- The calls of the steps of a synchronization that a request about a transfer may run. -/
structure Steps (P : FsCall → Prop) (s : Session) [Sha256] (request : Message) : Prop where
  prepare : s.push = true → s.options.dryRun = false → s.prepared = false →
    Calls P (do mark .prepare; RrSync.prepare s.root s.source s.plan)
  install : ∀ index i e hash file, request = .fileCommit index → s.push = true →
    s.options.dryRun = false → i ∈ s.plan.files → s.source.entries[i]? = some e →
    Calls P (do
      mark (.install i file)
      RrSync.install s.root { e with hash := some hash } s.destination s.plan file)

section
variable {P : Volume → FsCall → Prop} [Sha256] {s : Session} {state : Option Transfer}
  {cache : Cache} {peer : Id} {path : String}

/-- Opening a cache directory stays in the cache. -/
theorem calls_open {push : Bool} {e : Entry} {d : Description} :
    Calls FsCall.Rooted (Cache.open cache peer push path e d) := by
  refine calls_lift fun scope _ => ?_
  split
  · exact Store.rooted_openLimited
  · exact Store.rooted_openShared

/-- So does clearing it. -/
theorem rooted_clearCommitted {store : Store} : Calls FsCall.Rooted (clearCommitted store) := by
  refine Prog.issues_bind (Prog.issues_attempt Store.rooted_clear) fun r => ?_
  cases r <;> exact Store.rooted_drop

/-- The calls of a request of the owner: on the tree those of its steps, and any on the cache. -/
theorem calls_serve (hreads : ∀ v c, c.Reads → P v c) (hcache : ∀ c, c.Rooted → P .cache c)
    (hs : s.Coherent) (hstate : ∀ t ∈ state, t.Coherent s) (hreal : s.options.dryRun = false)
    {request : Message} (h : Steps (P .tree) s request) :
    VolCalls P (serve s state cache peer path request) := by
  -- Calls on the cache stay below it, and calls that look may be on either.
  have hstore {α : Type} {m : FsM α} (hm : Calls FsCall.Rooted m) : VolCalls P (onCache m) :=
    volCalls_onCache (hm.mono hcache)
  have hlook {α : Type} {m : FsM α} (hm : Calls FsCall.Reads m) : VolCalls P (onTree m) :=
    volCalls_onTree (hm.mono (hreads .tree))
  have hpeek {α : Type} {m : FsM α} (hm : Calls FsCall.Reads m) : VolCalls P (onCache m) :=
    volCalls_onCache (hm.mono (hreads .cache))
  have hpure {x : Except Error (ServerReply × Session × Option Transfer)} :
      VolCalls P (liftM x : VolM _) := by
    rw [Prog.lift_def]
    trivial
  cases request with
  | description index d =>
    exact volCalls_lift fun _ _ => volCalls_unless fun _ => volCalls_lift fun _ _ =>
      volCalls_lift fun _ _ => Prog.issues_bind (hstore calls_open) fun _ => trivial
  | describe index c =>
    exact volCalls_lift fun _ _ => volCalls_unless fun _ => volCalls_lift fun _ _ =>
      volCalls_lift fun _ _ => volCalls_lift fun _ _ =>
      Prog.issues_bind (hlook calls_snapshot) fun _ => volCalls_lift fun _ _ =>
      volCalls_lift fun _ _ => trivial
  | hashes index start page =>
    refine volCalls_lift fun t _ => ?_
    split
    · trivial
    · exact volCalls_unless fun _ => volCalls_lift fun _ _ =>
        Prog.issues_bind (hpeek Store.calls_missing) fun _ => trivial
  | hashesGet | chunkBegin | chunkGet | chunkVerified => exact hpure
  | chunkCommit index chunk resource =>
    refine volCalls_lift fun t _ => ?_
    split
    · trivial
    refine volCalls_unless fun _ => ?_
    split
    · trivial
    · exact volCalls_unless fun _ => volCalls_lift fun _ _ => volCalls_unless fun _ =>
        Prog.issues_bind (hstore Store.rooted_receive) fun _ => trivial
  | fileCommit index =>
    refine volCalls_lift fun t ht => ?_
    -- The transfer is that of the session.
    have hmem : t ∈ state := by
      have h := @fine_transfer state index
      rw [ht] at h
      exact h.1
    have hc := hstate t hmem
    split
    · trivial
    next store missing hp =>
    have hpush := hc.pushes hp
    have hfile := (hs.pending _ hc.file).1
    refine volCalls_lift fun _ _ => volCalls_unless fun _ =>
      Prog.issues_bind (hpeek Store.calls_assemble) fun file => ?_
    have hready : Prog.Returns (fun s' => s' = { s with prepared := true }) (onTree s.ready) :=
      (sound_onTree hs.sound_ready).returns fun _ h => h
    refine Prog.issues_bind_returns (volCalls_onTree (Session.calls_ready (h.prepare hpush hreal)))
      hready fun s' hs' => ?_
    subst hs'
    refine volCalls_lift fun e he => Prog.issues_bind (volCalls_onTree ?_) fun _ =>
      Prog.issues_bind (hstore rooted_clearCommitted) fun _ => trivial
    exact h.install index t.index e _ file rfl hpush hreal hfile (index_ok.mp he)
  | fileVerified index =>
    refine volCalls_lift fun t _ => ?_
    split
    · trivial
    · exact volCalls_lift fun _ _ => volCalls_unless fun _ => volCalls_lift fun _ _ =>
        volCalls_lift fun _ _ => Prog.issues_bind (hlook calls_ensureUnchanged) fun _ => trivial
  | _ => trivial

/-! ### All requests -/

/-- Dropping a transfer works in the cache. -/
theorem rooted_transferDrop {ε : Type} (hcache : ∀ c, c.Rooted → P .cache c) (t : Transfer) :
    VolCalls P (t.drop : Prog (FsSig.vol Volume) ε Unit) := by
  unfold Transfer.drop
  split
  · exact Prog.issues_atVol (Store.rooted_drop.mono hcache)
  · trivial

namespace Server

variable {server : Server} {now : Instant} {connection : ConnectionId} {permission : Permission}

/-- So does dropping a session. -/
theorem calls_forget {ε : Type} (hcache : ∀ c, c.Rooted → P .cache c) {base : RrSync.Server} :
    VolCalls P (server.forget base : Prog (FsSig.vol Volume) ε Server) := by
  unfold forget
  split
  · exact Prog.issues_bind (rooted_transferDrop hcache _) fun _ => trivial
  · trivial

/-- So does a lost connection. -/
theorem calls_disconnect {ε : Type} (hcache : ∀ c, c.Rooted → P .cache c) :
    VolCalls P (server.disconnect connection : Prog (FsSig.vol Volume) ε Server) := by
  unfold disconnect
  split
  · exact calls_forget hcache
  · trivial

/-- So does the maintenance. -/
theorem calls_expire {ε : Type} (hcache : ∀ c, c.Rooted → P .cache c) {timeout : Nat} :
    VolCalls P (server.expire now timeout : Prog (FsSig.vol Volume) ε _) := by
  unfold expire
  split
  · exact Prog.issues_bind (calls_forget hcache) fun _ => trivial
  · trivial

/-- The calls of a request: on the tree they only look, or they are those of the owner's
steps. -/
theorem calls_handleInner (hreads : ∀ v c, c.Reads → P v c) (hcache : ∀ c, c.Rooted → P .cache c)
    (hs : server.Coherent) {request : Message}
    (hserve : ∀ s, permission ≠ .deny → server.base.session = some s → s.connection = connection →
      (s.push = true → permission = .full) →
      Steps (P .tree) { s with activity := now } request)
    (hfinish : ∀ s, request = .common .finish → permission ≠ .deny →
      server.base.session = some s → s.connection = connection →
      (s.push = true → permission = .full) →
      Session.Steps (P .tree) { s with activity := now } .finish) :
    VolCalls P (server.handleInner now connection peer permission request) := by
  refine volCalls_unless fun hallowed => ?_
  -- The owner is served, with the permission that its session needs.
  have hrest (hstart : ∀ push options path manifest,
      request ≠ .common (.start push options path manifest)) : VolCalls P
      (server.inSession now connection peer permission request) := by
    unfold inSession
    split
    · trivial
    next s h =>
    obtain ⟨hactive, howner⟩ := Option.filter_eq_some_iff.mp h
    have howner : s.connection = connection := by simpa using howner
    refine volCalls_unless fun hauth => volCalls_unless fun hdry => ?_
    simp only [ne_eq, Bool.or_eq_true, decide_eq_true_eq, Bool.and_eq_true, not_or,
      Decidable.not_not, not_and] at hauth
    split
    · refine volCalls_unless fun _ => Prog.issues_bind (volCalls_onTree ?_) fun _ => trivial
      -- FINISH is one of the first engine.
      refine RrSync.Server.calls_handleInner (hreads .tree) fun s' _ hs' _ => ?_
      cases hs'
      exact hfinish s rfl hallowed hactive howner hauth.2
    · next hne =>
      obtain ⟨hc, -⟩ := hs.base s hactive
      refine Prog.issues_bind (calls_serve hreads hcache (hc.touch now)
        (fun t ht => (hs.transfer t ht s hactive).touch now)
        (Bool.eq_false_iff.mpr fun hd => hdry ⟨hd, fun h => hne h⟩)
        (hserve s hallowed hactive howner hauth.2)) fun _ => trivial
  cases request with
  | common m =>
    cases m with
    | start push options path manifest =>
      refine Prog.issues_bind (volCalls_onTree ?_) fun r => ?_
      · refine RrSync.Server.calls_handleInner (hreads .tree) fun s _ _ _ => ?_
        exact ⟨fun h => h.elim, fun _ _ _ _ => nofun, nofun⟩
      · obtain ⟨reply, base⟩ := r
        cases reply <;> trivial
    | _ => exact hrest (by intros; exact nofun)
  | _ => exact hrest (by intros; exact nofun)

/-- A request that fails drops its session, which works in the cache. -/
theorem calls_handle (hcache : ∀ c, c.Rooted → P .cache c) {request : Message}
    (h : VolCalls P (server.handleInner now connection peer permission request)) :
    VolCalls P (server.handle now connection peer permission request) := by
  refine Prog.issues_bind (Prog.issues_attempt h) fun r => ?_
  split
  · trivial
  · exact Prog.issues_bind (calls_disconnect hcache) fun _ => trivial

end Server

end

end V2

end RrSync

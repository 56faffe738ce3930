import RrSync.Proofs.Confined
import RrSync.Proofs.Refinement

/-!
# `RrSync.Proofs.RefinementV2`: the requests of a transfer run the plan

The counterpart of `Proofs.Refinement` for the second server. A file of a session goes into the export
with the FILE_COMMIT of its transfer, and its content has the size and the hash of the DESCRIPTION that
began the transfer (`Tells`). `sessions_refine` is the theorem for both servers.
-/

set_option autoImplicit false

namespace RrSync

open Lib

/-! ### The second server -/

section
variable {α : Type} {w w' : Disks}

/-- A program on the tree runs as it would on a disk of its own. -/
theorem onTree_run {m : FsM α} {r : Except Error α} (h : (onTree m).run execVol w = (r, w')) :
    m.run exec (w .tree) = (r, w' .tree) := by
  unfold onTree execVol at h
  rw [Prog.run_atVol] at h
  obtain ⟨rfl, rfl⟩ := Prod.mk.inj h
  rw [Function.update_self]

/-- A program on the cache leaves the tree alone. -/
theorem onCache_run {m : FsM α} {r : Except Error α} (h : (onCache m).run execVol w = (r, w')) :
    w' .tree = w .tree := by
  unfold onCache execVol at h
  rw [Prog.run_atVol] at h
  obtain ⟨-, rfl⟩ := Prod.mk.inj h
  exact Function.update_of_ne (by decide) _ _

end

namespace V2

section
variable [Sha256] {server : Server} {s s' : Session} {state state' : Option Transfer} {cache : Cache}
  {now : Instant} {connection : ConnectionId} {peer : Id} {path : String} {permission : Permission}
  {request : Message} {reply : ServerReply} {given : Nat → Bytes → Prop} {w w' : Disks} {w₀ : Disk}

/-- The calls on the export only look. -/
def Looks (v : Volume) (c : FsCall) : Prop := v = .tree → c.Reads

omit [Sha256] in
/-- A program that only looks at the export. -/
theorem still_of_looks {α : Type} {m : Prog (FsSig.vol Volume) Empty α} (hm : VolCalls Looks m) :
    (m.runOk execVol w).2 .tree = w .tree := by
  have hmoment := Prog.moment_run execVol m w
  rw [Prog.run_eq_runOk] at hmoment
  exact still_of_volCalls hm (fun _ h => h rfl) hmoment

/-- No request about a transfer but FILE_COMMIT touches the export. -/
theorem looks_serve (hrequest : ∀ index, request ≠ .fileCommit index) :
    VolCalls Looks (serve s state cache peer path request) := by
  -- The cache is not the tree, and on the tree there are only reads.
  have hcache {α : Type} {m : FsM α} : VolCalls Looks (onCache m) :=
    volCalls_onCache (Prog.issues_of_forall fun _ h => by cases h)
  have hlook {α : Type} {m : FsM α} (hm : Calls FsCall.Reads m) :
      VolCalls Looks (onTree m) :=
    volCalls_onTree (hm.mono fun _ hc _ => hc)
  have hpure {x : Except Error (ServerReply × Session × Option Transfer)} :
      VolCalls Looks (liftM x : VolM _) := by
    rw [Prog.lift_def]
    trivial
  cases request with
  | description index d =>
    exact volCalls_lift fun _ _ => volCalls_unless fun _ => volCalls_lift fun _ _ =>
      volCalls_lift fun _ _ => Prog.issues_bind hcache fun _ => trivial
  | describe index c =>
    exact volCalls_lift fun _ _ => volCalls_unless fun _ => volCalls_lift fun _ _ =>
      volCalls_lift fun _ _ => volCalls_lift fun _ _ =>
      Prog.issues_bind (hlook calls_snapshot) fun _ => volCalls_lift fun _ _ =>
      volCalls_lift fun _ _ => trivial
  | hashes index start page =>
    refine volCalls_lift fun t _ => ?_
    split
    · trivial
    · exact volCalls_unless fun _ => volCalls_lift fun _ _ =>
        Prog.issues_bind hcache fun _ => trivial
  | hashesGet | chunkBegin | chunkGet | chunkVerified => exact hpure
  | chunkCommit index chunk resource =>
    refine volCalls_lift fun t _ => ?_
    split
    · trivial
    refine volCalls_unless fun _ => ?_
    split
    · trivial
    · exact volCalls_unless fun _ => volCalls_lift fun _ _ => volCalls_unless fun _ =>
        Prog.issues_bind hcache fun _ => trivial
  | fileCommit index => exact absurd rfl (hrequest index)
  | fileVerified index =>
    refine volCalls_lift fun t _ => ?_
    split
    · trivial
    · exact volCalls_lift fun _ _ => volCalls_unless fun _ => volCalls_lift fun _ _ =>
        volCalls_lift fun _ _ => Prog.issues_bind (hlook calls_ensureUnchanged) fun _ => trivial
  | _ => trivial

/-- Only the request that commits a file changes the tree. -/
theorem serve_still (hrequest : ∀ index, request ≠ .fileCommit index)
    {r : Except Error (ServerReply × Session × Option Transfer)}
    (hrun : (serve s state cache peer path request).run execVol w = (r, w')) :
    w' .tree = w .tree := by
  have hmoment := Prog.moment_run execVol (serve s state cache peer path request) w
  rw [hrun] at hmoment
  exact still_of_volCalls (looks_serve hrequest) (fun _ h => h rfl) hmoment

/-- A FILE_COMMIT prepares the export, if that is not done, and installs the file. Its content has the
size and the hash that the description of the transfer says. -/
theorem fileCommit_ran {index : UInt32} (hs : s.Coherent) (hstate : ∀ t ∈ state, t.Coherent s)
    (hpush : s.push = true) (h : s.Ran given w₀ (w .tree))
    (hrun : (fileCommit s state index).run execVol w = (.ok (reply, s', state'), w'))
    (hgiven : ∀ t ∈ state, t.index = index.toNat → ∀ file : Bytes,
      file.length = t.description.size → digest file = t.description.hash → given t.index file) :
    s'.Ran given w₀ (w' .tree) := by
  obtain ⟨t, _, hlift, hrun⟩ := Prog.run_bind_eq_ok.mp hrun
  obtain ⟨htransfer, rfl⟩ := Prog.run_lift_eq_ok.mp hlift
  have hmem := @fine_transfer state index
  rw [htransfer] at hmem
  have ht := hstate t hmem.1
  split at hrun
  · cases hrun
  obtain ⟨n, _, hlift, hrun⟩ := Prog.run_bind_eq_ok.mp hrun
  obtain ⟨-, rfl⟩ := Prog.run_lift_eq_ok.mp hlift
  obtain ⟨-, hrun⟩ := Prog.run_check_bind_eq_ok.mp hrun
  obtain ⟨file, w₁, hassemble, hrun⟩ := Prog.run_bind_eq_ok.mp hrun
  obtain ⟨s₁, w₂, hready, hrun⟩ := Prog.run_bind_eq_ok.mp hrun
  obtain ⟨e, _, hlift, hrun⟩ := Prog.run_bind_eq_ok.mp hrun
  obtain ⟨he, rfl⟩ := Prog.run_lift_eq_ok.mp hlift
  obtain ⟨u, w₃, hinstall, hrun⟩ := Prog.run_bind_eq_ok.mp hrun
  obtain ⟨u', w₄, hclear, hpure⟩ := Prog.run_bind_eq_ok.mp hrun
  obtain ⟨heq, rfl⟩ := Prog.run_pure_eq_ok.mp hpure
  rw [← onCache_run hassemble] at h
  obtain ⟨rfl, hran⟩ := h.ready (onTree_run hready)
  -- The hash of the description is that of the entry, if there is one.
  obtain ⟨e', he', hsize, hhash⟩ := ht.entry
  obtain rfl := Option.some.inj (he'.symm.trans (index_ok.mp he))
  have hmarked := run_marked unmarked_install (onTree_run hinstall)
  obtain ⟨hlength, hdigest, -⟩ := install_run hmarked
  have hfile : given t.index file := by
    refine hgiven t hmem.1 hmem.2 file (hlength.trans hsize) ?_
    exact (hdigest _ rfl).symm
  have hplain := install_hash hhash hmarked
  have hprepared := coherent_prepared hs ht.real hpush
  have hran := hran.install hprepared rfl (hs.pending _ ht.file).2 he' hfile hplain
  cases heq
  rw [onCache_run hclear]
  exact hran

/-- A request about a transfer takes the invariant of a push session along. -/
theorem serve_ran (hs : s.Coherent) (hstate : ∀ t ∈ state, t.Coherent s) (hpush : s.push = true)
    (h : s.Ran given w₀ (w .tree)) (hrun : (serve s state cache peer path request).run execVol w
      = (.ok (reply, s', state'), w'))
    (hgiven : ∀ t ∈ state, ∀ index, request = .fileCommit index → reply = ok →
      t.index = index.toNat → ∀ file : Bytes, file.length = t.description.size →
      digest file = t.description.hash → given t.index file) : s'.Ran given w₀ (w' .tree) := by
  have hserves := (serve_ends hs hstate cache peer path request).run execVol w
  rw [hrun] at hserves
  replace hserves : Serves s state request reply s' state' := hserves
  -- Only FILE_COMMIT changes the tree.
  by_cases hcommit : ∃ index, request = .fileCommit index
  · obtain ⟨index, rfl⟩ := hcommit
    have hreply : reply = ok := by
      cases hserves
      rfl
    exact fileCommit_ran hs hstate hpush h hrun fun t ht => hgiven t ht index rfl hreply
  · rw [serve_still (fun index heq => hcommit ⟨index, heq⟩) hrun]
    cases hserves with
    | fileCommit => exact absurd ⟨_, rfl⟩ hcommit
    | fileVerified active file_ok download =>
      have hpull := (hstate _ active).pulls download
      rw [hpush] at hpull
      cases hpull
    | _ => exact h

/-! ### The requests of the second server -/

namespace Server

variable {r : ServerReply × Server}

/-- A request about a transfer that is answered is a run of `serve`. -/
theorem serve_run (hs : server.base.session = some s) (howner : s.connection = connection)
    (hne : ∀ m, request ≠ .common m)
    (h : (server.handleInner now connection peer permission request).run execVol w = (.ok r, w')) :
    ∃ session transfer, (serve { s with activity := now } server.transfer server.cache peer
      server.path request).run execVol w = (.ok (r.1, session, transfer), w') ∧
      r.2.base.session = some session := by
  have hfilter : server.base.session.filter (·.connection = connection) = some s := by
    rw [hs]
    simp [howner]
  obtain ⟨-, h⟩ := Prog.run_check_bind_eq_ok.mp h
  -- A request of a transfer goes to the session.
  have hrest : (server.inSession now connection peer permission request).run execVol w
      = (.ok r, w') := by
    cases request with
    | common m => exact absurd rfl (hne m)
    | _ => exact h
  unfold inSession at hrest
  rw [hfilter] at hrest
  obtain ⟨-, hrest⟩ := Prog.run_check_bind_eq_ok.mp hrest
  obtain ⟨-, hrest⟩ := Prog.run_check_bind_eq_ok.mp hrest
  split at hrest
  · exact absurd rfl (hne _)
  · obtain ⟨⟨reply, session, transfer⟩, w₁, hserve, hpure⟩ := Prog.run_bind_eq_ok.mp hrest
    obtain ⟨rfl, rfl⟩ := Prog.run_pure_eq_ok.mp hpure
    exact ⟨session, transfer, hserve, rfl⟩

/-- A FINISH of the owner that is answered is a FINISH of the first server. -/
theorem finish_run (hs : server.base.session = some s) (howner : s.connection = connection)
    (h : (server.handleInner now connection peer permission (.common .finish)).run execVol w
      = (.ok r, w')) : ∃ r', (RrSync.Server.handleInner
        { server.base with session := some { s with activity := now } } now connection permission
        .finish).run exec (w .tree) = (.ok r', w' .tree) := by
  have hfilter : server.base.session.filter (·.connection = connection) = some s := by
    rw [hs]
    simp [howner]
  obtain ⟨-, h⟩ := Prog.run_check_bind_eq_ok.mp h
  replace h : (server.inSession now connection peer permission (.common .finish)).run execVol w
      = (.ok r, w') := h
  unfold inSession at h
  rw [hfilter] at h
  obtain ⟨-, h⟩ := Prog.run_check_bind_eq_ok.mp h
  obtain ⟨-, h⟩ := Prog.run_check_bind_eq_ok.mp h
  obtain ⟨-, h⟩ := Prog.run_check_bind_eq_ok.mp h
  obtain ⟨r', w₁, hfinish, hpure⟩ := Prog.run_bind_eq_ok.mp h
  obtain ⟨-, rfl⟩ := Prog.run_pure_eq_ok.mp hpure
  exact ⟨r', onTree_run hfinish⟩

/-- A START that is answered is a START of the first server. -/
theorem start_run {push : Bool} {options : Options} {path : String} {manifest : Manifest}
    (h : (server.handleInner now connection peer permission
      (.common (.start push options path manifest))).run execVol w = (.ok r, w')) :
    ∃ reply, (server.base.handleInner now connection permission
      (.start push options path manifest)).run exec (w .tree) = (.ok (reply, r.2.base), w' .tree) := by
  obtain ⟨-, h⟩ := Prog.run_check_bind_eq_ok.mp h
  obtain ⟨⟨reply, base⟩, w₁, hstart, hrest⟩ := Prog.run_bind_eq_ok.mp h
  cases reply with
  | message m =>
    obtain ⟨rfl, rfl⟩ := Prog.run_pure_eq_ok.mp hrest
    exact ⟨_, onTree_run hstart⟩
  | file m f => cases hrest

end Server

end

/-! ### The runs of the second server -/

section
variable [Sha256] {st : Server × Disks} {now : Instant} {connection : ConnectionId} {peer : Id}
  {permission : Permission} {request : Message}

/-- Only the owner of the session touches the export. -/
theorem still_of_stranger (hs : st.1.Coherent)
    (h : ∀ s ∈ st.1.base.session, s.connection ≠ connection) :
    (step st (.handle now connection peer permission request)).2.2 .tree = st.2 .tree := by
  refine still_of_looks (Server.calls_handle (fun _ _ h => by cases h) ?_)
  refine Server.calls_handleInner (P := Looks) (fun _ _ hc _ => hc)
    (fun _ _ h => by cases h) hs ?_ ?_
  · exact fun s _ hactive howner => absurd howner (h s hactive)
  · exact fun s _ _ hactive howner => absurd howner (h s hactive)

/-- A request that is answered is a run of `handleInner`. -/
theorem step_answered {reply : ServerReply}
    (hreply : (step st (.handle now connection peer permission request)).1 = .reply (.ok reply)) :
    (st.1.handleInner now connection peer permission request).run execVol st.2
      = (.ok (reply, (step st (.handle now connection peer permission request)).2.1),
        (step st (.handle now connection peer permission request)).2.2) := by
  unfold step at hreply ⊢
  dsimp only at hreply ⊢
  rw [Server.handle_run] at hreply ⊢
  rcases hrun : (st.1.handleInner now connection peer permission request).run execVol st.2 with
    ⟨_ | ⟨reply', server'⟩, w'⟩
  · rw [hrun] at hreply
    cases hreply
  · rw [hrun] at hreply
    cases hreply
    rfl

/-- A session that a call leaves was there before, if the call opens none. -/
theorem kept_of_step (hs : st.1.Coherent) {i : Input}
    (hstart : Occurrence.starts (event step st i) = false) {s' : Session}
    (hs' : s' ∈ (step st i).2.1.base.session) : ∃ s ∈ st.1.base.session, s'.fixed = s.fixed := by
  rcases (step_session hs i).2 with ⟨-, hkept⟩ | ⟨htrue, -⟩
  · exact hkept s' hs'
  · rw [hstart] at htrue
    cases htrue

/-- A request of the owner about a transfer takes the invariant of the session along, once it is
answered. -/
theorem owner_ran (hs : st.1.Coherent) {s s' : Session} (hsession : st.1.base.session = some s)
    (hne : ∀ m, request ≠ .common m) {reply : ServerReply}
    (ho : (step st (.handle now s.connection peer permission request)).1 = .reply (.ok reply))
    (hs' : s' ∈ (step st (.handle now s.connection peer permission request)).2.1.base.session)
    (hpush : s.push = true) {w₀ : Disk} {given : Nat → Bytes → Prop}
    (hran : s.Ran given w₀ (st.2 .tree))
    (hgiven : ∀ t ∈ st.1.transfer, ∀ j, request = .fileCommit j → reply = ok →
      t.index = j.toNat → ∀ file : Bytes, file.length = t.description.size →
      digest file = t.description.hash → given t.index file) :
    s'.Ran given w₀ ((step st (.handle now s.connection peer permission request)).2.2 .tree) := by
  obtain ⟨session, transfer, hserve, hnext⟩ :=
    Server.serve_run hsession rfl hne (step_answered ho)
  obtain rfl := Option.some.inj (hnext.symm.trans hs')
  exact serve_ran ((hs.base s hsession).1.touch now)
    (fun t ht => (hs.transfer t ht s hsession).touch now) hpush
    (show Session.Ran { s with activity := now } given w₀ _ from hran) hserve hgiven

/-- A call that opens no session takes the invariant of the session along. What is given after the
call contains what was given before it, and a content for the file of a FILE_COMMIT that is answered. -/
theorem step_ran (hs : st.1.Coherent) {i : Input}
    (hstart : Occurrence.starts (event step st i) = false) {s' : Session}
    (hs' : s' ∈ (step st i).2.1.base.session) {given given' : Nat → Bytes → Prop}
    (hmore : ∀ i data, given i data → given' i data)
    (hgiven : ∀ s ∈ st.1.base.session, ∀ t ∈ st.1.transfer, ∀ now peer permission j,
      i = .handle now s.connection peer permission (.fileCommit j) →
      (step st i).1 = .reply (.ok ok) → s.push = true → t.index = j.toNat →
      ∀ file : Bytes, file.length = t.description.size → digest file = t.description.hash →
      given' t.index file) :
    ∃ s ∈ st.1.base.session, s'.fixed = s.fixed ∧
      ∀ w₀, s.push = true → s.options.dryRun = false → s.Ran given w₀ (st.2 .tree) →
        s'.Ran given' w₀ ((step st i).2.2 .tree) := by
  obtain ⟨s, hsession, hfixed⟩ := kept_of_step hs hstart hs'
  refine ⟨s, hsession, hfixed, fun w₀ hpush hreal hbefore => ?_⟩
  have hran := hbefore.imp hmore
  have hturn := step_turns hs i
  rcases hr : step st i with ⟨o, server', w'⟩
  rw [hr] at hturn hs'
  dsimp only at hturn hs' ⊢
  -- The session is left as it is by a call that does not touch the export.
  have hsame (hmem : s' ∈ st.1.base.session) (hstill : (step st i).2.2 .tree = st.2 .tree) :
      s'.Ran given' w₀ (w' .tree) := by
    rw [hr] at hstill
    dsimp only at hstill
    obtain rfl := Option.some.inj (hsession.symm.trans hmem)
    rwa [hstill]
  cases hturn with
  | @accepted now _ peer permission request _ _ accepts =>
    cases accepts with
    | start =>
      rw [event, hr] at hstart
      cases hstart
    | finish => cases hs'
    | serve allowed active owner same full real served =>
      obtain rfl := Option.some.inj (hsession.symm.trans active)
      subst owner
      have hmem : s' ∈
          (step st (.handle now s.connection peer permission request)).2.1.base.session := by
        rw [hr]
        exact hs'
      have howner := owner_ran hs hsession served.not_common (congrArg Prod.fst hr) hmem hpush hran
      rw [hr] at howner
      refine howner fun t ht index hindex hreply => ?_
      subst hindex hreply
      exact hgiven s hsession t ht now peer permission index rfl (congrArg Prod.fst hr) hpush
  | refused =>
    obtain ⟨hmem, hne⟩ := Server.mem_disconnected hs'
    refine hsame hmem (still_of_stranger hs fun x hx => ?_)
    obtain rfl := Option.some.inj (Eq.trans (Eq.symm hx) hmem)
    exact hne
  | ignored =>
    refine hsame hs' ?_
    rw [step_receive]
    split <;> rfl
  | stored active push real transfer first pending plain size =>
    refine hsame hs' ?_
    rw [step_receive]
    split <;> rfl
  | disconnect =>
    refine hsame (Server.mem_disconnected hs').1 ?_
    exact still_of_looks (Server.calls_disconnect fun _ _ h => by cases h)
  | @touch connection now =>
    obtain rfl : st.2 = w' := congrArg (fun r => r.2.2) hr
    obtain ⟨x, hx, rfl⟩ := Option.map_eq_some_iff.mp hs'
    obtain rfl := Option.some.inj (hsession.symm.trans hx)
    show Session.Ran (if s.connection = connection then { s with activity := now } else s) given' w₀ _
    split <;> exact hran
  | expired => cases hs'
  | kept =>
    refine hsame hs' ?_
    exact still_of_looks (Server.calls_expire fun _ _ h => by cases h)

/-- An accepted START leaves the export alone and opens a session that has scanned it. -/
theorem step_opened (hs : st.1.Coherent) {i : Input} {root : Root} {s : Session} {o : Origin}
    (hbegan : Occurrence.Began (event step st i) root s o)
    (hsession : s ∈ (step st i).2.1.base.session) : (step st i).2.2 .tree = st.2 .tree ∧
      (scan s.root s.options.checksum).run exec (st.2 .tree) = (.ok s.scan, st.2 .tree) ∧
      s.prepared = false ∧ s.done = [] := by
  obtain ⟨-, ho, -, now, peer, permission, -, hi⟩ := hbegan
  replace hi : i = _ := hi
  subst hi
  obtain ⟨reply, hrun⟩ := Server.start_run (step_answered ho)
  obtain ⟨hdisk, hscan⟩ := RrSync.Server.start_run hrun
  refine ⟨hdisk, hscan s hsession, ?_⟩
  -- START leaves a session in which nothing is done.
  have hacc := (RrSync.Server.handleInner_ends hs.base now s.connection permission
    (.start s.push s.options o.path o.manifest)).run exec (st.2 .tree)
  rw [hrun] at hacc
  generalize (step st (.handle now s.connection peer permission
    (.common (.start s.push s.options o.path o.manifest)))).2.1.base = base at hacc hsession
  generalize s.connection = connection at hacc
  generalize s.push = push at hacc
  generalize s.options = options at hacc
  cases hacc with
  | start =>
    cases hsession
    exact ⟨rfl, rfl⟩
  | serve _ _ _ _ served => cases served

omit [Sha256] in
/-- Which request has started a session depends only on its fixed part. -/
theorem began_of_fixed {e : Occurrence} {root : Root} {s s' : Session} {o : Origin}
    (h : Occurrence.Began e root s o) (hfixed : s'.fixed = s.fixed) : Occurrence.Began e root s' o := by
  have hbegan : Occurrence.Began e root s.fixed o := ⟨⟨h.1.1, h.1.2, h.1.3⟩, h.2⟩
  rw [← hfixed] at hbegan
  exact ⟨⟨hbegan.1.1, hbegan.1.2, hbegan.1.3⟩, hbegan.2⟩

/-- The call is this request, and its answer is OK. -/
def Occurrence.Answers (e : Occurrence) (connection : ConnectionId) (request : Message) : Prop :=
  ∃ now peer permission, e.input = .handle now connection peer permission request ∧
    e.output = .reply (.ok ok)

/-- In a push, the transfer is of the file that a DESCRIPTION of the session named, with its size and
its hash. -/
def Tells (s : Session) (state : Option Transfer) (word : List Exchange) : Prop :=
  s.push = true → ∀ t ∈ state, ∃ i d, i.toNat = t.index ∧ (.description i d, ok) ∈ word ∧
    d.size = t.description.size ∧ d.hash = t.description.hash

/-- Each request of a transfer that succeeds keeps what is said of the uploads. -/
theorem kept_tells : Kept Tells where
  start s _ _ _ t ht := absurd ht (Option.not_mem_none t)
  touch s state word now h := h
  receive s t word file h hpush t' ht' := by
    cases ht'
    exact h hpush t rfl
  serve s s' state state' request reply word hs hstate h hserves hpush t' ht' := by
    -- A request that goes on with a transfer leaves its file, its size and its hash.
    have hon {t : Transfer} (ht : state = some t) (hp : s.push = true) (hindex : t'.index = t.index)
        (hsize : t'.description.size = t.description.size)
        (hhash : t'.description.hash = t.description.hash) :
        ∃ i d, i.toNat = t'.index ∧ (.description i d, ok) ∈ word ++ [(request, reply)] ∧
          d.size = t'.description.size ∧ d.hash = t'.description.hash := by
      obtain ⟨i, d, hi, hword, hd⟩ := h hp t ht
      exact ⟨i, d, hi.trans hindex.symm, List.mem_append_left _ hword, hd.1.trans hsize.symm,
        hd.2.trans hhash.symm⟩
    cases hserves with
    | @description i d =>
      cases ht'
      exact ⟨i, d, rfl, List.mem_append_right _ (List.mem_singleton.mpr rfl), rfl, rfl⟩
    | describe pull =>
      rw [show s.push = true from hpush] at pull
      cases pull
    | hashes active _ _ _ _ page_ok =>
      cases ht'
      obtain ⟨-, -, -, hd⟩ := Description.setPage_ok.mp page_ok
      subst hd
      exact hon active hpush rfl rfl rfl
    | hashesGet active | chunkBegin active | chunkCommit active | chunkGet active
    | chunkVerified active =>
      cases ht'
      exact hon active hpush rfl rfl rfl
    | fileCommit | fileVerified => cases ht'

/-- The content `data` was uploaded for the file `n`: one of the calls is a FILE_COMMIT of it that was
answered, and before that a DESCRIPTION of it with the size and the hash of `data` was answered. -/
def Uploaded (connection : ConnectionId) (since : List Occurrence) (n : Nat) (data : Bytes) : Prop :=
  ∃ a commit b i d, since = a ++ commit :: b ∧ commit.Answers connection (.fileCommit i) ∧
    i.toNat = n ∧ (connection, .description i d, ok) ∈ asked a ∧
    data.length = d.size ∧ digest data = d.hash

/-- An upload stays one when more is requested. -/
theorem Uploaded.snoc {since : List Occurrence} {n : Nat} {data : Bytes} {e : Occurrence}
    (h : Uploaded connection since n data) : Uploaded connection (since ++ [e]) n data := by
  obtain ⟨a, commit, b, i, d, rfl, hrest⟩ := h
  exact ⟨a, commit, b ++ [e], i, d, by simp, hrest⟩

/-- What a FILE_COMMIT installs has been uploaded. -/
theorem Track.uploaded {root : Root} {cache : Cache} {past : List Occurrence} {e : Occurrence}
    {s : Session} {t : Transfer} {j : UInt32} {file : Bytes} (h : Track Tells root cache past st)
    (hsession : s ∈ st.1.base.session) (ht : t ∈ st.1.transfer) (hpush : s.push = true)
    (he : e.Answers s.connection (.fileCommit j)) (hindex : t.index = j.toNat)
    (hsize : file.length = t.description.size) (hhash : digest file = t.description.hash) :
    Uploaded s.connection (sinceStart past ++ [e]) t.index file := by
  obtain ⟨i, d, hi, hword, hd⟩ := h.said s hsession hpush t ht
  obtain ⟨x, hx, hsaid⟩ := List.mem_map.mp hword
  have howner := (h.recorded s hsession).owner x hx
  obtain rfl : i = j := UInt32.toNat_inj.mp (hi.trans hindex)
  refine ⟨sinceStart past, e, [], i, d, rfl, he, hi, ?_, hsize.trans hd.1.symm,
    hhash.trans hd.2.symm⟩
  rw [← hsaid, ← howner]
  exact hx

/-- In a run, a push session has run what its state says since its START, with the contents that
were uploaded since then. -/
theorem ran_of_run {root : Root} {cache : Cache} {w : Disks} {is : List Input}
    {past fut : List Occurrence} {e : Occurrence}
    (h : events step (.new root cache, w) is = past ++ e :: fut) :
    ∀ s ∈ e.pre.1.base.session, ∃ before first, past = before ++ first :: sinceStart past ∧
      (∃ o, Occurrence.Began first root s o) ∧
      s.Since (fun s => s.Ran (Uploaded s.connection (sinceStart past))) (first.pre.2 .tree)
        (e.pre.2 .tree) := by
  let Opens (first : Occurrence) (since : List Occurrence) (b : Session × Disk) : Prop :=
    (∃ o, Occurrence.Began first root b.1 o) ∧
      b.1.Since (fun s => s.Ran (Uploaded s.connection since)) (first.pre.2 .tree) b.2
  -- START begins the run, before its first step.
  have hopen (past : List Occurrence) (st : Server × Disks) (i : Input)
      (hst : Track Tells root cache past st) (hs : Occurrence.starts (event step st i) = true)
      (b : Session × Disk)
      (hb : b ∈ (step st i).2.1.base.session.map fun s => (s, (step st i).2.2 .tree)) :
      Opens (event step st i) [] b := by
    obtain ⟨s, hsession, rfl⟩ := Option.map_eq_some_iff.mp hb
    rcases (step_session hst.coherent i).2 with ⟨hfalse, -⟩ | ⟨-, hbegan⟩
    · rw [hs] at hfalse
      cases hfalse
    · obtain ⟨o, hbegan⟩ := hbegan s hsession
      obtain ⟨hdisk, hrun, hprepared, hdone⟩ := step_opened hst.coherent hbegan hsession
      rw [hst.root] at hbegan
      exact ⟨⟨o, hbegan⟩, hrun, fun _ _ => .inl ⟨hprepared, hdone, congrArg Disk.plain hdisk⟩⟩
  -- Each later call continues it, with what was uploaded by then.
  have hkeep (past : List Occurrence) (st : Server × Disks) (i : Input)
      (hst : Track Tells root cache past st) (hs : Occurrence.starts (event step st i) = false)
      (b' : Session × Disk)
      (hb' : b' ∈ (step st i).2.1.base.session.map fun s => (s, (step st i).2.2 .tree)) :
      ∃ b ∈ st.1.base.session.map fun s => (s, st.2 .tree), ∀ first : Occurrence,
        Opens first (sinceStart past) b → Opens first (sinceStart past ++ [event step st i]) b' := by
    obtain ⟨s', hs', rfl⟩ := Option.map_eq_some_iff.mp hb'
    have hcommit (s : Session) (hsession : s ∈ st.1.base.session) (t : Transfer)
        (ht : t ∈ st.1.transfer) (now : Instant) (peer : Id) (permission : Permission) (j : UInt32)
        (hi : i = .handle now s.connection peer permission (.fileCommit j))
        (ho : (step st i).1 = .reply (.ok ok)) (hpush : s.push = true) (hindex : t.index = j.toNat)
        (file : Bytes) (hsize : file.length = t.description.size)
        (hhash : digest file = t.description.hash) :
        Uploaded s'.connection (sinceStart past ++ [event step st i]) t.index file := by
      obtain ⟨s₀, hs₀, hfixed⟩ := kept_of_step hst.coherent hs hs'
      obtain rfl := Option.some.inj (Eq.trans (Eq.symm hs₀) hsession)
      have hconnection : s'.connection = s₀.connection := congrArg (·.connection) hfixed
      rw [hconnection]
      exact hst.uploaded hsession ht hpush ⟨now, peer, permission, hi, ho⟩ hindex hsize hhash
    have hmore (n : Nat) (data : Bytes) (h : Uploaded s'.connection (sinceStart past) n data) :
        Uploaded s'.connection (sinceStart past ++ [event step st i]) n data := h.snoc
    obtain ⟨s, hsession, hfixed, hran⟩ := step_ran hst.coherent hs hs' hmore hcommit
    have hconnection : s'.connection = s.connection := congrArg (·.connection) hfixed
    refine ⟨(s, st.2 .tree), Option.mem_map_of_mem _ hsession, fun first hfirst => ?_⟩
    obtain ⟨⟨o, hbegan⟩, hsince⟩ := hfirst
    refine ⟨⟨o, began_of_fixed hbegan hfixed⟩, hsince.keep hfixed fun hpush hreal hled => ?_⟩
    exact hran _ hpush hreal (hconnection ▸ hled)
  obtain ⟨-, -, hcur⟩ := events_evolve
    (fun st : Server × Disks => st.1.base.session.map fun s => (s, st.2 .tree)) Occurrence.starts
    Opens (Track Tells root cache) (started_track Tells root cache w) rfl
    (fun _ _ i hst => hst.step kept_tells i) hopen hkeep h
  intro s hs
  exact hcur (s, e.pre.2 .tree) (Option.mem_map_of_mem _ hs)

/-- A FINISH is answered in the session of its connection, when no file is being transferred. -/
theorem owner_of_finish (hs : st.1.Coherent) {reply : ServerReply}
    (hreply : (step st (.handle now connection peer permission (.common .finish))).1
      = .reply (.ok reply)) : ∃ s, st.1.base.session = some s ∧ s.connection = connection ∧
        st.1.transfer = none := by
  have hturn := step_turns hs (.handle now connection peer permission (.common .finish))
  rw [hreply] at hturn
  generalize (step st (.handle now connection peer permission (.common .finish))).2.1 = server'
    at hturn
  cases hturn with
  | accepted accepts =>
    cases accepts with
    | finish allowed active owner same full idle complete => exact ⟨_, active, owner, idle⟩
    | serve _ _ _ _ _ _ served => exact absurd rfl (served.not_common _)

/-- The call ends the session of the connection, which comes from one START among the calls `past`.
The contents of its run are those that were uploaded since then. -/
def Refined (root : Root) (past : List Occurrence) (e : Occurrence) (connection : ConnectionId) :
    Prop :=
  ∃ s ∈ e.pre.1.base.session, s.connection = connection ∧ ∃ before first o,
    past = before ++ first :: sinceStart past ∧ Occurrence.Began first root s o ∧
    s.Refines (Uploaded connection (sinceStart past)) (first.pre.2 .tree) (e.post.2 .tree)

/-- When the owner's FINISH is answered, what the session has done to the tree is a run of the plan
with the contents that were uploaded. -/
theorem refined_of_run {root : Root} {cache : Cache} {w : Disks} {is : List Input}
    {past fut : List Occurrence} {e : Occurrence}
    (h : events step (.new root cache, w) is = past ++ e :: fut)
    (he : e.Answers connection (.common .finish)) : Refined root past e connection := by
  obtain ⟨hcoh, hevent, -⟩ := session_began h
  obtain ⟨now, peer, permission, hinput, houtput⟩ := he
  have hstep : step e.pre (.handle now connection peer permission (.common .finish))
      = (e.output, e.post) := by
    rw [← hinput]
    generalize e.input = i at hevent
    exact (congrArg (fun e : Occurrence => (e.output, e.post)) hevent).symm
  have hreply : (step e.pre (.handle now connection peer permission (.common .finish))).1
      = .reply (.ok ok) := (congrArg Prod.fst hstep).trans houtput
  obtain ⟨s, hsession, howner, hidle⟩ := owner_of_finish hcoh hreply
  obtain ⟨before, first, hpast, ⟨o, hbegan⟩, hsince⟩ := ran_of_run h s hsession
  subst howner
  have hcoherent := (hcoh.base s hsession).1
  refine ⟨s, hsession, rfl, before, first, o, hpast, hbegan, hsince.scanned, hcoherent.own.symm,
    fun hpush hreal => ?_⟩
  have hpending : s.pending = none := by
    rw [(hcoh.session s hsession).2.2, hidle]
    rfl
  -- The session and the export are those of a session of the first server.
  obtain ⟨r, hfinish⟩ := Server.finish_run hsession rfl (step_answered hreply)
  have howner : ({ s with activity := now } : Session).connection = s.connection := rfl
  obtain ⟨session, hserve, -⟩ := RrSync.Server.serve_run rfl howner
    (by intros; intro h; cases h) hfinish
  rw [hstep] at hserve
  have hruns : Session.Runs { s with activity := now } (Uploaded s.connection (sinceStart past))
      (first.pre.2 .tree) (e.pre.2 .tree) :=
    ⟨hsince.led hpush hreal, fun hne => absurd hpending hne⟩
  exact (hruns.serve (hcoherent.touch now) hpush hreal hserve (by intro i f h; cases h)).2 rfl

end

end V2

/-- When the FINISH of a push session is answered, the requests of the session are one run of its
plan on the disk that its START has scanned: in every run of both servers. -/
theorem sessions_refine [Sha256] (root : Root) (cache : Cache) (w : Disk) (ws : Disks)
    (is : List Input) (js : List V2.Input) :
    (∀ past e fut connection, events step (⟨root, none⟩, w) is = past ++ e :: fut →
      e.Answers connection .finish → Refined root past e connection) ∧
    ∀ past e fut connection, events V2.step (.new root cache, ws) js = past ++ e :: fut →
      e.Answers connection (.common .finish) → V2.Refined root past e connection :=
  ⟨fun _ _ _ _ h he => refined_of_run h he, fun _ _ _ _ h he => V2.refined_of_run h he⟩

/-- The FINISH of the small push session of the first server. -/
theorem sessions_refine_small : @Refined emptySha .opened ((smallPushed .full).take 7)
    ((smallPushed .full).get ⟨7, by decide⟩) smallConnection := by
  have hlist : smallPushed .full = (smallPushed .full).take 7
      ++ (smallPushed .full).get ⟨7, by decide⟩ :: (smallPushed .full).drop 8 := by
    rw [List.get_eq_getElem, List.getElem_cons_drop, List.take_append_drop]
  refine (@sessions_refine emptySha .opened ⟨"export", none⟩ smallDisk V2.smallServer.2
    (smallPush .full) []).1 _ _ _ _ hlist ⟨5, .full, rfl, ?_⟩
  decide +kernel

end RrSync

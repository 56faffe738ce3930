import RrSync.Proofs.Service
import RrSync.Proofs.Authority

/-!
# `RrSync.Proofs.Ownership`: one owner of the export

`one_owner` is about every run of the service: at most one engine has a session, the Link of
the session has the version of that engine, a Link keeps its version from its first authorized
request until it is closed, and an expiry returns the connection of the session it drops.
-/

set_option autoImplicit false

namespace RrSync.Service

open Lib

/-- One call of the service, in a run. -/
abbrev Occurrence := Event (Service × Disks) Input Output

/-- The session is that of one of the engines. -/
def Active (service : Service) (s : Session) : Prop :=
  s ∈ service.engine.session ∨ ∃ server ∈ service.v2, s ∈ server.base.session

/-- At most one engine has a session, and it belongs to a Link of the version of this engine. -/
structure OneOwner (service : Service) : Prop where
  alone : service.engine.session = none ∨ ∀ server ∈ service.v2, server.base.session = none
  first : ∀ s ∈ service.engine.session, service.versions s.connection = some 1
  second : ∀ server ∈ service.v2, ∀ s ∈ server.base.session,
    service.versions s.connection = some 2

/-- What holds of a call and of the calls after it. -/
structure Owned [TruncatedHash] (e : Occurrence) (fut : List Occurrence) : Prop where
  before : e.pre.1.OneOwner
  after : e.post.1.OneOwner
  pinned : ∀ now link path data, e.input = .request now link path data →
    e.pre.1.Authorized link path → ∃ v, e.post.1.versions link = some v ∧
      (e.pre.1.versions link = none → versionOf path = some v) ∧
      ∀ mid d rest, fut = mid ++ d :: rest → (∀ x ∈ mid, x.input ≠ .closed link) →
        d.pre.1.versions link = some v ∧
        ∀ now path data, d.input = .request now link path data → versionOf path ≠ some v →
          ∃ err answer, d.output = .reply (.error err) answer
  expired : ∀ now timeout, e.input = .expire now timeout →
    ∀ s, e.pre.1.Active s → ¬ e.post.1.Active s → e.output = .expired (some s.connection)

/-- The invariant of the service gives the owner. -/
theorem Coherent.oneOwner {service : Service} (hs : service.Coherent) : service.OneOwner := by
  refine ⟨?_, hs.first, hs.second⟩
  cases h : service.engine.session with
  | none => exact .inl rfl
  | some s => exact .inr (hs.alone s h)

section
variable [Sha256] [TruncatedHash] {st : Service × Disks} {link : ConnectionId} {now : Instant}
  {path : Id} {data : Bytes} {v : UInt8}

/-- The versions after a request, and what was returned when the request was refused. -/
theorem versions_request (hs : st.1.Coherent) :
    ((step st (.request now link path data)).2.1.versions = st.1.versions ∧
      ¬ (st.1.Authorized link path ∧ st.1.Free link path) ∧
      ∃ err answer, (step st (.request now link path data)).1 = .reply (.error err) answer) ∨
    ((step st (.request now link path data)).2.1.versions = (st.1.pin link path).versions ∧
      st.1.Authorized link path ∧ st.1.Free link path) := by
  obtain ⟨hresult, hpost⟩ := handler_run st.1 now link path data st.2
  have hrequested := @request_requested _ _ link now _ path data hs
    st.2
  dsimp only at hrequested
  rw [step_request]
  dsimp only
  rw [hpost, hresult, handled_versions]
  generalize ((st.1.request now link path data).runOk execVol st.2).1.1 = result at hrequested ⊢
  generalize ((st.1.request now link path data).runOk execVol st.2).1.2 = service'
    at hrequested ⊢
  rcases hrequested.versions with ⟨h1, h2, e, rfl⟩ | h
  · exact .inl ⟨h1, h2, e, _, rfl⟩
  · exact .inr h

/-- A Link keeps its version, unless it is closed. -/
theorem versions_step (hs : st.1.Coherent) (hv : st.1.versions link = some v) {i : Input}
    (hi : i ≠ .closed link) : (step st i).2.1.versions link = some v := by
  cases i with
  | request now link' path data =>
    rcases @versions_request _ _ _ link' now path data hs with
      ⟨h, -⟩ | ⟨h, -, hfree⟩
    · rw [h, hv]
    · rw [h]
      show Function.update st.1.versions link' _ link = _
      -- A request pins its own Link, and only to the version it has.
      by_cases hlink : link = link'
      · subst hlink
        rw [Function.update_self, hfree v hv]
      · rw [Function.update_of_ne hlink, hv]
  | complete file => exact hv
  | receive =>
    obtain ⟨h, -⟩ := receive_eq hs
    rw [step_receive, h]
    exact hv
  | touch link now => exact hv
  | expire now timeout =>
    have h := @expire_expires _ _ now hs timeout st.2
    dsimp only at h
    show ((st.1.expire now timeout).runOk execVol st.2).1.2.versions link = _
    generalize ((st.1.expire now timeout).runOk execVol st.2).1.1 = o at h
    generalize ((st.1.expire now timeout).runOk execVol st.2).1.2 = service' at h ⊢
    -- The maintenance changes no version.
    cases h <;> exact hv
  | closed link' =>
    have hne : link ≠ link' := fun h => hi (h ▸ rfl)
    show Function.update ((st.1.disconnect link').runOk execVol st.2).1.versions link' _ link = _
    rw [Function.update_of_ne hne, disconnect_run]
    exact hv
  | identify link peer => exact hv

/-- A request of a Link with another version is refused. -/
theorem mixed_refused (hs : st.1.Coherent) (hv : st.1.versions link = some v)
    (hpath : versionOf path ≠ some v) :
    ∃ err answer, (step st (.request now link path data)).1 = .reply (.error err) answer := by
  rcases @versions_request _ _ _ link now path data hs with
    ⟨-, -, h⟩ | ⟨-, -, hfree⟩
  · exact h
  · exact absurd (hfree v hv) hpath

/-- An expiry returns the connection of the session that it drops. -/
theorem expire_returns (hs : st.1.Coherent) {timeout : Nat} {s : Session} (h : st.1.Active s)
    (hgone : ¬ (step st (.expire now timeout)).2.1.Active s) :
    (step st (.expire now timeout)).1 = .expired (some s.connection) := by
  have hexpires := @expire_expires _ _ now hs timeout st.2
  dsimp only at hexpires
  change ¬ Active ((st.1.expire now timeout).runOk execVol st.2).1.2 s at hgone
  show Output.expired ((st.1.expire now timeout).runOk execVol st.2).1.1 = _
  generalize ((st.1.expire now timeout).runOk execVol st.2).1.1 = o at hexpires ⊢
  generalize ((st.1.expire now timeout).runOk execVol st.2).1.2 = service' at hexpires hgone
  -- A session that is gone is the one that is returned, of whichever engine.
  cases hexpires with
  | kept => exact absurd h hgone
  | first active =>
    rcases h with h | ⟨server, hserver, h⟩
    · obtain rfl := Option.some.inj (active.symm.trans h)
      rfl
    · exact absurd (.inr ⟨server, hserver, h⟩) hgone
  | second v2 active =>
    rcases h with h | ⟨server, hserver, h⟩
    · exact absurd (.inl h) hgone
    · obtain rfl := Option.some.inj (v2.symm.trans hserver)
      obtain rfl := Option.some.inj (active.symm.trans h)
      rfl

/-- In every run of the service at most one engine has a session, whose Link has the version of
the engine; from its first authorized request until it is closed a Link keeps its version, and
its requests for the other one are refused; and no expiry drops a session in silence. -/
theorem one_owner (root : Root) (cache : Option Cache) (config : Config) (w : Disks)
    (is : List Input) (past : List Occurrence) (e : Occurrence) (fut : List Occurrence)
    (h : events step (.new root cache config, w) is = past ++ e :: fut) : Owned e fut := by
  have hmem : e ∈ events step (.new root cache config, w) is := by
    rw [h]
    exact List.mem_append_right _ List.mem_cons_self
  obtain ⟨hpre, hpost, he⟩ := events_invariant (fun st : Service × Disks => st.1.Coherent)
    (started_coherent root cache config) (fun _ i hs => step_coherent hs i) hmem
  refine ⟨hpre.oneOwner, hpost.oneOwner, ?_, ?_⟩
  · intro now link path data hi ha
    -- An authorized request leaves the Link with a version, that of the path when it had none.
    have hversion : ∃ v, e.post.1.versions link = some v ∧
        (e.pre.1.versions link = none → versionOf path = some v) := by
      have hp : e.post = (step e.pre (.request now link path data)).2 := by
        rw [he, hi]
        rfl
      rw [hp]
      rcases @versions_request _ _ _ link now path data hpre with
        ⟨h1, h2, -⟩ | ⟨h1, -, -⟩
      · -- The request is refused, because the Link has another version.
        rw [h1]
        cases hv : e.pre.1.versions link with
        | none => exact absurd ⟨ha, fun v h => absurd (hv ▸ h) (Option.not_mem_none v)⟩ h2
        | some v => exact ⟨v, rfl, nofun⟩
      · obtain ⟨v, hv⟩ := Option.isSome_iff_exists.mp ha.1
        refine ⟨v, ?_, fun _ => hv⟩
        rw [h1]
        show Function.update e.pre.1.versions link _ link = _
        rw [Function.update_self, hv]
    obtain ⟨v, hv, hnew⟩ := hversion
    refine ⟨v, hv, hnew, fun mid d rest hfut hmid => ?_⟩
    -- The version stays until the Link is closed.
    obtain ⟨js, hjs⟩ := events_after h
    obtain ⟨⟨hc, hd⟩, hevent⟩ := events_until
      (fun st : Service × Disks => st.1.Coherent ∧ st.1.versions link = some v)
      (fun x : Occurrence => x.input ≠ .closed link) ⟨hpost, hv⟩
      (fun st i hst hi => ⟨step_coherent hst.1 i, versions_step hst.1 hst.2 hi⟩)
      (hjs.symm.trans hfut) hmid
    refine ⟨hd, fun now path data hi hne => ?_⟩
    rw [hevent, hi]
    exact mixed_refused hc hd hne
  · intro now timeout hi s hactive hgone
    rw [he, hi] at hgone ⊢
    exact expire_returns hpre hactive hgone

end

/-! ### A small run -/

/-- The hashes of the two request paths. -/
@[reducible] def smallPaths : TruncatedHash := ⟨fun b =>
  if b = RrSync.requestPath.utf8 then
    #v[0xb0, 0xfc, 0xef, 0x99, 0x95, 0xd7, 0x04, 0x8f, 0x5a, 0xac, 0x4f, 0x2e, 0x96, 0x80, 0xe5, 0x35]
  else
    #v[0xa8, 0x68, 0x11, 0x81, 0xe1, 0x4f, 0xa6, 0xa0, 0x6f, 0xde, 0x60, 0x0c, 0x11, 0x97, 0x03, 0xff]⟩

/-- A Link whose peer has full permissions. -/
def smallLink : ConnectionId := Vector.replicate 16 2

/-- A service with both engines that exports the small disk. -/
def smallService : Service × Disks :=
  (.new .opened (some ⟨"export", none⟩) ⟨[[("others", .full)]]⟩, fun v => match v with
    | .tree => smallDisk
    | .cache => .empty)

/-- Two peers ask for the export, one with each version. The second Link has to wait until the
session of the first one is over. -/
def smallRequests : List Input :=
  let start : Message := .start true ⟨false, false, true⟩ "" ⟨[]⟩
  let path (v2 : Bool) := smallPaths.truncatedHash
    (if v2 then V2.requestPath.utf8 else RrSync.requestPath.utf8)
  let bytes (m : Message) := m.encode.toOption.getD []
  let bytes2 (m : Message) := (V2.Message.common m).encode.toOption.getD []
  [.identify smallConnection (some (Vector.replicate 16 7)),
    .identify smallLink (some (Vector.replicate 16 8)),
    .request 0 smallConnection (path false) (bytes start),
    .request 1 smallLink (path true) (bytes2 start),
    .request 2 smallConnection (path false) (bytes .finish),
    .request 3 smallConnection (path true) (bytes2 start),
    .request 4 smallLink (path true) (bytes2 start),
    .expire 20 10]

/-- The requests of that Link, and what became of them. -/
def smallServed : List Occurrence := events (@step emptySha smallPaths) smallService smallRequests

/-- The third request has one owner before and after it, whatever follows. -/
theorem one_owner_small : @Owned smallPaths (smallServed.get ⟨2, by decide⟩) (smallServed.drop 3) :=
  @one_owner emptySha smallPaths .opened (some ⟨"export", none⟩) ⟨[[("others", .full)]]⟩
    smallService.2 smallRequests (smallServed.take 2) _ _ (by
      show smallServed = _
      rw [List.get_eq_getElem, List.getElem_cons_drop, List.take_append_drop])

example : (smallServed.map fun e => e.output).getLast? = some (.expired (some smallLink)) := by
  decide +kernel

end RrSync.Service

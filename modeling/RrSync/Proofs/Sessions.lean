import RrSync.Proofs.EngineV2
import RrSync.Spec.Conversation
import Mathlib.Data.List.DropRight

/-!
# `RrSync.Proofs.Sessions`: what was said in a session

The history of a run of the second server. `asked` are the requests that were answered
without an error since the last START, and `Recorded` says that they are of the owner of the
session and that the session is the one of that START.

`session_invariant` is the induction rule for the sessions of a run: a property of a session,
its transfer and what was said in it, which holds after START and which the requests of the
owner keep.
-/

set_option autoImplicit false

namespace RrSync

open Lib

/-- What of a session does not change until it ends. -/
def Session.fixed (s : Session) : Session :=
  { s with prepared := false, pending := none, received := none, done := [], activity := 0 }

namespace V2

/-- One call of the adapter, in a run. -/
abbrev Occurrence := Event (Server × Disks) Input Output

namespace Occurrence

/-- The request that is answered without an error: who asks, and what. -/
def answered? (e : Occurrence) : Option (ConnectionId × Exchange) :=
  match e.input, e.output with
  | .handle _ connection _ _ request, .reply (.ok reply) => some (connection, request, reply)
  | _, _ => none

/-- The call is a START that was accepted. -/
def starts (e : Occurrence) : Bool :=
  match e.answered? with
  | some (_, .common (.start _ _ _ _), _) => true
  | _ => false

/-- The call is the START of the session `s` of the server. -/
structure Opens (e : Occurrence) (server : Server) (s : Session) : Prop where
  request : ∃ now peer permission manifest reply,
    e.input = .handle now s.connection peer permission
      (.common (.start s.push s.options server.path manifest)) ∧
    e.output = .reply (.ok reply) ∧ server.peer = some peer ∧
    (s.push = true → s.source = manifest)
  session : ∃ s₀, e.post.1.base.session = some s₀ ∧ s₀.fixed = s.fixed

end Occurrence

/-- The calls after the last accepted START. -/
def sinceStart (past : List Occurrence) : List Occurrence := past.rtakeWhile fun e => !e.starts

/-- The requests of the calls that were answered without an error. -/
def asked (since : List Occurrence) : List (ConnectionId × Exchange) :=
  since.filterMap Occurrence.answered?

/-- A START that is answered begins a new list, and all else is added to it. -/
theorem sinceStart_snoc {past : List Occurrence} {e : Occurrence} :
    sinceStart (past ++ [e]) = if e.starts then [] else sinceStart past ++ [e] := by
  unfold sinceStart
  rw [List.rtakeWhile_concat]
  cases e.starts <;> rfl

/-- What is asked grows by the request that was answered. -/
theorem asked_snoc {since : List Occurrence} {e : Occurrence} :
    asked (since ++ [e]) = asked since ++ e.answered?.toList := by
  unfold asked
  rw [List.filterMap_append]
  cases h : e.answered? <;> simp [h]

section
variable [Sha256] {s s' : Session} {state state' : Option Transfer} {request : Message}
  {reply : ServerReply}

/-- A request of a transfer keeps the fixed part of the session. -/
theorem Serves.fixed (h : Serves s state request reply s' state') : s'.fixed = s.fixed := by
  cases h <;> rfl

/-- START and FINISH are not requests of a transfer. -/
theorem Serves.not_common (h : Serves s state request reply s' state') (m : RrSync.Message) :
    request ≠ .common m := by
  cases h <;> nofun

end

/-! ### The history of a session -/

/-- The start of a session is in the history, and what was said since then was said by the
owner. -/
structure Recorded (past : List Occurrence) (server : Server) (s : Session) : Prop where
  start : ∃ before e, past = before ++ e :: sinceStart past ∧ e.Opens server s
  owner : ∀ x ∈ asked (sinceStart past), x.1 = s.connection

/-- A property of a session, its transfer and what was said that the owner's requests keep. -/
structure Kept [Sha256] (P : Session → Option Transfer → List Exchange → Prop) : Prop where
  start : ∀ s : Session, s.Coherent → s.done = [] → P s none []
  serve : ∀ (s s' : Session) (state state' : Option Transfer) (request : Message)
    (reply : ServerReply) (word : List Exchange), s.Coherent → (∀ t ∈ state, t.Coherent s) →
    P s state word → Serves s state request reply s' state' →
    P s' state' (word ++ [(request, reply)])
  touch : ∀ (s : Session) (state : Option Transfer) (word : List Exchange) (now : Instant),
    P s state word → P { s with activity := now } state word
  receive : ∀ (s : Session) (t : Transfer) (word : List Exchange) (file : ReceivedFile),
    P s (some t) word → P s (some { t with received := some file }) word

/-- What holds of a state of a run after the calls `past`. -/
structure Track (P : Session → Option Transfer → List Exchange → Prop) (root : Root)
    (cache : Cache) (past : List Occurrence) (st : Server × Disks) : Prop where
  coherent : st.1.Coherent
  root : st.1.base.root = root
  cache : st.1.cache = cache
  recorded : ∀ s ∈ st.1.base.session, Recorded past st.1 s
  said : ∀ s ∈ st.1.base.session, P s st.1.transfer ((asked (sinceStart past)).map Prod.snd)

section
variable [Sha256] {P : Session → Option Transfer → List Exchange → Prop} {root : Root}
  {cache : Cache} {past : List Occurrence} {st : Server × Disks}

omit [Sha256] in
/-- A call of which the session learns nothing. -/
theorem Track.quiet (h : Track P root cache past st) {e : Occurrence} {server' : Server}
    (hc : server'.Coherent) (hroot : server'.base.root = st.1.base.root)
    (hcache : server'.cache = st.1.cache) (hnone : e.answered? = none)
    (hs : ∀ s' ∈ server'.base.session, server'.path = st.1.path ∧ server'.peer = st.1.peer ∧
      ∃ s ∈ st.1.base.session, s'.fixed = s.fixed ∧
        (P s st.1.transfer ((asked (sinceStart past)).map Prod.snd) →
          P s' server'.transfer ((asked (sinceStart past)).map Prod.snd))) (w : Disks) :
    Track P root cache (past ++ [e]) (server', w) := by
  have hstart : e.starts = false := by
    unfold Occurrence.starts
    rw [hnone]
  have hsince : sinceStart (past ++ [e]) = sinceStart past ++ [e] := by
    rw [sinceStart_snoc, hstart]
    rfl
  -- No request was answered, so the history is the same.
  have hasked : asked (sinceStart (past ++ [e])) = asked (sinceStart past) := by
    rw [hsince, asked_snoc, hnone, Option.toList_none, List.append_nil]
  refine ⟨hc, hroot.trans h.root, hcache.trans h.cache, fun s' hs' => ?_, fun s' hs' => ?_⟩
  · obtain ⟨hpath, hpeer, s, hmem, hfixed, -⟩ := hs s' hs'
    obtain ⟨⟨before, o, hpast, hopens⟩, howner⟩ := h.recorded s hmem
    -- And nothing of the session has changed that START has fixed.
    have hconnection : s'.connection = s.connection := congrArg (·.connection) hfixed
    have hpush : s'.push = s.push := congrArg (·.push) hfixed
    have hoptions : s'.options = s.options := congrArg (·.options) hfixed
    have hsource : s'.source = s.source := congrArg (·.source) hfixed
    refine ⟨⟨before, o, ?_, ?_, ?_⟩, ?_⟩
    · rw [hsince, ← List.cons_append, ← List.append_assoc, ← hpast]
    · rw [hconnection, hpush, hoptions, hsource, hpath, hpeer]
      exact hopens.request
    · rw [hfixed]
      exact hopens.session
    · rw [hasked, hconnection]
      exact howner
  · obtain ⟨-, -, s, hmem, -, hkeep⟩ := hs s' hs'
    rw [hasked]
    exact hkeep (h.said s hmem)

/-- An accepted START. -/
theorem Track.start (hP : Kept P) (h : Track P root cache past st) {e : Occurrence}
    {now : Instant} {connection : ConnectionId} {peer : Id} {permission : Permission} {push : Bool}
    {options : Options} {path : String} {manifest : Manifest} {m : RrSync.Message}
    {base : RrSync.Server} (accepted : st.1.base.Accepts now connection permission
      (.start push options path manifest) (.message m) base)
    (hi : e.input
      = .handle now connection peer permission (.common (.start push options path manifest)))
    (ho : e.output = .reply (.ok (.message (.common m))))
    (hpost : e.post.1 = { st.1 with base, peer := some peer, path }) :
    Track P root cache (past ++ [e]) e.post := by
  have hc : Server.Coherent { st.1 with base, peer := some peer, path } :=
    h.coherent.accepts (.start accepted)
  have hstart : e.starts = true := by
    simp [Occurrence.starts, Occurrence.answered?, hi, ho]
  -- The history begins anew.
  have hsince : sinceStart (past ++ [e]) = [] := by rw [sinceStart_snoc, if_pos hstart]
  cases accepted with
  | @start _ _ _ _ sroot scan plan allowed full idle under scanned planned =>
    -- There is no transfer yet.
    have htransfer := (h.coherent.idle idle).1
    rw [← hpost] at hc
    refine ⟨hc, by rw [hpost]; exact h.root, by rw [hpost]; exact h.cache, fun s hs => ?_, fun s hs => ?_⟩
    · rw [hpost] at hs
      have hs' := Option.some.inj hs
      refine ⟨⟨past, e, by rw [hsince], ⟨⟨now, peer, permission, manifest, _, ?_, ho, ?_, ?_⟩, ?_⟩⟩, ?_⟩
      · rw [hi, hpost, ← hs']
        rfl
      · rw [hpost]
      · rw [← hs']
        intro hp
        exact if_pos hp
      · rw [hpost]
        exact ⟨s, hs, rfl⟩
      · rw [hsince]
        exact fun x hx => absurd hx List.not_mem_nil
    · have hbase := hc.base s hs
      rw [hpost] at hs ⊢
      rw [hsince, show ({ st.1 with base := _, peer := some peer, path } : Server).transfer = none
        from htransfer]
      refine hP.start s hbase.1 ?_
      rw [← Option.some.inj hs]
      rfl
  | serve _ _ _ _ served => cases served

/-- A request of the owner about a transfer. -/
theorem Track.serve (hP : Kept P) (h : Track P root cache past st) {e : Occurrence}
    {now : Instant} {peer : Id} {permission : Permission} {s s' : Session} {request : Message}
    {reply : ServerReply} {state : Option Transfer} (hactive : st.1.base.session = some s)
    (served : Serves { s with activity := now } st.1.transfer request reply s' state)
    (hi : e.input = .handle now s.connection peer permission request)
    (ho : e.output = .reply (.ok reply))
    (hpost : e.post.1 = { st.1 with base := { st.1.base with session := some s' },
                                    transfer := state })
    (hc : e.post.1.Coherent) : Track P root cache (past ++ [e]) e.post := by
  have hanswered : e.answered? = some (s.connection, request, reply) := by
    simp [Occurrence.answered?, hi, ho]
  -- A request of a transfer is no START.
  have hstart : e.starts = false := by
    unfold Occurrence.starts
    rw [hanswered]
    have h := served.not_common
    cases request with
    | common m => exact absurd rfl (h m)
    | _ => rfl
  have hsince : sinceStart (past ++ [e]) = sinceStart past ++ [e] := by
    rw [sinceStart_snoc, hstart]
    rfl
  -- The history grows by this request, which is of the owner.
  have hasked : asked (sinceStart (past ++ [e]))
      = asked (sinceStart past) ++ [(s.connection, request, reply)] := by
    rw [hsince, asked_snoc, hanswered, Option.toList_some]
  have hfixed : s'.fixed = s.fixed := served.fixed
  obtain ⟨⟨before, o, hpast, hopens⟩, howner⟩ := h.recorded s hactive
  refine ⟨hc, by rw [hpost]; exact h.root, by rw [hpost]; exact h.cache, fun s₁ hs₁ => ?_, fun s₁ hs₁ => ?_⟩
  · rw [hpost] at hs₁ ⊢
    obtain rfl := Option.some.inj hs₁
    have hconnection : s'.connection = s.connection := congrArg (·.connection) hfixed
    have hpush : s'.push = s.push := congrArg (·.push) hfixed
    have hoptions : s'.options = s.options := congrArg (·.options) hfixed
    have hsource : s'.source = s.source := congrArg (·.source) hfixed
    refine ⟨⟨before, o, ?_, ?_, ?_⟩, ?_⟩
    · rw [hsince, ← List.cons_append, ← List.append_assoc, ← hpast]
    · rw [hconnection, hpush, hoptions, hsource]
      exact hopens.request
    · rw [hfixed]
      exact hopens.session
    · rw [hasked, hconnection]
      intro x hx
      rcases List.mem_append.mp hx with hx | hx
      · exact howner x hx
      · obtain rfl := List.mem_singleton.mp hx
        rfl
  · rw [hpost] at hs₁ ⊢
    obtain rfl := Option.some.inj hs₁
    rw [hasked, List.map_append]
    obtain ⟨hcoherent, -⟩ := h.coherent.base s hactive
    exact hP.serve _ _ _ _ _ _ _ (hcoherent.touch now)
      (fun t ht => (h.coherent.transfer t ht s hactive).touch now)
      (hP.touch _ _ _ now (h.said s hactive)) served

/-- What is kept by every request is kept by every step of the server, the maintenance included. -/
theorem Track.step (hP : Kept P) (h : Track P root cache past st) (i : Input) :
    Track P root cache (past ++ [event step st i]) (step st i).2 := by
  have hturn := step_turns h.coherent i
  have hc := hturn.coherent h.coherent
  -- A session that is still there after a disconnect is the same.
  have hdisconnected {connection : ConnectionId} {e : Occurrence} (hnone : e.answered? = none)
      (w : Disks) : Track P root cache (past ++ [e]) (st.1.disconnected connection, w) := by
    refine h.quiet h.coherent.disconnected (Server.disconnected_root _ _) ?_ hnone
      (fun s' hs' => ?_) w
    · unfold Server.disconnected
      split <;> rfl
    · rw [Server.disconnected_eq hs']
      exact ⟨rfl, rfl, s', (Server.mem_disconnected hs').1, rfl, id⟩
  rcases hst : RrSync.V2.step st i with ⟨o, server', w'⟩
  have hevent : event RrSync.V2.step st i = ⟨st, i, o, (server', w')⟩ := by
    unfold event
    rw [hst]
  rw [hst] at hturn hc
  rw [hevent]
  dsimp only at hturn hc ⊢
  cases hturn with
  | @accepted now connection peer permission request reply _ accepts =>
    cases accepts with
    | start accepted => exact Track.start hP h accepted rfl rfl rfl
    | finish =>
      refine ⟨hc, h.root, h.cache, fun s hs => ?_, fun s hs => ?_⟩ <;> cases hs
    | @serve s s' _ _ state allowed active owner same full real served =>
      subst owner
      exact Track.serve hP h active served rfl rfl rfl hc
  | refused => exact hdisconnected rfl w'
  | ignored => exact h.quiet h.coherent rfl rfl rfl (fun s hs => ⟨rfl, rfl, s, hs, rfl, id⟩) w'
  | @stored s t file c active push real transfer =>
    refine h.quiet hc rfl rfl rfl (fun s' hs' => ⟨rfl, rfl, s', hs', rfl, fun hsaid => ?_⟩) w'
    rw [transfer] at hsaid
    exact hP.receive _ _ _ _ hsaid
  | disconnect => exact hdisconnected rfl w'
  | touch =>
    refine h.quiet hc rfl rfl rfl (fun s' hs' => ⟨rfl, rfl, ?_⟩) w'
    obtain ⟨s, hs, rfl⟩ := Option.map_eq_some_iff.mp hs'
    refine ⟨s, hs, ?_, fun hsaid => ?_⟩
    · split <;> rfl
    · split
      · exact hP.touch _ _ _ _ hsaid
      · exact hsaid
  | expired =>
    refine ⟨hc, h.root, h.cache, fun s hs => ?_, fun s hs => ?_⟩ <;> cases hs
  | kept => exact h.quiet h.coherent rfl rfl rfl (fun s hs => ⟨rfl, rfl, s, hs, rfl, id⟩) w'

omit [Sha256] in
/-- A new server has no session to say anything of. -/
theorem started_track (P : Session → Option Transfer → List Exchange → Prop) (root : Root)
    (cache : Cache) (w : Disks) : Track P root cache [] (.new root cache, w) :=
  ⟨started_coherent root cache, rfl, rfl, fun _ h => absurd h (Option.not_mem_none _),
    fun _ h => absurd h (Option.not_mem_none _)⟩

/-- A property that holds after START and that the requests of the owner keep holds in every
session of a run. -/
theorem session_invariant (hP : Kept P) {w : Disks} {is : List Input} {e : Occurrence}
    {fut : List Occurrence} (h : events step (.new root cache, w) is = past ++ e :: fut) :
    Track P root cache past e.pre ∧ Track P root cache (past ++ [e]) e.post ∧
      e = event step e.pre e.input := by
  obtain ⟨h1, h2⟩ := events_history (Track P root cache) (started_track P root cache w)
    (fun _ _ i h => h.step hP i) h
  refine ⟨h1, ?_, h2⟩
  rw [h2]
  exact h1.step hP e.input

end

end V2

end RrSync

import RrSync.Proofs.Outcome
import RrSync.Proofs.Tidy

/-!
# `RrSync.Proofs.Arrival`: a push that is finished has arrived

`sessions_arrive`: when the FINISH of a push session is answered, the export is at the goal of the
plan between the manifest of the client and the scan of the server, whatever other connections
asked, whatever the client sent in between and whichever calls of the disk failed. This is the end
of `sessions_refine`, for the runs of both servers.
-/

set_option autoImplicit false

namespace RrSync

open Lib

/-- A push session that has run its plan has reached the goal of its manifests. -/
theorem Session.Refines.outcome [Sha256] {s : Session} {given : Nat → Bytes → Prop} {w₀ w : Disk}
    (h : s.Refines given w₀ w) (hs : s.Coherent) (htemp : w₀.temp = none) (hpush : s.push = true)
    (hreal : s.options.dryRun = false) :
    Outcome s.root s.source s.destination s.options w₀.tree w := by
  obtain ⟨is, contents, his, -, hrun⟩ := h.replays hpush hreal
  have hown := h.own
  rw [if_pos hpush] at hown
  have hp := hs.planned
  rw [hown] at hp hrun ⊢
  exact runPlan_outcome h.scanned hp his htemp hrun

/-- The call ends the session of the connection. If that is a push session, the export has gone
from the tree at its START to the goal of the manifest of the client. -/
def Arrived [Sha256] (root : Root) (past : List Occurrence) (e : Occurrence)
    (connection : ConnectionId) : Prop :=
  ∃ s ∈ e.pre.1.session, s.connection = connection ∧ ∃ before first o,
    past = before ++ first :: sinceStart past ∧ Occurrence.Began first root s o ∧
    (s.push = true → s.options.dryRun = false →
      Outcome s.root o.manifest o.remote s.options first.pre.2.tree e.post.2)

/-- A FINISH of a real push that is answered means that all has arrived. -/
theorem arrived_of_run [Sha256] {root : Root} {w : Disk} {is : List Input}
    {past fut : List Occurrence} {e : Occurrence} {connection : ConnectionId}
    (htemp : w.temp = none) (h : events step (⟨root, none⟩, w) is = past ++ e :: fut)
    (he : e.Answers connection .finish) : Arrived root past e connection := by
  obtain ⟨s, hsession, howner, before, first, o, hpast, hbegan, hrefines⟩ := refined_of_run h he
  refine ⟨s, hsession, howner, before, first, o, hpast, hbegan, fun hpush hreal => ?_⟩
  have hfirst : first ∈ events step (⟨root, none⟩, w) is := by
    rw [h, hpast]
    simp
  have htidy := (events_invariant (fun st : Server × Disk => st.2.temp = none) htemp
    (fun st i hst => step_tidy hst i) hfirst).1
  have hcoherent := ((session_began h).1 s hsession).1
  have hout := hrefines.outcome hcoherent htidy hpush hreal
  have hsource := hbegan.1.source
  have hdestination := hbegan.1.destination
  rw [if_pos hpush] at hsource hdestination
  rwa [hsource, hdestination] at hout

namespace V2

/-- The call ends the session of the connection. If that is a push session, the export has gone
from the tree at its START to the goal of the manifest of the client. -/
def Arrived [Sha256] (root : Root) (past : List Occurrence) (e : Occurrence)
    (connection : ConnectionId) : Prop :=
  ∃ s ∈ e.pre.1.base.session, s.connection = connection ∧ ∃ before first o,
    past = before ++ first :: sinceStart past ∧ Occurrence.Began first root s o ∧
    (s.push = true → s.options.dryRun = false →
      Outcome s.root o.manifest o.remote s.options (first.pre.2 .tree).tree (e.post.2 .tree))

/-- The same for the second server, whose cache is not the tree. -/
theorem arrived_of_run [Sha256] {root : Root} {cache : Cache} {w : Disks} {is : List Input}
    {past fut : List Occurrence} {e : Occurrence} {connection : ConnectionId}
    (htemp : (w .tree).temp = none)
    (h : events step (.new root cache, w) is = past ++ e :: fut)
    (he : e.Answers connection (.common .finish)) : Arrived root past e connection := by
  obtain ⟨s, hsession, howner, before, first, o, hpast, hbegan, hrefines⟩ := refined_of_run h he
  refine ⟨s, hsession, howner, before, first, o, hpast, hbegan, fun hpush hreal => ?_⟩
  have hfirst : first ∈ events step (.new root cache, w) is := by
    rw [h, hpast]
    simp
  have htidy := (events_invariant (fun st : Server × Disks => (st.2 .tree).temp = none) htemp
    (fun st i hst => step_tidy hst i) hfirst).1
  have hcoherent := ((session_began h).1.base s hsession).1
  have hout := hrefines.outcome hcoherent htidy hpush hreal
  have hsource := hbegan.1.source
  have hdestination := hbegan.1.destination
  rw [if_pos hpush] at hsource hdestination
  rwa [hsource, hdestination] at hout

end V2

/-- A push that is finished has arrived, in every run of both servers. -/
theorem sessions_arrive [Sha256] (root : Root) (cache : Cache) (w : Disk) (ws : Disks)
    (htemp : w.temp = none) (htemps : (ws .tree).temp = none) (is : List Input)
    (js : List V2.Input) :
    (∀ past e fut connection, events step (⟨root, none⟩, w) is = past ++ e :: fut →
      e.Answers connection .finish → Arrived root past e connection) ∧
    ∀ past e fut connection, events V2.step (.new root cache, ws) js = past ++ e :: fut →
      e.Answers connection (.common .finish) → V2.Arrived root past e connection :=
  ⟨fun _ _ _ _ h he => arrived_of_run htemp h he,
    fun _ _ _ _ h he => V2.arrived_of_run htemps h he⟩

/-- The FINISH of the small push session of the first server. -/
theorem sessions_arrive_small : @Arrived emptySha .opened ((smallPushed .full).take 7)
    ((smallPushed .full).get ⟨7, by decide⟩) smallConnection := by
  have hlist : smallPushed .full = (smallPushed .full).take 7
      ++ (smallPushed .full).get ⟨7, by decide⟩ :: (smallPushed .full).drop 8 := by
    rw [List.get_eq_getElem, List.getElem_cons_drop, List.take_append_drop]
  refine (@sessions_arrive emptySha .opened ⟨"export", none⟩ smallDisk V2.smallServer.2
    rfl rfl (smallPush .full) []).1 _ _ _ _ hlist ⟨5, .full, rfl, ?_⟩
  decide +kernel

end RrSync

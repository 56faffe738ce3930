import RrSync.Proofs.Requests
import RrSync.Model.Run

/-!
# `RrSync.Proofs.Authority`: the permission of a request

The first server checks for full permission at START only. In a run in which no later request
of an owner with read permission passes the state machine, every change of the export is made
under full permission (`mutation_authorized`); `read_owner_pushes` is a run in which the
owner of a push session goes on with read permission.
-/

set_option autoImplicit false

namespace RrSync

open Lib

/-- A request of the owner of a push session, with read permission, that the state machine
lets pass. -/
def Unauthorized (st : Server × Disk) (i : Input) : Prop :=
  ∃ now s request, i = .handle now s.connection .read request ∧ st.1.session = some s ∧
    s.push = true ∧ s.Admits request ∧ (s.options.dryRun = true → request = .finish)

section
variable [Sha256] {st : Server × Disk}

/-- Without full permission and without such a request, a call only looks at the disk. -/
theorem quiet_of_authorized {now : Instant} {connection : ConnectionId}
    {permission : Permission} {request : Message} (hfull : permission ≠ .full)
    (h : ¬ Unauthorized st (.handle now connection permission request)) :
    Prog.Quiet exec (st.1.handle now connection permission request) := by
  refine quiet_of_reads (Server.calls_handle (Server.calls_handleInner (fun _ hc => hc) ?_))
  intro s hdeny hs howner
  have hread : permission = .read := by
    cases permission with
    | deny => exact absurd rfl hdeny
    | read => rfl
    | full => exact absurd rfl hfull
  subst hread
  -- In a push session the request is not admitted, so no step runs.
  have hno : s.push = true → ({ s with activity := now } : Session).Admits request →
      (s.options.dryRun = true → request = .finish) → False := by
    intro hpush ha hdry
    refine h ⟨now, s, request, howner ▸ rfl, hs, hpush, ?_, hdry⟩
    cases request <;> exact ha
  have hdry (h : s.options.dryRun = false) : s.options.dryRun = true → request = .finish := by
    rw [h]
    exact nofun
  constructor
  · intro ha hpush hd
    exact (hno hpush ha (hdry hd)).elim
  · intro i resource f e hr ha hd
    subst hr
    exact (hno ha.1.1 ha (hdry hd)).elim
  · intro hr ha hpush hd
    exact (hno hpush ha (hdry hd)).elim

/-- Such a request apart, what the owner of a push session asks with read permission is
refused, and the session is gone. -/
theorem refused_of_authorized {now : Instant} {s : Session} {request : Message}
    (hst : st.1.Coherent) (hs : st.1.session = some s) (hpush : s.push = true)
    (h : ¬ Unauthorized st (.handle now s.connection .read request)) :
    (∃ err, (step st (.handle now s.connection .read request)).1 = .reply (.error err)) ∧
      (step st (.handle now s.connection .read request)).2.1.session = none := by
  rw [step_handle]
  rcases Server.handle_cases hst now s.connection .read request st.2 with
    ⟨reply, hr, hacc⟩ | ⟨e, hr, -, hdis⟩
  · exfalso
    generalize ((st.1.handle now s.connection .read request).runOk exec st.2).1.2 = server' at hacc
    cases hacc with
    | start _ _ idle =>
      rw [hs] at idle
      cases idle
    | serve _ active _ dry served =>
      -- If it were served, it would be an unauthorized mutation.
      cases hs.symm.trans active
      refine h ⟨now, s, request, rfl, hs, hpush, ?_, dry⟩
      have ha := served.admits
      cases request <;> exact ha
  · refine ⟨⟨e, congrArg Output.reply hr⟩, ?_⟩
    show Server.session _ = none
    rw [hdis, Server.disconnect, hs]
    simp

/-- In a run in which no owner of a push session gets a request with read permission past the
state machine, the export changes only under full permission, and such a request is refused
and ends the session. -/
theorem mutation_authorized (root : Root) (w : Disk) (is : List Input)
    (h : ∀ e ∈ events step (⟨root, none⟩, w) is, ¬ Unauthorized e.pre e.input) :
    ∀ e ∈ events step (⟨root, none⟩, w) is,
      (∀ w', During e.pre w' e.input → w'.tree ≠ e.pre.2.tree →
        ∃ now connection request, e.input = .handle now connection .full request) ∧
      ∀ now s request, e.input = .handle now s.connection .read request →
        e.pre.1.session = some s → s.push = true →
          (∃ err, e.output = .reply (.error err)) ∧ e.post.1.session = none := by
  intro e he
  obtain ⟨hcoh, hev⟩ := events_coherent he
  have ha := h e he
  constructor
  · intro w' hw hne
    cases hi : e.input with
    | handle now connection permission request =>
      rw [hi] at ha hw
      -- With less than full permission nothing changes.
      by_cases hfull : permission = .full
      · exact ⟨now, connection, request, hfull ▸ rfl⟩
      · rcases hw with rfl | hv
        · exact absurd rfl hne
        · rw [quiet_of_authorized hfull ha _ _ hv] at hne
          exact absurd rfl hne
    | _ =>
      rw [hi] at hw
      exact absurd (congrArg Disk.tree hw) hne
  · intro now s request hi hs hpush
    rw [hi] at ha hev
    rw [hev]
    exact refused_of_authorized hcoh hs hpush ha

end

/-! ### A push session with read permission -/

/-- The connection of the session. -/
def smallConnection : ConnectionId := Vector.replicate 16 1

/-- A complete upload of the small source. The START has full permission. -/
def smallPush (permission : Permission) : List Input :=
  let file : ReceivedFile := ⟨Vector.replicate 32 0, [], 0, false⟩
  [.handle 0 smallConnection .full (.start true smallOptions "" smallSource),
    .handle 1 smallConnection permission (.begin 1), .receive smallConnection file,
    .handle 2 smallConnection permission (.commit 1 file.transferId),
    .handle 3 smallConnection permission (.begin 2), .receive smallConnection file,
    .handle 4 smallConnection permission (.commit 2 file.transferId),
    .handle 5 smallConnection permission .finish]

/-- The events of this run on the small disk. -/
def smallPushed (permission : Permission) : List (Event (Server × Disk) Input Output) :=
  events (@step emptySha) (⟨.opened, none⟩, smallDisk) (smallPush permission)

/-- The FINISH of this run removes a file, under full permission. -/
theorem mutation_authorized_small : ∃ now connection request,
    ((smallPushed .full).get ⟨7, by decide⟩).input = .handle now connection .full request := by
  have hrun := @mutation_authorized emptySha .opened smallDisk (smallPush .full) (by
    intro e he hu
    obtain ⟨now, s, request, hi, -⟩ := hu
    have hmem : e.input ∈ smallPush .full := by
      simp only [smallPush, events, List.mem_cons, List.not_mem_nil, or_false] at he
      rcases he with rfl | rfl | rfl | rfl | rfl | rfl | rfl | rfl <;> simp [event, smallPush]
    rw [hi] at hmem
    simp [smallPush] at hmem) _ (List.get_mem (smallPushed .full) ⟨7, by decide⟩)
  refine hrun.1 ((smallPushed .full).get ⟨7, by decide⟩).post.2 ?_ fun h => ?_
  · have hmoment := Prog.moment_run exec (@Server.handle emptySha
      ((smallPushed .full).get ⟨7, by decide⟩).pre.1 5 smallConnection .full .finish)
      ((smallPushed .full).get ⟨7, by decide⟩).pre.2
    rw [Prog.run_eq_runOk] at hmoment
    exact hmoment
  · have hget := congrArg (fun t => (t.get "c".utf8).isSome) h
    revert hget
    decide +kernel

/-- Every request with read permission is answered with OK, and the last one removes a
file. -/
theorem read_owner_pushes :
    (∀ e ∈ (smallPushed .read).drop 1, e.output = .reply (.ok (.message .ok)) ∨
      e.output = .received (.ok ())) ∧
    ∃ e ∈ smallPushed .read, e.input = .handle 5 smallConnection .read .finish ∧
      (e.pre.2.tree.get "c".utf8).isSome ∧ (e.post.2.tree.get "c".utf8).isNone := by
  decide +kernel

end RrSync

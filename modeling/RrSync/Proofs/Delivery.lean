import RrSync.Proofs.Outcome
import RrSync.Proofs.Survival

/-!
# `RrSync.Proofs.Delivery`: a pull that succeeds has arrived

`clients_receive` is about the end of a session of a client, where `clients_survive` is about its
moments. A pull that returns without an error has left the tree of the client at the goal of the
plan that the client made from the manifest of the peer. Nothing is assumed of the peer, and calls
on the disk of the client may have failed.

A pull is a program over the disk and a transport. The bridge is `Seat.fetch_run`: what it has done
to the tree is one run of its plan, with the contents that were received.
-/

set_option autoImplicit false

namespace RrSync

open Lib

namespace Seat

variable {T : Sig} {W α β : Type} {seat : Seat T W} {s s' : W} {m : Prog T Error α}

/-! ### Programs of a seat -/

/-- What a program on the tree does. -/
theorem on_run {m : FsM α} {r : Except Error α} (h : (seat.on m).run seat.handler s = (r, s')) :
    m.run exec (seat.disk s) = (r, seat.disk s') := by
  have hspec : Prog.Spec seat.handler (fun _ => True) (seat.on m) s
      fun r s' => m.run exec (seat.disk s) = (r, seat.disk s') := by
    refine seat.spec_on (Prog.spec_of_run (fun _ _ _ _ _ => trivial) fun s' hdisk _ => ?_)
    rw [hdisk]
  have hrun := hspec.run
  rwa [h] at hrun

/-- A program that runs aside leaves the disk alone. -/
theorem disk_of_run (seat : Seat T W) {r : Except Error α} (hm : seat.Aside m)
    (h : m.run seat.handler s = (r, s')) : seat.disk s' = seat.disk s := by
  have hend := disk_of_moment hm.touches (Prog.moment_run seat.handler m s)
  rwa [h] at hend

/-- A step away from the tree. -/
theorem aside_run (seat : Seat T W) {k : α → Prog T Error β} {b : β} (hm : seat.Aside m)
    (h : (m >>= k).run seat.handler s = (.ok b, s')) :
    ∃ a s₁, m.run seat.handler s = (.ok a, s₁) ∧ seat.disk s₁ = seat.disk s ∧
      (k a).run seat.handler s₁ = (.ok b, s') := by
  obtain ⟨a, s₁, hrun, hrest⟩ := Prog.run_bind_eq_ok.mp h
  exact ⟨a, s₁, hrun, seat.disk_of_run hm hrun, hrest⟩

/-! ### Pulls -/

section
variable [Sha256] {root : Root} {source destination : Manifest} {options : Options} {p : Plan}
  {body : Nat → Prog T Error Unit} {close : Prog T Error Unit} {is : List Nat}

/-- When the body of the loop succeeds, it has installed its file. -/
def Installs (seat : Seat T W) (root : Root) (source destination : Manifest) (p : Plan)
    (body : Nat → Prog T Error Unit) : Prop :=
  ∀ i s s', (body i).run seat.handler s = (.ok (), s') → ∃ e file, source.entries[i]? = some e ∧
    (install root e destination p file).run exec (seat.disk s) = (.ok (), seat.disk s')

/-- The loop installs the files one after the other. -/
theorem forM_run {w : Disk} (hsource : source.Valid options.checksum) (his : is.Nodup)
    (hbody : seat.Installs root source destination p body)
    (hprepare : (prepare root source p).run exec w = (.ok (), seat.disk s))
    (h : (is.forM body).run seat.handler s = (.ok (), s')) :
    ∃ contents, (installs root source destination p is contents).run exec w
      = (.ok (), seat.disk s') := by
  induction is using List.reverseRecOn generalizing s' with
  | nil =>
    obtain ⟨-, rfl⟩ := Prog.run_pure_eq_ok.mp h
    exact ⟨fun _ => [], Prog.run_bind_eq_ok.mpr ⟨(), _, hprepare, rfl⟩⟩
  | append_singleton is i ih =>
    obtain ⟨his, -, hi⟩ := List.nodup_append.mp his
    rw [Prog.forM_snoc] at h
    obtain ⟨_, s₁, hbefore, hturn⟩ := Prog.run_bind_eq_ok.mp h
    obtain ⟨e, file, he, hinstall⟩ := hbody i s₁ s' hturn
    obtain ⟨contents, hinstalls⟩ := ih his hbefore
    have hnew : i ∉ is := fun hmem => hi i hmem i (by simp) rfl
    exact ⟨_, installs_next hsource hnew he hinstalls hinstall⟩

/-- What a pull that succeeds has done to the tree is one run of its plan. -/
theorem fetch_run (hp : plan source destination options = .ok p)
    (hbody : seat.Installs root source destination p body) (hclose : seat.Aside close)
    (h : (seat.fetch root source p body close).run seat.handler s = (.ok (), s')) :
    ∃ contents, (runPlan root source destination p p.files contents).run exec (seat.disk s)
      = (.ok (), seat.disk s') := by
  obtain ⟨_, s₁, hprepare, h⟩ := Prog.run_bind_eq_ok.mp h
  obtain ⟨_, s₂, hloop, h⟩ := Prog.run_bind_eq_ok.mp h
  obtain ⟨_, s₃, -, hdisk, hfinish⟩ := seat.aside_run hclose h
  obtain ⟨contents, hfiles⟩ :=
    forM_run (plan_ok.mp hp).1 (nodup_files hp) hbody (on_run hprepare) hloop
  refine ⟨contents, ?_⟩
  rw [runPlan_eq]
  refine Prog.run_bind_eq_ok.mpr ⟨(), _, hfiles, ?_⟩
  rw [← hdisk]
  exact on_run hfinish

end

/-! ### Sessions -/

section
variable [Sha256] {root : Root} {scan : Scan} {job : SyncRequest} {remote : Manifest} {terms : Terms}

/-- The tree of the client has gone to the goal of a manifest that the peer has listed. -/
def Receives (seat : Seat T W) (root : Root) (scan : Scan) (job : SyncRequest) (terms : Terms)
    (s s' : W) : Prop :=
  ∃ remote, terms.listed (seat.said s') remote ∧
    Outcome root remote scan.manifest job.options (seat.disk s).tree (seat.disk s')

/-- What happens away from the tree changes nothing, before a session and after it. -/
theorem Receives.same {s₀ s'' : W} (h : seat.Receives root scan job terms s s')
    (hlasting : terms.Lasting) (h₀ : seat.disk s = seat.disk s₀)
    (hdisk : seat.disk s'' = seat.disk s') (hsaid : seat.said s' <+: seat.said s'') :
    seat.Receives root scan job terms s₀ s'' := by
  obtain ⟨remote, hlisted, hout⟩ := h
  refine ⟨remote, hlasting.listed _ _ _ hsaid hlisted, ?_⟩
  rwa [← h₀, hdisk]

/-- A pull that succeeds, once the peer has sent its manifest. -/
theorem pull_receives {body : Plan → Nat → Prog T Error Unit} {close : Prog T Error Unit}
    (hscan : (RrSync.scan root job.options.checksum).run exec (seat.disk s)
      = (.ok scan, seat.disk s))
    (htemp : (seat.disk s).temp = none) (hreal : job.options.dryRun = false)
    (hlisted : terms.listed (seat.said s) remote) (hlasting : terms.Lasting)
    (hbody : ∀ p, plan remote scan.manifest job.options = .ok p →
      seat.Installs root remote scan.manifest p (body p))
    (hclose : seat.Aside close)
    (h : ((liftM (plan remote scan.manifest job.options) : Prog T Error Plan) >>= fun p =>
      if job.options.dryRun then close else seat.fetch root remote p (body p) close).run
        seat.handler s = (.ok (), s')) : seat.Receives root scan job terms s s' := by
  have hsaid := said_of_run h
  obtain ⟨p, s₁, hplan, h⟩ := Prog.run_bind_eq_ok.mp h
  obtain ⟨hp, rfl⟩ := Prog.run_lift_eq_ok.mp hplan
  rw [if_neg (by simp [hreal])] at h
  obtain ⟨contents, hrun⟩ := fetch_run hp (hbody p hp) hclose h
  refine ⟨remote, hlasting.listed _ _ _ hsaid hlisted, ?_⟩
  exact runPlan_outcome hscan hp (List.Perm.refl _) htemp (run_plain_ok unmarked_runPlan hrun)

/-- The end of a session, away from the tree. -/
theorem close_receives {m : Prog T Error Unit} {close : Prog T Error Unit}
    (hlasting : terms.Lasting) (hclose : seat.Aside close)
    (hm : ∀ s', m.run seat.handler s = (.ok (), s') → seat.Receives root scan job terms s s')
    (h : (m.attempt >>= fun r => close >>= fun _ => liftM r : Prog T Error Unit).run
      seat.handler s = (.ok (), s')) : seat.Receives root scan job terms s s' := by
  obtain ⟨r, s₁, hattempt, h⟩ := Prog.run_bind_eq_ok.mp h
  obtain ⟨_, s₂, hrun, hdisk, h⟩ := seat.aside_run hclose h
  obtain ⟨rfl, rfl⟩ := Prog.run_lift_eq_ok.mp h
  rw [Prog.run_attempt] at hattempt
  obtain ⟨hr, hs⟩ := Prod.mk.inj hattempt
  have hok : m.run seat.handler s = (.ok (), s₁) := Prod.ext (Except.ok.inj hr) hs
  exact (hm s₁ hok).same hlasting rfl hdisk (said_of_run hrun)

end

end Seat

/-! ### The clients -/

section
variable [Sha256] {peer : Strategy LinkSig} {root : Root} {scan : Scan} {job : SyncRequest}
  {resume : V2.Resume} {source destination : Manifest} {p : Plan}

namespace Client

/-- The first client installs what it downloads. -/
theorem installs : (seat peer).Installs root source destination p
    (pullFile root source destination p) := by
  intro i s s' h
  obtain ⟨e, s₁, hindex, h⟩ := Prog.run_bind_eq_ok.mp h
  obtain ⟨he, rfl⟩ := Prog.run_lift_eq_ok.mp hindex
  obtain ⟨_, s₂, -, hget, h⟩ := (seat peer).aside_run (issues_ok (aside_link _)) h
  obtain ⟨received, s₃, -, hreceive, h⟩ :=
    (seat peer).aside_run (issues_receiveFile (aside_link _)) h
  obtain ⟨-, h⟩ := Prog.run_check_bind_eq_ok.mp h
  obtain ⟨_, s₄, -, hverified, h⟩ := (seat peer).aside_run (issues_ok (aside_link _)) h
  refine ⟨e, received.file, index_ok.mp he, ?_⟩
  rw [← hget, ← hreceive, ← hverified]
  exact (seat peer).on_run h

/-- So a pull of the first client that succeeds has received all files. -/
theorem receives {s s' : Disk × List (Lib.Exchange LinkSig)}
    (hscan : (RrSync.scan root job.options.checksum).run exec s.1 = (.ok scan, s.1))
    (htemp : s.1.temp = none) (hpull : job.push = false) (hreal : job.options.dryRun = false)
    (h : (synchronize root scan job).run (exec.sum peer.handler) s = (.ok (), s')) :
    (seat peer).Receives root scan job (terms job scan.manifest) s s' := by
  refine Seat.close_receives terms_lasting (issues_closeLink (aside_link _)) (fun s' h => ?_) h
  -- START, whose answer must be a manifest.
  obtain ⟨reply, s₁, hrequest, hdisk, h⟩ :=
    (seat peer).aside_run (issues_request (aside_link _)) h
  have hanswer := request_run hrequest
  cases reply with
  | manifest remote =>
    replace h : (if job.push then push root scan job.options remote
      else pull root scan job.options remote).run (seat peer).handler s₁ = (.ok (), s') := h
    -- Then the pull, from the same disk.
    rw [if_neg (by simp [hpull])] at h
    refine Seat.Receives.same ?_ terms_lasting hdisk rfl (List.prefix_refl _)
    refine Seat.pull_receives ?_ ?_ hreal hanswer terms_lasting (fun p _ => installs)
      (issues_ok (aside_link _)) h
    · rwa [hdisk]
    · rwa [hdisk]
  | _ => cases (Prod.mk.inj h).1

end Client

namespace V2.Client

/-- The second client installs what it has assembled. -/
theorem installs {path : String} : (seat peer).Installs root source destination p
    (pullFile root resume path source destination p) := by
  intro i s s' h
  obtain ⟨e, s₁, hindex, h⟩ := Prog.run_bind_eq_ok.mp h
  obtain ⟨he, rfl⟩ := Prog.run_lift_eq_ok.mp hindex
  obtain ⟨reply, s₂, -, hdescribe, h⟩ :=
    (seat peer).aside_run (issues_request (aside_link _)) h
  cases reply with
  | description actual d =>
    obtain ⟨-, h⟩ := Prog.run_check_bind_eq_ok.mp h
    obtain ⟨u, s₃, hvalid, h⟩ := Prog.run_bind_eq_ok.mp h
    have hfits := validateDescription_ok (Prog.run_lift_eq_ok.mp hvalid).1
    obtain ⟨-, rfl⟩ := Prog.run_lift_eq_ok.mp hvalid
    obtain ⟨store, s₄, -, hopen, h⟩ := (seat peer).aside_run aside_onCache h
    have hcount : (seat peer).Aside (dropping store (liftM d.chunks)) := aside_dropping trivial
    obtain ⟨chunks, s₅, -, hchunks, h⟩ := (seat peer).aside_run hcount h
    obtain ⟨state, s₆, hpages, hfold, h⟩ := (seat peer).aside_run
      (Prog.issues_foldlM fun _ _ _ => aside_pullPage) h
    obtain ⟨_, s₇, hput, h⟩ := Prog.run_bind_eq_ok.mp h
    have hclear := (seat peer).disk_of_run aside_onCache h
    obtain ⟨file, s₈, -, hassemble, hput⟩ := (seat peer).aside_run aside_onCache
      (Prog.run_onError_eq_ok.mp hput)
    obtain ⟨_, s₉, -, hverified, hput⟩ :=
      (seat peer).aside_run (issues_ok (aside_link _)) hput
    have hinstall := (seat peer).on_run hput
    rw [hverified, hassemble, hfold, hchunks, hopen, hdescribe, ← hclear] at hinstall
    -- The hash is the one of the description, and that fits the entry.
    refine ⟨e, file, index_ok.mp he, install_hash (fun x hx => ?_) hinstall⟩
    exact (hfits.2 x hx).trans (kept_pages hpages).2.symm
  | _ => cases (Prod.mk.inj h).1

/-- And its pulls have received all files as well. -/
theorem receives {s s' : State}
    (hscan : (RrSync.scan root job.options.checksum).run exec (s.1 .tree) = (.ok scan, s.1 .tree))
    (htemp : (s.1 .tree).temp = none) (hpull : job.push = false)
    (hreal : job.options.dryRun = false)
    (h : (synchronize root scan job resume).run (execVol.sum peer.handler) s = (.ok (), s')) :
    (seat peer).Receives root scan job (terms job resume scan.manifest) s s' := by
  refine Seat.close_receives terms_lasting (issues_closeLink (aside_link _)) (fun s' h => ?_) h
  obtain ⟨_, s₀, hcount, h⟩ := Prog.run_bind_eq_ok.mp h
  obtain ⟨-, rfl⟩ := Prog.run_lift_eq_ok.mp hcount
  -- START, whose answer must be a manifest.
  obtain ⟨reply, s₁, hrequest, hdisk, h⟩ :=
    (seat peer).aside_run (issues_request (aside_link _)) h
  have hanswer := request_run hrequest
  cases reply with
  | common m =>
    cases m with
    | manifest remote =>
      replace h : (if job.push then push root scan job resume remote
        else pull root scan job resume remote).run (seat peer).handler s₁ = (.ok (), s') := h
      -- Then the pull, from the same disk.
      rw [if_neg (by simp [hpull])] at h
      refine Seat.Receives.same ?_ terms_lasting hdisk rfl (List.prefix_refl _)
      refine Seat.pull_receives ?_ ?_ hreal hanswer terms_lasting (fun p _ => installs)
        (issues_ok (aside_link _)) h
      · rwa [hdisk]
      · rwa [hdisk]
    | _ => cases (Prod.mk.inj h).1
  | _ => cases (Prod.mk.inj h).1

end V2.Client

end

/-- A pull that a client ends without an error has arrived, whatever the peer answered. -/
theorem clients_receive [Sha256] {root : Root} {s : Scan} {job : SyncRequest} {w : Disk}
    (hscan : (scan root job.options.checksum).run exec w = (.ok s, w)) (htemp : w.temp = none)
    (hpull : job.push = false) (hreal : job.options.dryRun = false) (resume : V2.Resume)
    (peer : Strategy LinkSig) (said : List (Lib.Exchange LinkSig)) (ws : Disks)
    (htree : ws .tree = w) :
    (∀ w', (Client.synchronize root s job).run (exec.sum peer.handler) (w, said) = (.ok (), w') →
      (Client.seat peer).Receives root s job (Client.terms job s.manifest) (w, said) w') ∧
    ∀ ws', (V2.Client.synchronize root s job resume).run (execVol.sum peer.handler) (ws, said)
        = (.ok (), ws') →
      (V2.Client.seat peer).Receives root s job (V2.Client.terms job resume s.manifest)
        (ws, said) ws' := by
  subst htree
  exact ⟨fun _ h => Client.receives hscan htemp hpull hreal h,
    fun _ h => V2.Client.receives hscan htemp hpull hreal h⟩

/-- The small pull. All its files are empty, so the small peer sends what it has listed. -/
theorem clients_receive_small : ∃ s w', s.manifest = smallDestination ∧
    @Seat.Receives _ _ emptySha (Client.seat smallPeer) .opened s smallJob
      (@Client.terms emptySha smallJob s.manifest) (smallDisk, []) w' := by
  let := emptySha
  obtain ⟨s, hscan, hs⟩ := small_scan
  have hok : ((Client.synchronize .opened ⟨smallDestination, []⟩ smallJob).run
      (exec.sum smallPeer.handler) (smallDisk, [])).1 = .ok () := by decide +kernel
  have hsame : Client.synchronize .opened s smallJob
      = Client.synchronize .opened ⟨s.manifest, []⟩ smallJob := rfl
  rw [hs] at hsame
  have hrun : (Client.synchronize .opened s smallJob).run (exec.sum smallPeer.handler) (smallDisk, [])
      = (.ok (), ((Client.synchronize .opened s smallJob).run (exec.sum smallPeer.handler)
        (smallDisk, [])).2) := Prod.ext (hsame ▸ hok) rfl
  exact ⟨s, _, hs, (@clients_receive emptySha .opened s smallJob smallDisk hscan rfl rfl rfl
    ⟨⟨"local", none⟩, Vector.replicate 16 3, 4096⟩ smallPeer [] (fun _ => smallDisk) rfl).1 _ hrun⟩

end RrSync

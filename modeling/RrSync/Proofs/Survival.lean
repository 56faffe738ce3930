import RrSync.Proofs.Downloads
import RrSync.Proofs.Hostile
import RrSync.Proofs.Recovery

/-!
# `RrSync.Proofs.Survival`: a client and a peer that may answer anything

The peer is a strategy, so it answers each call as it likes. `Answered` reads an exchange in
what was said. The seats of both clients are given here, and their pulls are `Seat.fetch`.

`clients_survive` says what is left to the peer. It cannot make a client panic. It cannot make a
push or a dry run change the tree of the client. In a pull it decides what is fetched, but only at
the paths of the plan that its own manifest gives, outside of what is protected there.
-/

set_option autoImplicit false

namespace RrSync

open Lib

/-- In what was said, the message is answered with the reply. -/
def Answered {M : Type} (encode : M → Except Error Bytes) (decode : Bytes → Except Error M)
    (said : List (Lib.Exchange LinkSig)) (message reply : M) : Prop :=
  ∃ payload response, encode message = .ok payload ∧ decode response = .ok reply ∧
    (⟨.request payload, .ok response⟩ : Lib.Exchange LinkSig) ∈ said

/-- What was answered stays answered. -/
theorem Answered.mono {M : Type} {encode : M → Except Error Bytes}
    {decode : Bytes → Except Error M} {said more : List (Lib.Exchange LinkSig)}
    {message reply : M} (h : Answered encode decode said message reply) (hs : said <+: more) :
    Answered encode decode more message reply := by
  obtain ⟨payload, response, h1, h2, h3⟩ := h
  exact ⟨payload, response, h1, h2, hs.subset h3⟩

/-! ### The calls on the transport -/

section
variable {S : Sig} {W α β : Type} {P : (S.sum LinkSig).Call → Prop}

/-- A request is one call on the transport. -/
theorem issues_linkRequest (hP : ∀ c, P (.inr c)) {payload : Bytes} :
    (linkRequest payload : Prog (S.sum LinkSig) Error Bytes).Issues P :=
  ⟨hP _, fun _ => trivial⟩

/-- So is an upload. -/
theorem issues_sendFile (hP : ∀ c, P (.inr c)) {file : Bytes} {size : Nat} :
    (sendFile file size : Prog (S.sum LinkSig) Error TransferId).Issues P :=
  ⟨hP _, fun _ => trivial⟩

/-- So is a download. -/
theorem issues_receiveFile (hP : ∀ c, P (.inr c)) {size : Nat} :
    (receiveFile size : Prog (S.sum LinkSig) Error ReceivedFile).Issues P :=
  ⟨hP _, fun _ => trivial⟩

/-- So is the close. -/
theorem issues_closeLink (hP : ∀ c, P (.inr c)) :
    (closeLink : Prog (S.sum LinkSig) Error Unit).Issues P :=
  ⟨hP _, fun _ => trivial⟩

/-- What follows may rely on the value that was computed. -/
theorem issues_lift {x : Except Error β} {k : β → Prog (S.sum LinkSig) Error α}
    (hk : ∀ b, x = .ok b → (k b).Issues P) :
    (liftM x >>= k : Prog (S.sum LinkSig) Error α).Issues P := by
  cases x with
  | ok b => exact hk b rfl
  | error e => trivial

/-- A check issues no call. -/
theorem issues_check {c : Prop} [Decidable c] {e : Error} {k : β → Prog (S.sum LinkSig) Error α}
    {m : Prog (S.sum LinkSig) Error α} (hm : m.Issues P) :
    (if c then throw e >>= k else m).Issues P := by
  split
  · trivial
  · exact hm

/-- What comes back for a request is part of what was said. -/
theorem linkRequest_run {h : Prog.Handler S W} {peer : Strategy LinkSig} {payload response : Bytes}
    {s s' : W × List (Lib.Exchange LinkSig)}
    (hrun : (linkRequest payload : Prog (S.sum LinkSig) Error Bytes).run
      (h.sum peer.handler) s = (.ok response, s')) :
    (⟨.request payload, .ok response⟩ : Lib.Exchange LinkSig) ∈ s'.2 := by
  obtain ⟨hreply, rfl⟩ := Prod.mk.inj hrun
  refine List.mem_append_right _ (List.mem_singleton.mpr ?_)
  exact Sigma.ext rfl (heq_of_eq hreply.symm)

end

/-! ### The first client -/

namespace Client

section
variable {W : Type} {peer : Strategy LinkSig} {P : (FsSig.sum LinkSig).Call → Prop}

/-- A request calls on the transport only. -/
theorem issues_request (hP : ∀ c, P (.inr c)) {message : Message} : (request message).Issues P := by
  refine issues_lift fun _ _ => Prog.issues_bind (issues_linkRequest hP) fun _ =>
    issues_lift fun _ _ => ?_
  split <;> trivial

/-- So does a request that must be answered OK. -/
theorem issues_ok (hP : ∀ c, P (.inr c)) {message : Message} : (ok message).Issues P := by
  refine Prog.issues_bind (issues_request hP) fun _ => ?_
  split <;> trivial

/-- A request that returns a message was answered with it. -/
theorem request_run {message reply : Message} {s s' : Disk × List (Lib.Exchange LinkSig)}
    (h : (request message).run (exec.sum peer.handler) s = (.ok reply, s')) :
    Answered Message.encode Message.decode s'.2 message reply := by
  obtain ⟨payload, _, hencode, h⟩ := Prog.run_bind_eq_ok.mp h
  obtain ⟨hpayload, rfl⟩ := Prog.run_lift_eq_ok.mp hencode
  obtain ⟨response, s₁, hlink, h⟩ := Prog.run_bind_eq_ok.mp h
  obtain ⟨result, _, hdecode, h⟩ := Prog.run_bind_eq_ok.mp h
  obtain ⟨hresult, rfl⟩ := Prog.run_lift_eq_ok.mp hdecode
  have hend : result = reply ∧ s₁ = s' := by
    cases result with
    | error code text => cases (Prod.mk.inj h).1
    | _ => exact Prog.run_pure_eq_ok.mp h
  obtain ⟨rfl, rfl⟩ := hend
  exact ⟨payload, response, hpayload, hresult, linkRequest_run hlink⟩

/-- A request that must be answered OK was answered so. -/
theorem ok_run {message : Message} {s s' : Disk × List (Lib.Exchange LinkSig)}
    (h : (ok message).run (exec.sum peer.handler) s = (.ok (), s')) :
    Answered Message.encode Message.decode s'.2 message .ok := by
  obtain ⟨reply, s₁, h1, h⟩ := Prog.run_bind_eq_ok.mp h
  obtain ⟨hok, h⟩ := Prog.run_check_eq_ok.mp h
  obtain ⟨-, rfl⟩ := Prog.run_pure_eq_ok.mp h
  obtain rfl := not_not.mp hok
  exact request_run h1

/-- The seat of the first client. -/
def seat (peer : Strategy LinkSig) :
    Seat (FsSig.sum LinkSig) (Disk × List (Lib.Exchange LinkSig)) where
  handler := exec.sum peer.handler
  disk := Prod.fst
  said := Prod.snd
  call? := Sum.elim some fun _ => none
  on := onDisk
  still c s h := by
    cases c with
    | inl c => cases h
    | inr c => rfl
  moves c s f h := by
    cases c with
    | inl c =>
      cases h
      rfl
    | inr c => cases h
  grows c s := by
    cases c with
    | inl c => exact List.prefix_refl _
    | inr c => exact List.prefix_append _ _
  issues_on hm := Prog.issues_left (hm.mono fun c hc f hf => Option.some.inj hf ▸ hc)
  spec_on hm := Prog.spec_left (hm.mono (fun d hd => hd _ rfl rfl) fun r d hd => hd _ rfl rfl)

/-- The calls on the transport do not touch the tree. -/
theorem aside_link (P : FsCall → Prop) (c : LinkCall) : (seat peer).Touches P (.inr c) :=
  fun _ h => by cases h

end

section
variable [Sha256] {peer : Strategy LinkSig} {root : Root} {source destination : Manifest} {p : Plan}

/-- The content of a file fits its entry. -/
def fits : Goodness := fun _ _ e data => data.length = e.size ∧ ∀ x ∈ e.hash, x = digest data

/-- What the listed entry says of a content does not depend on what is said later. -/
theorem fits_lasting : Seat.Lasting fits := fun _ _ _ _ _ _ h => h

/-- The first client fetches a file as `Fetches` asks: it stages nothing else, and places only what
fits. -/
theorem fetches : (seat peer).Fetches root source destination p fits
    (pullFile root source destination p) where
  calls _ he hinstall := by
    refine issues_lift fun d hd => ?_
    obtain rfl := Option.some.inj (he.symm.trans (index_ok.mp hd))
    refine Prog.issues_bind (issues_ok (aside_link _)) fun _ =>
      Prog.issues_bind (issues_receiveFile (aside_link _)) fun received =>
      issues_check (Prog.issues_bind (issues_ok (aside_link _)) fun _ => ?_)
    exact (seat peer).issues_on (hinstall _ received.file rfl)
  placed {i e s₀ s} _ he hs := by
    refine Seat.spec_aside_bind fits_lasting trivial hs fun d s₁ hd hs => ?_
    obtain rfl := Option.some.inj (he.symm.trans (index_ok.mp (Prog.run_lift_eq_ok.mp hd).1))
    refine Seat.spec_aside_bind fits_lasting (issues_ok (aside_link _)) hs fun _ s₂ _ hs => ?_
    refine Seat.spec_aside_bind fits_lasting (issues_receiveFile (aside_link _)) hs
      fun received s₃ _ hs => Prog.spec_check (Seat.fetched_error hs) fun _ => ?_
    refine Seat.spec_aside_bind fits_lasting (issues_ok (aside_link _)) hs fun _ s₄ _ hs => ?_
    exact Seat.spec_install rfl (fun hsize hhash => ⟨hsize, hhash⟩) hs

/-- What the first client takes from the things that were said. -/
def terms (job : SyncRequest) (manifest : Manifest) : Seat.Terms where
  listed said remote := Answered Message.encode Message.decode said
    (.start job.push job.options job.path manifest) (.manifest remote)
  good := fits
  closed said := Answered Message.encode Message.decode said .finish .ok

/-- The terms of a session only ask for what was said. -/
theorem terms_lasting {job : SyncRequest} {manifest : Manifest} : (terms job manifest).Lasting where
  listed _ _ _ hs h := h.mono hs
  good := fits_lasting
  closed _ _ hs h := h.mono hs

omit [Sha256] in
/-- A push reads the tree. -/
theorem reads_push {scan : Scan} {options : Options} {remote : Manifest} :
    (push root scan options remote).Issues ((seat peer).Touches FsCall.Reads) := by
  refine issues_lift fun p _ => ?_
  split
  · exact issues_ok (aside_link _)
  refine Prog.issues_bind (Prog.issues_forM fun i _ => ?_) fun _ =>
    Prog.issues_bind ((seat peer).issues_on (Session.calls_checkSource fun _ => id)) fun _ =>
      issues_ok (aside_link _)
  refine issues_lift fun e _ => issues_lift fun stamp _ =>
    Prog.issues_bind ((seat peer).issues_on calls_snapshot) fun _ =>
      Prog.issues_bind (issues_ok (aside_link _)) fun _ =>
        Prog.issues_bind (issues_sendFile (aside_link _)) fun _ => ?_
  exact Prog.issues_bind ((seat peer).issues_on calls_ensureUnchanged) fun _ =>
    issues_ok (aside_link _)

/-- Every moment of a session of the first client. -/
theorem survives {scan : Scan} {job : SyncRequest} {s s' : Disk × List (Lib.Exchange LinkSig)}
    (hs : (synchronize root scan job).Moment (exec.sum peer.handler) s s') :
    (seat peer).Survives root scan job (terms job scan.manifest) s s' := by
  refine Seat.survives_close terms_lasting (issues_closeLink (aside_link _)) (fun s' hs => ?_) hs
  refine Seat.survives_bind terms_lasting (issues_request (aside_link _)) (fun reply s₁ hrun hs => ?_) hs
  have hanswer := request_run hrun
  cases reply with
  | manifest remote =>
    replace hs : (if job.push then push root scan job.options remote
      else pull root scan job.options remote).Moment (seat peer).handler s₁ s' := hs
    by_cases hpush : job.push = true
    · rw [if_pos hpush] at hs
      exact .still (Seat.disk_of_moment reads_push hs)
    · rw [if_neg hpush] at hs
      exact Seat.survives_pull (Bool.eq_false_iff.mpr hpush) hanswer (fun p _ => fetches)
        (issues_ok (aside_link _)) terms_lasting (fun _ _ => ok_run) hs
  | _ => exact Seat.survives_throw hs

end

end Client

/-! ### The second client -/

namespace V2.Client

section
variable {peer : Strategy LinkSig} {P : ((FsSig.vol Volume).sum LinkSig).Call → Prop}

/-- The disks of the second client, and what it has said. -/
abbrev State := Disks × List (Lib.Exchange LinkSig)

section
variable [Sha256]

/-- A request calls on the transport only. -/
theorem issues_request (hP : ∀ c, P (.inr c)) {message : Message} : (request message).Issues P := by
  refine issues_lift fun _ _ => Prog.issues_bind (issues_linkRequest hP) fun _ =>
    issues_lift fun _ _ => ?_
  split <;> trivial

/-- So does a request that must be answered OK. -/
theorem issues_ok (hP : ∀ c, P (.inr c)) {message : Message} : (ok message).Issues P := by
  refine Prog.issues_bind (issues_request hP) fun _ => ?_
  split <;> trivial

/-- A request that returns a message was answered with it. -/
theorem request_run {message reply : Message} {s s' : State}
    (h : (request message).run (execVol.sum peer.handler) s = (.ok reply, s')) :
    Answered Message.encode Message.decode s'.2 message reply := by
  obtain ⟨payload, _, hencode, h⟩ := Prog.run_bind_eq_ok.mp h
  obtain ⟨hpayload, rfl⟩ := Prog.run_lift_eq_ok.mp hencode
  obtain ⟨response, s₁, hlink, h⟩ := Prog.run_bind_eq_ok.mp h
  obtain ⟨result, _, hdecode, h⟩ := Prog.run_bind_eq_ok.mp h
  obtain ⟨hresult, rfl⟩ := Prog.run_lift_eq_ok.mp hdecode
  have hend : result = reply ∧ s₁ = s' := by
    split at h
    · cases (Prod.mk.inj h).1
    · exact Prog.run_pure_eq_ok.mp h
  obtain ⟨rfl, rfl⟩ := hend
  exact ⟨payload, response, hpayload, hresult, linkRequest_run hlink⟩

/-- A request that must be answered OK was answered so. -/
theorem ok_run {message : Message} {s s' : State}
    (h : (ok message).run (execVol.sum peer.handler) s = (.ok (), s')) :
    Answered Message.encode Message.decode s'.2 message (.common .ok) := by
  obtain ⟨reply, s₁, h1, h⟩ := Prog.run_bind_eq_ok.mp h
  obtain ⟨hok, h⟩ := Prog.run_check_eq_ok.mp h
  obtain ⟨-, rfl⟩ := Prog.run_pure_eq_ok.mp h
  obtain rfl := not_not.mp hok
  exact request_run h1

end

/-- The call on the tree that a call of the second client is. -/
def treeCall : ((FsSig.vol Volume).sum LinkSig).Call → Option FsCall
  | .inl (.tree, c) => some c
  | _ => none

/-- The two volumes are different. -/
theorem tree_ne_cache : Volume.tree ≠ .cache := by decide

/-- The seat of the second client. Its disk is that of the tree. -/
def seat (peer : Strategy LinkSig) : Seat ((FsSig.vol Volume).sum LinkSig) State where
  handler := execVol.sum peer.handler
  disk s := s.1 .tree
  said := Prod.snd
  call? := treeCall
  on m := onDisks (onTree m)
  still c s h := by
    rcases c with ⟨volume, c⟩ | c
    · cases volume with
      | tree => cases h
      | cache =>
        show Function.update s.1 Volume.cache (exec c (s.1 .cache)).2 .tree = _
        rw [Function.update_of_ne tree_ne_cache]
    · rfl
  moves c s f h := by
    rcases c with ⟨volume, c⟩ | c
    · cases volume with
      | tree =>
        cases h
        show Function.update s.1 Volume.tree _ .tree = _
        rw [Function.update_self]
        rfl
      | cache => cases h
    · cases h
  grows c s := by
    cases c with
    | inl c => exact List.prefix_refl _
    | inr c => exact List.prefix_append _ _
  issues_on hm := Prog.issues_left (Prog.issues_atVol
    (hm.mono fun c hc f hf => Option.some.inj hf ▸ hc))
  spec_on {α m s I Q} hm := by
    have hself (d : Disk) : Function.update s.1 Volume.tree d .tree = d := Function.update_self ..
    exact Prog.spec_left (Prog.spec_atVol
      (hm.mono (fun d hd => hd _ (hself d) rfl) fun r d hd => hd _ (hself d) rfl))

/-- The calls on the transport do not touch the tree. -/
theorem aside_link (P : FsCall → Prop) (c : LinkCall) : (seat peer).Touches P (.inr c) :=
  fun _ h => by cases h

/-- What happens in the cache is away from the tree. -/
theorem aside_onCache {α : Type} {m : FsM α} : (seat peer).Aside (onDisks (onCache m)) := by
  refine Prog.issues_left (Prog.issues_atVol (Prog.Issues.mono (P := fun _ => True) ?_
    fun c _ f hf => by cases hf))
  induction m with
  | done r => trivial
  | call c k ih => exact ⟨trivial, ih⟩

/-- Neither does dropping the store on an error. -/
theorem aside_dropping [Sha256] {α : Type} {store : Store} {m : ClientM α} (hm : (seat peer).Aside m) :
    (seat peer).Aside (dropping store m) := Prog.issues_onError hm aside_onCache

end

section
variable [Sha256] {peer : Strategy LinkSig} {root : Root} {resume : Resume} {path : String}
  {source destination : Manifest} {p : Plan} {index : UInt32}

/-- A chunk goes to the cache, not to the tree. -/
theorem aside_pullChunk {d : Description} {store : Store} {chunk : Nat} :
    (seat peer).Aside (pullChunk index d store chunk) := by
  refine Prog.issues_bind (aside_dropping ?_) fun _ =>
    Prog.issues_bind (aside_dropping (issues_ok (aside_link _))) fun _ => trivial
  exact Prog.issues_bind (issues_ok (aside_link _)) fun _ => issues_lift fun _ _ =>
    Prog.issues_bind (issues_receiveFile (aside_link _)) fun _ => issues_check aside_onCache

/-- So does a page. -/
theorem aside_pullPage {state : Description × Store} {start : Nat} :
    (seat peer).Aside (pullPage index state start) := by
  refine Prog.issues_bind (aside_dropping ?_) fun _ =>
    Prog.issues_bind (Prog.issues_foldlM fun _ _ _ => aside_pullChunk) fun _ => trivial
  refine Prog.issues_bind (issues_request (aside_link _)) fun reply => ?_
  cases reply with
  | hashes actual actualStart hashes =>
    exact issues_check (issues_lift fun _ _ => Prog.issues_bind aside_onCache fun _ =>
      issues_lift fun _ _ => trivial)
  | _ => trivial

/-- The pages of hashes change neither the size nor the hash of a description. -/
theorem returns_pullPage {state : Description × Store} {start : Nat} :
    (pullPage index state start).Returns fun r =>
      r.1.size = state.1.size ∧ r.1.hash = state.1.hash := by
  let R (r : Description × List Nat) : Prop := r.1.size = state.1.size ∧ r.1.hash = state.1.hash
  have hpage : ∀ m : ClientM (Description × List Nat), m.Returns R → (dropping state.2 m).Returns R :=
    fun _ => Prog.returns_onError
  refine Prog.returns_bind_returns (hpage _ (Prog.returns_bind fun reply => ?_)) fun r hr =>
    Prog.returns_bind fun _ => hr
  cases reply with
  | hashes actual actualStart hashes =>
    refine Prog.returns_check fun _ => Prog.returns_bind_returns (Prog.returns_lift fun d hd => hd)
      fun d hd => Prog.returns_bind fun _ => Prog.returns_bind fun _ => ?_
    obtain ⟨-, -, -, rfl⟩ := Description.setPage_ok.mp hd
    exact ⟨rfl, rfl⟩
  | _ => trivial

/-- The pages of a file do not change its size and its hash. -/
theorem kept_pages {state state' : Description × Store} {starts : List Nat} {s s' : State}
    (h : (starts.foldlM (pullPage index) state).run (seat peer).handler s = (.ok state', s')) :
    state'.1.size = state.1.size ∧ state'.1.hash = state.1.hash :=
  Prog.Returns.run (Prog.returns_foldlM
    (R := fun r => r.1.size = state.1.size ∧ r.1.hash = state.1.hash) ⟨rfl, rfl⟩
    fun _ _ _ hr => returns_pullPage.imp fun _ h => ⟨h.1.trans hr.1, h.2.trans hr.2⟩)
    (congrArg Prod.fst h)

/-- The content of a file is that of the description the peer gave, which fits the entry. -/
def described (chunkSize : UInt32) : Goodness := fun said i e data =>
  data.length = e.size ∧ ∃ d, Answered Message.encode Message.decode said
    (.describe (.ofNat i) chunkSize) (.description (.ofNat i) d) ∧
    d.size = e.size ∧ (∀ x ∈ e.hash, x = d.hash) ∧ d.hash = digest data

/-- What a description says of a content does not depend on what is said later. -/
theorem described_lasting {chunkSize : UInt32} : Seat.Lasting (described chunkSize) := by
  rintro said more i e data hs ⟨hsize, d, hd, hrest⟩
  exact ⟨hsize, d, hd.mono hs, hrest⟩

/-- The second client fetches a file as `Fetches` asks: everything before the install happens in the
cache. -/
theorem fetches : (seat peer).Fetches root source destination p (described resume.chunkSize)
    (pullFile root resume path source destination p) where
  calls {E i e} hi he hinstall := by
    refine issues_lift fun d hd => ?_
    obtain rfl := Option.some.inj (he.symm.trans (index_ok.mp hd))
    refine Prog.issues_bind (issues_request (aside_link _)) fun reply => ?_
    cases reply with
    | description actual d =>
      refine issues_check (issues_lift fun _ _ => Prog.issues_bind aside_onCache.touches fun store =>
        Prog.issues_bind (Prog.issues_onError trivial aside_onCache.touches) fun chunks => ?_)
      refine Prog.issues_bind (Prog.issues_foldlM fun _ _ _ => aside_pullPage.touches) fun state =>
        Prog.issues_bind (Prog.issues_onError ?_ aside_onCache.touches) fun _ =>
          aside_onCache.touches
      exact Prog.issues_bind aside_onCache.touches fun file =>
        Prog.issues_bind (issues_ok (aside_link _)) fun _ =>
          (seat peer).issues_on (hinstall _ file rfl)
    | _ => trivial
  placed {i e s₀ s} _ he hs := by
    refine Seat.spec_aside_bind described_lasting trivial hs fun d s₁ hd hs => ?_
    obtain rfl := Option.some.inj (he.symm.trans (index_ok.mp (Prog.run_lift_eq_ok.mp hd).1))
    refine Seat.spec_aside_bind described_lasting (issues_request (aside_link _)) hs
      fun reply s₂ hrun hs => ?_
    have hanswer := request_run hrun
    cases reply with
    | description actual d =>
      refine Prog.spec_check (Seat.fetched_error hs) fun hc => ?_
      simp only [ne_eq, Bool.or_eq_true, decide_eq_true_eq, not_or, Decidable.not_not] at hc
      obtain ⟨rfl, hchunk⟩ := hc
      refine Seat.spec_aside_bind described_lasting trivial hs fun u s₃ hvalid hs => ?_
      obtain ⟨hsize, hhash⟩ := validateDescription_ok (Prog.run_lift_eq_ok.mp hvalid).1
      obtain ⟨-, rfl⟩ := Prog.run_lift_eq_ok.mp hvalid
      refine Seat.spec_aside_bind described_lasting aside_onCache hs fun store s₄ hopen hs => ?_
      refine Seat.spec_aside_bind described_lasting (aside_dropping trivial) hs
        fun chunks s₅ hchunks hs => ?_
      refine Seat.spec_aside_bind described_lasting (Prog.issues_foldlM fun _ _ _ => aside_pullPage)
        hs fun state s₆ hpages hs => ?_
      have hkept := kept_pages hpages
      have hsaid := (((seat peer).said_of_run hopen).trans ((seat peer).said_of_run hchunks)).trans
        ((seat peer).said_of_run hpages)
      refine Prog.spec_bind.mpr ((Seat.spec_onError described_lasting aside_onCache ?_).imp ?_)
      · refine Seat.spec_aside_bind described_lasting aside_onCache hs fun file s₇ hfile hs => ?_
        refine Seat.spec_aside_bind described_lasting (issues_ok (aside_link _)) hs
          fun _ s₈ hok hs => ?_
        -- the content has the size and the hash that were described when it was installed
        refine Seat.spec_install rfl (fun hlen hdigest => ⟨hlen, d, ?_, hsize.symm, hhash, ?_⟩) hs
        · exact hanswer.mono ((hsaid.trans ((seat peer).said_of_run hfile)).trans
            ((seat peer).said_of_run hok))
        · exact hkept.2.symm.trans (hdigest _ rfl)
      · rintro (err | u) s₇ hs
        · exact hs
        · exact Seat.spec_fetched described_lasting aside_onCache hs
    | _ => exact Seat.fetched_error hs

/-- What the second client takes from the things that were said. -/
def terms (job : SyncRequest) (resume : Resume) (manifest : Manifest) : Seat.Terms where
  listed said remote := Answered Message.encode Message.decode said
    (.common (.start job.push job.options job.path manifest)) (.common (.manifest remote))
  good := described resume.chunkSize
  closed said := Answered Message.encode Message.decode said (.common .finish) (.common .ok)

/-- The terms of a session only ask for what was said. -/
theorem terms_lasting {job : SyncRequest} {manifest : Manifest} :
    (terms job resume manifest).Lasting where
  listed _ _ _ hs h := h.mono hs
  good := described_lasting
  closed _ _ hs h := h.mono hs

/-- A push changes nothing of the own tree. -/
theorem aside_pushPage {file : Bytes} {d : Description} {start : Nat} :
    (seat peer).Aside (pushPage file d index start) := by
  refine issues_lift fun hashes _ => Prog.issues_bind (issues_request (aside_link _)) fun reply => ?_
  cases reply with
  | missing actual actualStart actualCount chunks =>
    refine issues_check (issues_lift fun _ _ => issues_lift fun _ _ => Prog.issues_forM fun _ _ => ?_)
    exact issues_lift fun _ _ => Prog.issues_bind (issues_ok (aside_link _)) fun _ =>
      issues_lift fun _ _ => Prog.issues_bind (issues_sendFile (aside_link _)) fun _ =>
        issues_ok (aside_link _)
  | _ => trivial

variable {scan : Scan} {job : SyncRequest} {remote : Manifest}

/-- A push reads the tree. -/
theorem reads_push : (push root scan job resume remote).Issues ((seat peer).Touches FsCall.Reads) := by
  refine issues_lift fun p _ => ?_
  split
  · exact issues_ok (aside_link _)
  refine Prog.issues_bind (Prog.issues_forM fun i _ => ?_) fun _ =>
    Prog.issues_bind ((seat peer).issues_on (Session.calls_checkSource fun _ => id)) fun _ =>
      issues_ok (aside_link _)
  refine issues_lift fun e _ => issues_lift fun stamp _ =>
    Prog.issues_bind ((seat peer).issues_on calls_snapshot) fun file =>
      issues_lift fun d _ => issues_lift fun _ _ =>
        Prog.issues_bind (issues_ok (aside_link _)) fun _ => issues_lift fun _ _ => ?_
  exact Prog.issues_bind (Prog.issues_forM fun _ _ => aside_pushPage.touches) fun _ =>
    Prog.issues_bind ((seat peer).issues_on calls_ensureUnchanged) fun _ => issues_ok (aside_link _)

/-- Every moment of a session of the second client. -/
theorem survives {s s' : State}
    (hs : (synchronize root scan job resume).Moment (execVol.sum peer.handler) s s') :
    (seat peer).Survives root scan job (terms job resume scan.manifest) s s' := by
  refine Seat.survives_close terms_lasting (issues_closeLink (aside_link _)) (fun s' hs => ?_) hs
  have haside : (seat peer).Aside (liftM (Description.count 0 resume.chunkSize) : ClientM Nat) :=
    trivial
  refine Seat.survives_bind terms_lasting haside (fun _ s₀ _ hs => ?_) hs
  refine Seat.survives_bind terms_lasting (issues_request (aside_link _)) (fun reply s₁ hrun hs => ?_) hs
  have hanswer := request_run hrun
  cases reply with
  | common m =>
    cases m with
    | manifest remote =>
      replace hs : (if job.push then push root scan job resume remote
        else pull root scan job resume remote).Moment (seat peer).handler s₁ s' := hs
      -- A push only reads, and a pull survives by itself.
      by_cases hpush : job.push = true
      · rw [if_pos hpush] at hs
        exact .still (Seat.disk_of_moment reads_push hs)
      · rw [if_neg hpush] at hs
        exact Seat.survives_pull (Bool.eq_false_iff.mpr hpush) hanswer (fun p _ => fetches)
          (issues_ok (aside_link _)) terms_lasting (fun _ _ => ok_run) hs
    | _ => exact Seat.survives_throw hs
  | _ => exact Seat.survives_throw hs

end

end V2.Client

/-! ### Any peer -/

/-- The answers of a peer that lists the small source. -/
def smallAnswer (first : Bool) : Except Error Bytes :=
  (if first then .manifest smallSource else .ok : Message).encode

/-- A peer that lists the small source, confirms all that is asked and sends what it likes. -/
def smallPeer : Strategy LinkSig := fun said c => match c with
  | .request _ => smallAnswer said.isEmpty
  | .sendFile _ _ => .ok (Vector.replicate 32 0)
  | .receiveFile size => .ok ⟨Vector.replicate 32 0, List.replicate size 7, size, false⟩
  | .close => .ok ()

/-- This peer does not panic. -/
theorem smallPeer_calm (said : List (Lib.Exchange LinkSig)) (c : LinkCall) :
    c.Calm (smallPeer said c) := by
  have h (first : Bool) : RrSync.Calm (smallAnswer first) := Message.calm_encode _
  cases c with
  | request payload => exact h said.isEmpty
  | _ => trivial

/-- The pull of the small source. -/
def smallJob : SyncRequest := ⟨false, "", smallOptions⟩

/-- No reply of a peer panics a client that has scanned its tree. -/
theorem clients_calm [Sha256] {root : Root} {checksum : Bool} {s : Scan} {w₀ w : Disk}
    (hscan : (scan root checksum).run exec w₀ = (.ok s, w)) (job : SyncRequest) (resume : V2.Resume)
    {peer : Strategy LinkSig} (hpeer : ∀ said (c : LinkCall), c.Calm (peer said c)) (v : Disk) (vs : Disks) :
    RrSync.Calm ((Client.synchronize root s job).run (exec.sum peer.handler) (v, [])).1 ∧
    RrSync.Calm ((V2.Client.synchronize root s job resume).run (execVol.sum peer.handler)
      (vs, [])).1 := by
  have hs : s.Complete checksum := by
    have h := (@sound_scan root _ checksum).run exec w₀
    rwa [hscan] at h
  -- Closing the Link passes on the result.
  have hclose {S : Sig} {m : Prog (S.sum LinkSig) Error Unit} (hm : Tame (fun _ => True) m) :
      Tame (fun _ => True) (do
        let result ← m.attempt
        closeLink
        result) := by
    have hr : Tame (RrSync.Calm (α := Unit)) m.attempt := Prog.endsOn_attempt hm fun _ h => h
    exact tame_bind hr fun r h => tame_bind (Q := fun _ => True) (fun _ _ => trivial) fun _ _ => h
  -- The peer never gives a panic for an answer.
  have hon {S : Sig} {W : Type} {h : Prog.Handler S W} (c : (S.sum LinkSig).Call)
      (x : W × List (Lib.Exchange LinkSig)) : CalmLink c ((h.sum peer.handler) c x).1 := by
    cases c with
    | inl c => trivial
    | inr c => exact hpeer _ c
  exact ⟨(hclose (Client.tame_synchronizeInner hs)).run hon _,
    (hclose (V2.Client.tame_synchronizeInner hs)).run hon _⟩

/-- A client against this peer, which sends nothing of what it lists. -/
theorem clients_calm_small : ∃ s, s.manifest = smallDestination ∧
    RrSync.Calm ((@Client.synchronize emptySha .opened s smallJob).run
      (exec.sum smallPeer.handler) (smallDisk, [])).1 := by
  obtain ⟨s, hscan, hs⟩ := small_scan
  exact ⟨s, hs, (@clients_calm emptySha _ _ _ _ _ hscan smallJob
    ⟨⟨"local", none⟩, Vector.replicate 16 3, 4096⟩ _ smallPeer_calm smallDisk fun _ => smallDisk).1⟩

/-- Whatever the peer answers: at every moment of a session the tree of a client is as it was, or
it is what the pull of a plan has left of it, and the plan is that of a manifest of the peer. -/
theorem clients_survive [Sha256] (root : Root) (s : Scan) (job : SyncRequest) (resume : V2.Resume)
    (peer : Strategy LinkSig) (w : Disk × List (Lib.Exchange LinkSig)) (ws : V2.Client.State) :
    (∀ w', (Client.synchronize root s job).Moment (exec.sum peer.handler) w w' →
      (Client.seat peer).Survives root s job (Client.terms job s.manifest) w w') ∧
    ∀ ws', (V2.Client.synchronize root s job resume).Moment (execVol.sum peer.handler) ws ws' →
      (V2.Client.seat peer).Survives root s job (V2.Client.terms job resume s.manifest) ws ws' :=
  ⟨fun _ => Client.survives, fun _ => V2.Client.survives⟩

/-- The small pull. -/
theorem clients_survive_small : (Client.seat smallPeer).Survives .opened ⟨smallDestination, []⟩
    smallJob (@Client.terms emptySha smallJob smallDestination) (smallDisk, [])
    ((@Client.synchronize emptySha .opened ⟨smallDestination, []⟩ smallJob).run
      (exec.sum smallPeer.handler) (smallDisk, [])).2 :=
  (@clients_survive emptySha .opened ⟨smallDestination, []⟩ smallJob
    ⟨⟨"local", none⟩, Vector.replicate 16 3, 4096⟩ smallPeer (smallDisk, [])
    (fun _ => smallDisk, [])).1 _ (Prog.moment_run _ _ _)

end RrSync

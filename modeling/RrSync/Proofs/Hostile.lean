import RrSync.Lib.Strategy
import RrSync.Model.ClientV2
import RrSync.Proofs.NoPanic

/-!
# `RrSync.Proofs.Hostile`: no reply panics a client

`Tame R m` says of a program over a transport that it does not panic and that its values
satisfy `R`, for all replies of the disks and all replies of the transport that are not panics
themselves. What the peer sends is an index, a size or a page position only after a check:
both clients are tame.
-/

set_option autoImplicit false

namespace RrSync

open Lib

/-- The reply of a transport that has not panicked. -/
def LinkCall.Calm : (c : LinkCall) → c.Reply → Prop
  | .request _, r => RrSync.Calm r
  | .sendFile _ _, r => RrSync.Calm r
  | .receiveFile _, r => RrSync.Calm r
  | .close, r => RrSync.Calm r

/-- The disks may reply anything. -/
def CalmLink {S : Sig} : (c : (S.sum LinkSig).Call) → (S.sum LinkSig).Reply c → Prop
  | .inl _, _ => True
  | .inr c, r => c.Calm r

/-- Whatever the peer answers (short of a panic of the transport itself), every end is a value with
the property or an error that is no panic. -/
abbrev Tame {S : Sig} {α : Type} (R : α → Prop) (m : Prog (S.sum LinkSig) Error α) : Prop :=
  m.EndsOn CalmLink (Fine R)

/-! ### Rules -/

section
variable {S : Sig} {α β : Type} {R : α → Prop} {Q : β → Prop} {e : Error}

/-- Work on the own disks is tame when it is sound. -/
theorem tame_left {m : Prog S Error α} (hm : Sound R m) :
    Tame R (m.left : Prog (S.sum LinkSig) Error α) := (Prog.ends_left hm).on

/-- A computed result that does not panic. -/
theorem tame_lift {x : Except Error α} (h : Fine R x) :
    Tame R (liftM x : Prog (S.sum LinkSig) Error α) := h

/-- Two parts of a client in sequence. -/
theorem tame_bind {m : Prog (S.sum LinkSig) Error β} {f : β → Prog (S.sum LinkSig) Error α}
    (hm : Tame Q m) (hf : ∀ b, Q b → Tame R (f b)) : Tame R (m >>= f) :=
  Prog.endsOn_bind hm hf fun _ h => h

/-- A check that fails with an ordinary error. -/
theorem tame_check {c : Prop} [Decidable c] {k : β → Prog (S.sum LinkSig) Error α}
    {m : Prog (S.sum LinkSig) Error α} (he : ¬ e.IsPanic) (hm : ¬ c → Tame R m) :
    Tame R (if c then throw e >>= k else m) := by
  split
  · exact he
  · next hc => exact hm hc

/-- Both branches of a condition. -/
theorem tame_ite {c : Prop} [Decidable c] {m m' : Prog (S.sum LinkSig) Error α}
    (hm : c → Tame R m) (hm' : ¬ c → Tame R m') : Tame R (if c then m else m') := by
  split
  · next hc => exact hm hc
  · next hc => exact hm' hc

/-- A clean-up on errors that is tame itself. -/
theorem tame_onError {m : Prog (S.sum LinkSig) Error α} {cleanup : Prog (S.sum LinkSig) Error Unit}
    (hm : Tame R m) (hc : Tame (fun _ => True) cleanup) : Tame R (m.onError cleanup) := by
  have hr : Tame (Fine R) m.attempt := Prog.endsOn_attempt hm fun _ h => h
  refine tame_bind hr fun r hr => ?_
  cases r with
  | ok a => exact hr
  | error e => exact tame_bind hc fun _ _ => hr

/-- A loop of tame turns. -/
theorem tame_forM {xs : List α} {f : α → Prog (S.sum LinkSig) Error PUnit}
    (hf : ∀ x ∈ xs, Tame (fun _ => True) (f x)) : Tame (fun _ => True) (xs.forM f) := by
  induction xs with
  | nil => trivial
  | cons x xs ih =>
    refine tame_bind (hf x List.mem_cons_self) fun _ _ => ?_
    exact ih fun y hy => hf y (List.mem_cons_of_mem _ hy)

/-- A loop whose accumulator keeps a property. -/
theorem tame_foldlM {xs : List α} {f : β → α → Prog (S.sum LinkSig) Error β} {b : β} (hb : Q b)
    (hf : ∀ x ∈ xs, ∀ b, Q b → Tame Q (f b x)) : Tame Q (xs.foldlM f b) := by
  induction xs generalizing b with
  | nil => exact hb
  | cons x xs ih =>
    rw [List.foldlM_cons]
    refine tame_bind (hf x List.mem_cons_self b hb) fun b' hb' => ?_
    exact ih hb' fun y hy => hf y (List.mem_cons_of_mem _ hy)

/-- A request returns any bytes or an ordinary error. -/
theorem tame_linkRequest {payload : Bytes} :
    Tame (fun _ => True) (linkRequest payload : Prog (S.sum LinkSig) Error Bytes) := fun _ h => h

/-- An upload returns any id or an ordinary error. -/
theorem tame_sendFile {file : Bytes} {size : Nat} :
    Tame (fun _ => True) (sendFile file size : Prog (S.sum LinkSig) Error TransferId) := fun _ h => h

/-- A download returns any file or an ordinary error. -/
theorem tame_receiveFile {size : Nat} :
    Tame (fun _ => True) (receiveFile size : Prog (S.sum LinkSig) Error ReceivedFile) := fun _ h => h

end

/-! ### The first client -/

namespace Client

/-- Whatever bytes come back, decoding them does not panic. -/
theorem tame_request {message : Message} : Tame (fun _ => True) (request message) := by
  refine tame_bind (tame_lift (Message.calm_encode _)) fun _ _ =>
    tame_bind tame_linkRequest fun _ _ => tame_bind (tame_lift (Message.calm_decode _)) fun r _ => ?_
  split
  · exact id
  · trivial

/-- Nor does the comparison with OK. -/
theorem tame_ok {message : Message} : Tame (fun _ => True) (ok message) :=
  tame_bind tame_request fun _ _ => tame_ite (fun _ => id) fun _ => trivial

section
variable {root : Root} {scan : Scan} {checksum : Bool} {options : Options} {remote : Manifest}

/-- A push indexes its own plan, and stamps that its own scan has. -/
theorem tame_push (hs : scan.Complete checksum) :
    Tame (fun _ => True) (push root scan options remote) := by
  refine tame_bind (tame_lift (fine_ok fine_plan)) fun p hp => tame_ite (fun _ => tame_ok) fun _ => ?_
  refine tame_bind (tame_forM fun i hi => ?_) fun _ _ =>
    tame_bind (tame_left (Session.fair_checkSource hs)) fun _ _ => tame_ok
  refine tame_bind (tame_lift (fine_index (file_lt hp.1 hi))) fun e he => ?_
  obtain ⟨stamp, hstamp⟩ := hs.stamped e (List.mem_of_getElem? he)
  refine tame_bind (Q := fun _ => True) (tame_lift (by rw [hstamp]; trivial)) fun _ _ => ?_
  exact tame_bind (tame_left fair_snapshot) fun _ _ => tame_bind tame_ok fun _ _ =>
    tame_bind tame_sendFile fun _ _ => tame_bind (tame_left fair_ensureUnchanged) fun _ _ => tame_ok

variable [Sha256]

/-- A pull indexes the manifest that its plan is for. -/
theorem tame_pull : Tame (fun _ => True) (pull root scan options remote) := by
  refine tame_bind (tame_lift (fine_ok fine_plan)) fun p hp => tame_ite (fun _ => tame_ok) fun _ => ?_
  refine tame_bind (tame_left (fair_prepare fun i hi => directory_lt hp.1 hi)) fun _ _ =>
    tame_bind (tame_forM fun i hi => ?_) fun _ _ => tame_bind tame_ok fun _ _ =>
      tame_left (fair_finish fun i hi => directory_lt hp.1 hi)
  · refine tame_bind (tame_lift (fine_index (file_lt hp.1 hi))) fun e _ => ?_
    exact tame_bind tame_ok fun _ _ => tame_bind tame_receiveFile fun _ _ =>
      tame_check id fun _ => tame_bind tame_ok fun _ _ => tame_left fair_install

/-- A whole session of the first client. -/
theorem tame_synchronizeInner (hs : scan.Complete checksum) {job : SyncRequest} :
    Tame (fun _ => True) (synchronizeInner root scan job) := by
  refine tame_bind tame_request fun reply _ => ?_
  cases reply with
  | manifest remote => exact tame_ite (fun _ => tame_push hs) fun _ => tame_pull
  | _ => exact id

end

end Client

/-! ### The second client -/

namespace V2.Client

/-- Work on the own tree. -/
theorem tame_onTree {α : Type} {R : α → Prop} {m : FsM α} (hm : Sound R m) :
    Tame R (onDisks (onTree m)) := tame_left (sound_onTree hm)

/-- Work on the own cache. -/
theorem tame_onCache {α : Type} {R : α → Prop} {m : FsM α} (hm : Sound R m) :
    Tame R (onDisks (onCache m)) := tame_left (sound_onCache hm)

/-- A difference that does not overflow. -/
theorem fine_checkedSub {a b : Nat} {site : String} (h : b ≤ a) :
    Calm (checkedSub a b site) := by
  unfold checkedSub
  rw [if_neg (Nat.not_lt.mpr h)]
  trivial

section
variable [Sha256]

/-- Whatever bytes come back, decoding them does not panic. -/
theorem tame_request {message : Message} : Tame (fun _ => True) (request message) := by
  refine tame_bind (tame_lift (Message.calm_encode _)) fun _ _ =>
    tame_bind tame_linkRequest fun _ _ => tame_bind (tame_lift (Message.calm_decode _)) fun r _ => ?_
  split
  · exact id
  · trivial

/-- Nor does the comparison with OK. -/
theorem tame_ok {message : Message} : Tame (fun _ => True) (ok message) :=
  tame_bind tame_request fun _ _ => tame_ite (fun _ => id) fun _ => trivial

/-- The store is dropped on an error, which does not panic. -/
theorem tame_dropping {α : Type} {R : α → Prop} {store : Store} {m : ClientM α} (hm : Tame R m) :
    Tame R (dropping store m) := tame_onError hm (tame_onCache Store.fair_drop)

variable {root : Root} {scan : Scan} {checksum : Bool} {index : UInt32} {d : Description}

/-! #### Push -/

/-- A chunk that is sent. -/
theorem tame_pushChunk {file : Bytes} {chunk : UInt32} :
    Tame (fun _ => True) (pushChunk file d index chunk) :=
  tame_bind (tame_lift Description.fine_chunkFile.calm) fun _ _ => tame_bind tame_ok fun _ _ =>
    tame_bind (tame_lift Description.fine_length.calm) fun _ _ =>
      tame_bind tame_sendFile fun _ _ => tame_ok

/-- A page that is sent: the chunks that the peer asks for may be any, since each is checked before
it is read. -/
theorem tame_pushPage {file : Bytes} {start : Nat} :
    Tame (fun _ => True) (pushPage file d index start) := by
  refine tame_bind (tame_lift Description.fine_page) fun hashes _ =>
    tame_bind tame_request fun reply _ => ?_
  cases reply with
  | missing actual actualStart actualCount chunks =>
    refine tame_check invalid_fine fun _ => ?_
    refine tame_bind (tame_lift (fine_ok fine_validateMissing)) fun u hu => ?_
    have hlen := (validateMissing_bound hu.1).2
    exact tame_bind (tame_lift (fine_checkedSub hlen)) fun _ _ =>
      tame_forM fun _ _ => tame_pushChunk
  | _ => exact invalid_fine

/-- A file that is sent. -/
theorem tame_pushFile {chunkSize : UInt32} {i : Nat} (hs : scan.Complete checksum)
    (hi : i < scan.manifest.entries.length) :
    Tame (fun _ => True) (pushFile root scan chunkSize scan.manifest i) := by
  refine tame_bind (tame_lift (fine_index hi)) fun e he => ?_
  obtain ⟨stamp, hstamp⟩ := hs.stamped e (List.mem_of_getElem? he)
  refine tame_bind (Q := fun _ => True) (tame_lift (by rw [hstamp]; trivial)) fun _ _ =>
    tame_bind (tame_onTree fair_snapshot) fun _ _ =>
      tame_bind (tame_lift Description.fine_scan) fun d _ =>
        tame_bind (tame_lift fine_validateDescription) fun _ _ => tame_bind tame_ok fun _ _ => ?_
  refine tame_bind (Q := fun _ => True) (tame_lift (by rw [Description.chunks_eq]; trivial))
    fun _ _ => tame_bind (tame_forM fun _ _ => tame_pushPage) fun _ _ => ?_
  exact tame_bind (tame_onTree fair_ensureUnchanged) fun _ _ => tame_ok

/-! #### Pull -/

/-- A chunk that is fetched: what arrives is verified by the store. -/
theorem tame_pullChunk {store : Store} {chunk : Nat} :
    Tame (fun _ => True) (pullChunk index d store chunk) := by
  refine tame_bind (Q := fun _ => True) (tame_dropping ?_) fun _ _ =>
    tame_bind (tame_dropping tame_ok) fun _ _ => trivial
  exact tame_bind tame_ok fun _ _ => tame_bind (tame_lift Description.fine_length.calm) fun _ _ =>
    tame_bind tame_receiveFile fun _ _ => tame_check invalid_fine fun _ =>
      tame_onCache Store.fair_receive

/-- A page that is fetched: the hashes may be any. -/
theorem tame_pullPage {state : Description × Store} {start : Nat} :
    Tame (fun _ => True) (pullPage index state start) := by
  refine tame_bind (Q := fun _ => True) (tame_dropping ?_) fun r _ => ?_
  · refine tame_bind tame_request fun reply _ => ?_
    cases reply with
    | hashes actual actualStart hashes =>
      refine tame_check invalid_fine fun _ => tame_bind (tame_lift Description.fine_setPage) fun d hd =>
        tame_bind (tame_onCache Store.sound_missing) fun missing hmissing => ?_
      have hlen : missing.length ≤ hashes.length := by
        obtain ⟨-, -, hn, rfl⟩ := Description.setPage_ok.mp hd
        have hle := hmissing.length_le
        rw [List.length_map, List.length_range] at hle
        exact hle.trans hn.ge
      exact tame_bind (tame_lift (fine_checkedSub hlen)) fun _ _ => trivial
    | _ => exact invalid_fine
  · exact tame_bind (tame_foldlM (Q := fun _ => True) trivial fun _ _ _ _ => tame_pullChunk)
      fun _ _ => trivial

/-- A file that is fetched: the description may be any. -/
theorem tame_pullFile {resume : Resume} {path : String} {source destination : Manifest} {plan : Plan}
    {i : Nat} (hi : i < source.entries.length) :
    Tame (fun _ => True) (pullFile root resume path source destination plan i) := by
  refine tame_bind (tame_lift (fine_index hi)) fun e _ => tame_bind tame_request fun reply _ => ?_
  cases reply with
  | description actual d =>
    refine tame_check invalid_fine fun _ => tame_bind (tame_lift fine_validateDescription) fun _ _ =>
      tame_bind (tame_onCache fair_open) fun store _ => ?_
    refine tame_bind (Q := fun _ => True)
      (tame_dropping (tame_lift (by rw [Description.chunks_eq]; trivial))) fun _ _ => ?_
    refine tame_bind (tame_foldlM (Q := fun _ => True) trivial fun _ _ _ _ => tame_pullPage)
      fun _ _ => ?_
    refine tame_bind (Q := fun _ => True) (tame_dropping ?_) fun _ _ =>
      tame_onCache fair_clearCommitted
    exact tame_bind (tame_onCache Store.fair_assemble) fun _ _ => tame_bind tame_ok fun _ _ =>
      tame_onTree fair_install
  | _ => exact invalid_fine

/-! #### The session -/

variable {job : SyncRequest} {resume : Resume} {remote : Manifest}

/-- A push of the second client. -/
theorem tame_push (hs : scan.Complete checksum) :
    Tame (fun _ => True) (push root scan job resume remote) := by
  refine tame_bind (tame_lift (fine_ok fine_plan)) fun p hp => tame_ite (fun _ => tame_ok) fun _ => ?_
  exact tame_bind (tame_forM fun i hi => tame_pushFile hs (file_lt hp.1 hi)) fun _ _ =>
    tame_bind (tame_onTree (Session.fair_checkSource hs)) fun _ _ => tame_ok

/-- A pull of the second client. -/
theorem tame_pull : Tame (fun _ => True) (pull root scan job resume remote) := by
  refine tame_bind (tame_lift (fine_ok fine_plan)) fun p hp => tame_ite (fun _ => tame_ok) fun _ => ?_
  exact tame_bind (tame_onTree (fair_prepare fun i hi => directory_lt hp.1 hi)) fun _ _ =>
    tame_bind (tame_forM fun i hi => tame_pullFile (file_lt hp.1 hi)) fun _ _ =>
      tame_bind tame_ok fun _ _ => tame_onTree (fair_finish fun i hi => directory_lt hp.1 hi)

/-- A whole session of the second client. -/
theorem tame_synchronizeInner (hs : scan.Complete checksum) :
    Tame (fun _ => True) (synchronizeInner root scan job resume) := by
  refine tame_bind (tame_lift Description.fine_count) fun _ _ => tame_bind tame_request fun reply _ => ?_
  cases reply with
  | common m =>
    cases m with
    | manifest remote => exact tame_ite (fun _ => tame_push hs) fun _ => tame_pull
    | _ => exact invalid_fine
  | _ => exact invalid_fine

end

end V2.Client

end RrSync

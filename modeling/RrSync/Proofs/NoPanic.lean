import RrSync.Proofs.Service

/-!
# `RrSync.Proofs.NoPanic`: nothing a peer sends makes a server panic

A panic poisons the mutex that guards the service. The decoders are followed from reader to
reader, which never panic whatever the bytes are. The engines never panic in a state that can
be reached, because their invariants say that every index and every key is there. The handler
answers an error with a message that always has an encoding.
-/

set_option autoImplicit false

namespace RrSync

open Lib

/-- A result that is no panic. -/
abbrev Calm {α : Type} (x : Except Error α) : Prop := Fine (fun _ => True) x

/-- Code with a known value does not panic. -/
theorem Fine.calm {α : Type} {R : α → Prop} {x : Except Error α} (h : Fine R x) : Calm x :=
  h.imp fun _ _ => trivial

/-- A loop whose turns do not panic. -/
theorem calm_foldlM {α β : Type} {xs : List α} {f : β → α → Except Error β} {b : β}
    (hf : ∀ b x, Calm (f b x)) : Calm (xs.foldlM f b) := by
  induction xs generalizing b with
  | nil => trivial
  | cons x xs ih =>
    rw [List.foldlM_cons]
    exact fine_seq (hf b x) fun b => ih

/-! ### Readers -/

/-- A reader that does not panic, whatever it reads from. -/
def Steady {α : Type} (r : Reader α) : Prop := ∀ s, Calm (r s)

namespace Reader

section
variable {α β : Type}

/-- `pure` reads nothing. -/
theorem steady_pure (a : α) : Steady (pure a : Reader α) := fun _ => trivial

/-- An ordinary error. -/
theorem steady_throw {e : Error} (h : ¬ e.IsPanic) : Steady (throw e : Reader α) := fun _ => h

/-- A computed result that does not panic. -/
theorem steady_lift {x : Except Error α} (h : Calm x) : Steady (liftM x : Reader α) :=
  fun _ => fine_seq h fun _ => trivial

/-- Two readers in sequence. -/
theorem steady_bind {r : Reader α} {f : α → Reader β} (hr : Steady r) (hf : ∀ a, Steady (f a)) :
    Steady (r >>= f) := fun s => fine_seq (hr s) fun p => hf p.1 p.2

/-- A reader that chooses by a condition. -/
theorem steady_ite {c : Prop} [Decidable c] {r r' : Reader α} (h : c → Steady r)
    (h' : ¬ c → Steady r') : Steady (if c then r else r') := by
  split
  · next hc => exact h hc
  · next hc => exact h' hc

/-- A check in front of a reader. -/
theorem steady_check {c : Prop} [Decidable c] {e : Error} {f : β → Reader α} {r : Reader α}
    (he : ¬ e.IsPanic) (hr : Steady r) : Steady (if c then throw e >>= f else r) := by
  split
  · exact fun _ => he
  · exact hr

end

/-- Too few bytes are an ordinary error. -/
theorem steady_take (n : Nat) : Steady (take n) := fun _ => fine_ite (fun _ => id) fun _ => trivial

/-- The bytes that were taken are as many as the array needs. -/
theorem steady_array (k : Nat) : Steady (array k) := by
  intro s
  unfold array
  split
  · exact id
  · trivial

/-- A byte. -/
theorem steady_u8 : Steady u8 := steady_bind (steady_array 1) fun _ => steady_pure _

/-- Four bytes. -/
theorem steady_u32 : Steady u32 := steady_bind (steady_take 4) fun _ => steady_pure _

/-- Eight bytes. -/
theorem steady_u64 : Steady u64 := steady_bind (steady_take 8) fun _ => steady_pure _

/-- An unknown boolean is an ordinary error. -/
theorem steady_boolean : Steady boolean :=
  steady_bind steady_u8 fun _ => steady_ite (fun _ => steady_pure _) fun _ =>
    steady_ite (fun _ => steady_pure _) fun _ => steady_throw id

/-- A string that is too long or no UTF-8 is an ordinary error. -/
theorem steady_string : Steady string := by
  refine steady_bind (steady_take 2) fun n => steady_check id (steady_bind (steady_take _) fun b => ?_)
  split
  · exact steady_pure _
  · exact steady_throw id

/-- An unknown kind is an ordinary error. -/
theorem steady_kind : Steady kind :=
  steady_bind steady_u8 fun _ => steady_ite (fun _ => steady_pure _) fun _ =>
    steady_ite (fun _ => steady_pure _) fun _ => steady_ite (fun _ => steady_pure _) fun _ => steady_throw id

/-- An optional hash. -/
theorem steady_hash : Steady hash :=
  steady_bind steady_boolean fun _ => steady_ite
    (fun _ => steady_bind (steady_array 32) fun _ => steady_pure _) fun _ => steady_pure _

/-- An entry of a manifest. -/
theorem steady_entry : Steady entry :=
  steady_bind steady_string fun _ => steady_bind steady_kind fun _ => steady_bind steady_u64 fun _ =>
    steady_bind steady_u64 fun _ => steady_bind steady_u32 fun _ => steady_bind steady_hash fun _ =>
    steady_pure _

/-- The entries of a manifest. -/
theorem steady_entries (n : Nat) : Steady (entries n) := by
  induction n with
  | zero => exact steady_pure _
  | succ n ih => exact steady_bind steady_entry fun _ => steady_bind ih fun _ => steady_pure _

/-- A manifest that is too long or not valid is an ordinary error. -/
theorem steady_manifest : Steady manifest :=
  steady_bind steady_u32 fun _ => steady_check id (steady_bind (steady_entries _) fun _ =>
    steady_bind (steady_lift fine_manifest) fun _ => steady_pure _)

/-- Unknown flags are an ordinary error. -/
theorem steady_options : Steady options :=
  steady_bind steady_u8 fun _ => steady_check id (steady_pure _)

/-- An unknown tag is an ordinary error. -/
theorem steady_body (tag : UInt8) : Steady (body tag) := by
  unfold body
  refine steady_ite (fun _ => ?_) fun _ => steady_ite (fun _ => ?_) fun _ => steady_ite (fun _ => ?_)
    fun _ => steady_ite (fun _ => ?_) fun _ => steady_ite (fun _ => ?_) fun _ => steady_ite (fun _ => ?_)
    fun _ => steady_ite (fun _ => ?_) fun _ => steady_ite (fun _ => ?_) fun _ => steady_ite (fun _ => ?_)
    fun _ => steady_throw id
  · exact steady_bind steady_boolean fun _ => steady_bind steady_options fun _ =>
      steady_bind steady_string fun _ => steady_bind steady_manifest fun _ => steady_pure _
  · exact steady_bind steady_manifest fun _ => steady_pure _
  · exact steady_bind steady_u32 fun _ => steady_pure _
  · exact steady_bind steady_u32 fun _ => steady_bind (steady_array 32) fun _ => steady_pure _
  · exact steady_bind steady_u32 fun _ => steady_pure _
  · exact steady_bind steady_u32 fun _ => steady_pure _
  · exact steady_pure _
  · exact steady_pure _
  · exact steady_bind steady_u8 fun _ => steady_bind steady_string fun _ => steady_check id (steady_pure _)

/-- A whole message. -/
theorem steady_message : Steady message :=
  steady_bind steady_u8 fun _ => steady_check id (steady_bind steady_u8 fun _ => steady_body _)

end Reader

/-- `Message::decode` panics on no bytes. -/
theorem Message.calm_decode (bytes : Bytes) : Calm (Message.decode bytes) :=
  fine_check id fun _ => fine_seq (Reader.steady_message _) fun _ => fine_check id fun _ => trivial

/-! ### Readers of the second protocol -/

namespace V2

/-- The check of a file index does not panic. -/
theorem fine_fileIndex {index : UInt32} : Calm (fileIndex index) :=
  fine_ite (fun _ => id) fun _ => trivial

/-- The check of a page does not panic. -/
theorem fine_pageRange {start : UInt32} {count : Nat} : Calm (pageRange start count) :=
  fine_ite (fun _ => id) fun _ => trivial

/-- The subtraction is made only when the chunk is not before the page. -/
theorem fine_missingFrom {start : UInt32} {count : Nat} {previous : Option UInt32}
    {chunks : List UInt32} : Calm (missingFrom start count previous chunks) := by
  induction chunks generalizing previous with
  | nil => trivial
  | cons chunk chunks ih =>
    have hrest (outside : Bool) : Calm (if outside || previous.any (fun p => chunk ≤ p) then
        throw (.protocol "missing chunks must be strictly increasing and in range") >>= fun _ =>
          missingFrom start count (some chunk) chunks
        else missingFrom start count (some chunk) chunks : Except Error Unit) :=
      fine_check (β := PUnit) id fun _ => ih
    refine fine_ite (fun _ => hrest true) fun h => ?_
    have hle : start.toNat ≤ chunk.toNat := by simpa [UInt32.lt_iff_toNat_lt] using h
    rw [checkedSub, if_neg (Nat.not_lt.mpr hle)]
    exact hrest _

/-- The check of a list of chunks does not panic. -/
theorem fine_validateMissing {chunks : List UInt32} {start : UInt32} {count : Nat} :
    Calm (validateMissing chunks start count) :=
  fine_seq fine_pageRange fun _ => fine_check id fun _ => fine_missingFrom

/-- A description that is not possible is an ordinary error. -/
theorem fine_header [Sha256] {size : Nat} {chunkSize : UInt32} {hash : Hash} :
    Calm (Description.header size chunkSize hash) := by
  refine fine_bind Description.fine_count fun n hg => fine_check id fun _ => ?_
  rw [dif_pos hg]
  trivial

namespace Reader

open RrSync.Reader

/-- Several arrays, one after the other. -/
theorem steady_arrays (k n : Nat) : Steady (arrays k n) := by
  induction n with
  | zero => exact steady_pure _
  | succ n ih => exact steady_bind (steady_array k) fun _ => steady_bind ih fun _ => steady_pure _

variable [Sha256]

/-- The tags that are left over are not those of a message of the second protocol. -/
theorem steady_body (tag : UInt8) (htag : 10 ≤ tag ∧ tag ≤ 20) (index : UInt32) :
    Steady (body tag index) := by
  have hcount (size : Nat) (c : UInt32) : Calm (Description.count size c) :=
    Description.fine_count.calm
  unfold body
  -- One goal for each tag, in the order of the source.
  refine steady_ite (fun _ => ?_) fun h10 => steady_ite (fun _ => ?_) fun h11 =>
    steady_ite (fun _ => ?_) fun h12 => steady_ite (fun _ => ?_) fun h19 =>
    steady_ite (fun _ => ?_) fun h20 => steady_ite (fun _ => ?_) fun h13 =>
    steady_ite (fun _ => ?_) fun h17 => steady_ite (fun _ => ?_) fun h18 => ?_
  · exact steady_bind steady_u32 fun _ => steady_bind (steady_lift (hcount _ _)) fun _ => steady_pure _
  · exact steady_bind steady_u64 fun _ => steady_check id (steady_bind steady_u32 fun _ =>
      steady_bind (steady_lift (hcount _ _)) fun _ => steady_bind (steady_array 32) fun _ =>
      steady_bind (steady_lift fine_header) fun _ => steady_pure _)
  · exact steady_bind steady_u32 fun _ => steady_bind steady_u32 fun _ =>
      steady_bind (steady_lift fine_pageRange) fun _ => steady_bind steady_u32 fun _ =>
      steady_check id (steady_bind (steady_take _) fun _ =>
        steady_bind (steady_lift fine_validateMissing) fun _ => steady_pure _)
  · exact steady_bind steady_u32 fun _ => steady_bind (steady_lift fine_pageRange) fun _ => steady_pure _
  · exact steady_bind steady_u32 fun _ => steady_bind steady_u32 fun _ =>
      steady_bind (steady_lift fine_pageRange) fun _ => steady_bind (steady_arrays 32 _) fun _ =>
      steady_pure _
  · exact steady_bind steady_u32 fun _ => steady_ite (fun _ => steady_pure _) fun _ =>
      steady_ite (fun _ => steady_bind (steady_array 32) fun _ => steady_pure _) fun _ =>
      steady_ite (fun _ => steady_pure _) fun _ => steady_pure _
  · exact steady_pure _
  · exact steady_pure _
  · -- No tag is left.
    exfalso
    simp only [UInt8.le_iff_toNat_le, ← UInt8.toNat_inj] at htag h10 h11 h12 h19 h20 h13 h17 h18
    simp at htag h10 h11 h12 h19 h20 h13 h17 h18
    omega

/-- A message of the second protocol. A tag outside its range never gets to the reader of bodies,
whose last branch would panic. -/
theorem steady_message (tag : UInt8) : Steady (message tag) := by
  unfold message
  split
  · exact steady_throw id
  · next h =>
    exact steady_bind steady_u32 fun _ => steady_bind (steady_lift fine_fileIndex) fun _ =>
      steady_body tag (Decidable.not_not.mp h) _

end Reader

/-- `v2::Message::decode` panics on no bytes. -/
theorem Message.calm_decode [Sha256] (bytes : Bytes) : Calm (Message.decode bytes) := by
  refine fine_check id fun _ => fine_seq (RrSync.Reader.steady_u8 _) fun _ => fine_check id fun _ =>
    fine_seq (RrSync.Reader.steady_u8 _) fun _ => fine_ite (fun _ => ?_) fun _ => ?_
  · exact fine_seq (RrSync.Message.calm_decode _) fun _ => trivial
  · exact fine_seq (Reader.steady_message _ _) fun _ => fine_check id fun _ => trivial

end V2

/-! ### Writers -/

/-- A string that is too long is an ordinary error. -/
theorem Writer.calm_string {t : String} : Calm (string t) := fine_ite (fun _ => id) fun _ => trivial

/-- A manifest that is not valid is an ordinary error. -/
theorem Writer.calm_manifest {w : Bytes} {m : Manifest} : Calm (manifest w m) :=
  fine_seq fine_manifest fun _ => calm_foldlM fun _ _ => fine_seq calm_string fun _ =>
    fine_check id fun _ => trivial

/-- `Message::encode` does not panic. -/
theorem Message.calm_encode (m : Message) : Calm m.encode := by
  refine fine_seq ?_ fun _ => fine_check id fun _ => trivial
  cases m with
  | start push options path m => exact fine_seq Writer.calm_string fun _ => Writer.calm_manifest
  | manifest m => exact Writer.calm_manifest
  | error code text => exact fine_seq Writer.calm_string fun _ => trivial
  | _ => trivial

/-- The first protocol writes a version and a tag, so the second one finds both. -/
theorem V2.Message.calm_encode (m : V2.Message) : Calm m.encode := by
  have hrest {x : Except Error Bytes} (hx : Calm x) :
      Calm (do
        let w ← x
        if maxControl < w.length then throw (.protocol "control message limit")
        pure w) := fine_seq hx fun _ => fine_check id fun _ => trivial
  have hindex {index : UInt32} {x : Except Error Bytes} (hx : Calm x) :
      Calm (do
        fileIndex index
        x) := fine_seq fine_fileIndex fun _ => hx
  cases m with
  | common m =>
    refine fine_bind (fine_ok m.calm_encode) fun b hb => ?_
    -- The version is written over the first byte, which is there.
    obtain ⟨-, rfl, -⟩ := RrSync.Message.encode_ok.mp hb.1
    exact fine_seq (fine_index (by simp [RrSync.Message.bytes, Writer.u8])).calm fun _ =>
      fine_check id fun _ => trivial
  | describe index c =>
    exact hrest (hindex (fine_seq Description.fine_count.calm fun _ => trivial))
  | description index d => exact hrest (hindex (fine_check id fun _ => trivial))
  | hashesGet | hashes => exact hrest (hindex (fine_seq fine_pageRange fun _ => trivial))
  | missing => exact hrest (hindex (fine_seq fine_validateMissing fun _ => trivial))
  | _ => exact hrest (hindex trivial)

/-- Writing an answer does not panic. -/
theorem ServerReply.calm_outcome (reply : ServerReply) : Calm reply.outcome := by
  cases reply <;> exact fine_seq (Message.calm_encode _) fun _ => trivial

/-- Writing an answer of the second engine does not panic. -/
theorem V2.ServerReply.calm_outcome (reply : V2.ServerReply) : Calm reply.outcome := by
  cases reply <;> exact fine_seq (V2.Message.calm_encode _) fun _ => trivial

/-! ### The message of an error -/

/-- A character takes four bytes at most. -/
theorem length_utf8_le (cs : List Char) : (String.ofList cs).utf8.length ≤ 4 * cs.length := by
  induction cs with
  | nil => exact Nat.zero_le _
  | cons c cs ih =>
    rw [String.utf8_ofList_cons, List.length_append, String.length_utf8_singleton, List.length_cons]
    have := c.utf8Size_le_four
    omega

/-- The message of an error keeps within the limits of a message. -/
theorem Message.ofError_sendable (e : Error) : (Message.ofError e).Sendable := by
  show (String.ofList (e.display.toList.take 240)).utf8.length ≤ maxPath
  have h1 := length_utf8_le (e.display.toList.take 240)
  have h2 : (e.display.toList.take 240).length ≤ 240 := List.length_take_le _ _
  simp only [maxPath]
  omega

/-- It is never too long for a control message. -/
theorem Message.ofError_length (e : Error) : (Message.ofError e).bytes.length ≤ maxControl := by
  have h := ofError_sendable e
  simp only [ofError, Sendable, maxPath] at h
  simp only [ofError, bytes, fields, Writer.u8, Writer.u16, List.length_append, length_toBytes,
    List.length_singleton, maxControl]
  omega

/-- So every error can be answered. -/
theorem Message.encode_ofError (e : Error) :
    (Message.ofError e).encode = .ok (Message.ofError e).bytes :=
  encode_ok.mpr ⟨ofError_sendable e, rfl, ofError_length e⟩

/-- Every error can be answered in the second protocol too. -/
theorem V2.Message.encode_ofError (e : Error) :
    (common (.ofError e)).encode = .ok (common (.ofError e)).bytes := by
  refine encode_ok.mpr ⟨⟨nofun, RrSync.Message.ofError_sendable e, rfl⟩, rfl, ?_⟩
  have h := RrSync.Message.ofError_length e
  rwa [RrSync.Message.bytes] at h

/-! ### Calls -/

/-- The outputs of the engines and of the service that are no panics. -/
def Output.Calm : Output → Prop
  | .reply r => RrSync.Calm r
  | .received r => RrSync.Calm r
  | _ => True

/-- What a step of the second server returns is no panic. -/
def V2.Output.Calm : V2.Output → Prop
  | .reply r => RrSync.Calm r
  | .received r => RrSync.Calm r
  | _ => True

/-- What a step of the service returns is no panic. -/
def Service.Output.Calm : Service.Output → Prop
  | .reply result answer => RrSync.Calm result ∧ RrSync.Calm answer
  | .received r => RrSync.Calm r
  | _ => True

section
variable [Sha256]

/-- A step of the first server panics in no coherent state. -/
theorem step_calm {st : Server × Disk} (hs : st.1.Coherent) (i : Input) : (step st i).1.Calm := by
  cases i with
  | handle now connection permission request =>
    show Calm (Prog.runOk exec (st.1.handle now connection permission request) st.2).1.1
    rcases Server.handle_cases hs now connection permission request st.2 with
      ⟨reply, h, -⟩ | ⟨e, h, hfine, -⟩ <;> rw [h]
    · trivial
    · exact hfine
  | receive connection file =>
    obtain ⟨server, h, -⟩ := hs.receive connection file
    rw [step_receive, h]
    trivial
  | _ => trivial

/-- A step of the second server panics in no coherent state. -/
theorem V2.step_calm {st : Server × Disks} (hs : st.1.Coherent) (i : Input) :
    (step st i).1.Calm := by
  have h := step_turns hs i
  generalize (step st i).1 = o at h
  generalize (step st i).2.1 = server at h
  cases h with
  | refused fine => exact fine
  | _ => trivial

namespace Service

variable [TruncatedHash] {service : Service} {now : Instant} {link : ConnectionId} {path peer : Id}
  {permission : Permission} {data : Bytes}

omit [TruncatedHash] in
/-- A request of the second protocol does not panic the service. -/
theorem requestV2_calm (hs : service.Coherent) (w : Disks) :
    Calm ((service.requestV2 now link peer permission data).runOk execVol w).1.1 := by
  unfold requestV2
  split
  · exact id
  split
  · exact id
  next server hserver =>
    have hdecode := V2.Message.calm_decode data
    split
    · next e he =>
      rw [he] at hdecode
      exact hdecode
    · next request _ =>
      rw [Prog.runOk_bind]
      show Calm (((server.handle now link peer permission request).runOk execVol w).1.1.bind
        V2.ServerReply.outcome)
      -- The reply is what the engine accepts, or an error that is no panic.
      rcases V2.Server.handle_cases (hs.v2 server hserver) now link peer permission request w with
        ⟨reply, h, -⟩ | ⟨e, h, hfine, -⟩ <;> rw [h]
      · exact reply.calm_outcome
      · exact hfine

omit [TruncatedHash] in
/-- A request of the first protocol does not panic the service. -/
theorem requestV1_calm (hs : service.Coherent) (w : Disks) :
    Calm ((service.requestV1 now link permission data).runOk execVol w).1.1 := by
  unfold requestV1
  split
  · exact id
  have hdecode := Message.calm_decode data
  split
  · next e he =>
    rw [he] at hdecode
    exact hdecode
  · next request _ =>
    rw [Prog.runOk_bind, execVol, Prog.runOk_atVol]
    show Calm (((service.engine.handle now link permission request).runOk exec (w .tree)).1.1.bind
      ServerReply.outcome)
    rcases Server.handle_cases hs.engine now link permission request (w .tree) with
      ⟨reply, h, -⟩ | ⟨e, h, hfine, -⟩ <;> rw [h]
    · exact reply.calm_outcome
    · exact hfine

/-- No request panics the service. -/
theorem request_calm (hs : service.Coherent) (w : Disks) :
    Calm ((service.request now link path data).runOk execVol w).1.1 := by
  cases hversion : versionOf path with
  | none =>
    rw [request_unknown hversion]
    exact id
  | some version =>
    rw [request_known hversion]
    split
    · exact id
    split
    · exact id
    split
    · exact id
    next hfree =>
      -- Receiving what is queued does not fail.
      obtain ⟨h, hc⟩ := receive_eq (hs.pin ((any_free hversion).mp (Bool.eq_false_iff.mpr hfree)))
      rw [h]
      dsimp only
      split
      · exact requestV2_calm hc w
      · exact requestV1_calm hc w

omit [Sha256] in
/-- The `expect` of the handler always finds bytes. -/
theorem answer_calm (path : Id) (e : Error) : Calm (answer path e) := by
  unfold answer
  split
  · rw [V2.Message.encode_ofError]
    trivial
  · rw [Message.encode_ofError]
    trivial

/-- A step of the service panics in no coherent state. -/
theorem step_calm {st : Service × Disks} (hs : st.1.Coherent) (i : Input) :
    (step st i).1.Calm := by
  cases i with
  | request now link path data =>
    have h := @request_calm _ _ _ now link path data hs st.2
    rw [step_request, handler_eq]
    generalize (st.1.request now link path data).runOk execVol st.2 = r at h ⊢
    obtain ⟨⟨e | reply, service⟩, w⟩ := r
    · exact ⟨h, answer_calm path e⟩
    · exact ⟨h, h⟩
  | receive =>
    rw [step_receive, (receive_eq hs).1]
    trivial
  | _ => trivial

end Service

end

/-! ### The geometry of a description -/

/-- The numbers of chunks and pages stay in their types, and no computation with them
panics. -/
structure Description.Bounded (d : Description) : Prop where
  chunks : d.chunks = .ok d.chunkCount
  count : d.chunkCount < 2 ^ 32
  size : d.size < 2 ^ 63
  offset : ∀ i < d.chunkCount, i * d.chunkSize.toNat < d.size
  length : ∀ i, Calm (d.length i)
  chunkHash : ∀ i, Calm (d.chunkHash i)
  pageLen : ∀ start, Calm (d.pageLen start)
  pageEnd : ∀ start n, d.pageLen start = .ok n → start + n ≤ d.chunkCount
  setPage : ∀ start hashes, Calm (d.setPage start hashes)
  page : ∀ start, Calm (d.page start)
  chunkFile : ∀ file i, Calm (chunkFile file d i)

/-- The geometry of a description, which its constructors have checked. -/
theorem Description.bounded (d : Description) : d.Bounded where
  chunks := chunks_eq
  count := chunkCount_lt
  size := by
    have h := d.geometry.2.2
    simp only [maxFile] at h
    omega
  offset i := mul_lt_size.mp
  length _ := fine_length.calm
  chunkHash _ := fine_chunkHash.calm
  pageLen _ := fine_pageLen.calm
  pageEnd start n h := by
    obtain ⟨h1, -, h2⟩ := pageLen_ok.mp h
    omega
  setPage _ _ := fine_setPage.calm
  page _ := fine_page.calm
  chunkFile _ _ := fine_chunkFile.calm

/-! ### No message panics a server -/

/-- No byte string panics a decoder. In no reachable state of either engine does a call
panic, nor the check of an incoming file, and the page counter of a transfer stays within
the chunks of its description. The geometry of every description is bounded. Every error has
an encoding in both protocols, so no call of the service panics either. -/
theorem no_panic [Sha256] [TruncatedHash] :
    (∀ bytes, Calm (Message.decode bytes) ∧ Calm (V2.Message.decode bytes)) ∧
    (∀ (root : Root) (w : Disk) (is : List Input),
      let st := after step (⟨root, none⟩, w) is
      (∀ i, (step st i).1.Calm) ∧
      ∀ connection size hasMetadata, Calm (st.1.acceptsFile connection size hasMetadata)) ∧
    (∀ (root : Root) (cache : Cache) (w : Disks) (is : List V2.Input),
      let st := after V2.step (.new root cache, w) is
      (∀ i, (V2.step st i).1.Calm) ∧
      (∀ connection size hasMetadata, Calm (st.1.acceptsFile connection size hasMetadata)) ∧
      ∀ t ∈ st.1.transfer, t.nextPage ≤ t.description.chunkCount) ∧
    (∀ d : Description, d.Bounded) ∧
    (∀ e : Error, (∃ b, (Message.ofError e).encode = .ok b) ∧
      ∃ b, (V2.Message.common (.ofError e)).encode = .ok b) ∧
    ∀ (root : Root) (cache : Option Cache) (config : Config) (w : Disks) (is : List Service.Input),
      let st := after Service.step (.new root cache config, w) is
      ∀ i, (Service.step st i).1.Calm := by
  -- The decoders, the two servers in every reachable state, the geometry, the errors, and the
  -- service.
  refine ⟨fun bytes => ⟨Message.calm_decode bytes, V2.Message.calm_decode bytes⟩,
    fun root w is => ?_, fun root cache w is => ?_, Description.bounded,
    fun e => ⟨⟨_, Message.encode_ofError e⟩, _, V2.Message.encode_ofError e⟩,
    fun root cache config w is => ?_⟩
  · have hs := @after_invariant _ _ _ step (fun st => st.1.Coherent) ((⟨root, none⟩, w))
      (started_coherent root) (fun _ i hs => step_coherent hs i) is
    refine ⟨step_calm hs, fun connection size hasMetadata => ?_⟩
    obtain ⟨b, hb, -⟩ := hs.acceptsFile connection size hasMetadata
    rw [hb]
    trivial
  · have hs := @after_invariant _ _ _ V2.step (fun st => st.1.Coherent) ((.new root cache, w))
      (V2.started_coherent root cache) (fun _ i hs => V2.step_coherent hs i) is
    refine ⟨V2.step_calm hs, fun connection size hasMetadata => ?_, fun t ht => ?_⟩
    · obtain ⟨b, hb, -⟩ := V2.Server.acceptsFile_cases _ connection size hasMetadata
      rw [hb]
      trivial
    -- Without a session there is no transfer.
    · cases hsession : (after V2.step (V2.Server.new root cache, w) is).1.base.session with
      | none =>
        rw [(hs.idle hsession).1] at ht
        exact absurd ht (Option.not_mem_none _)
      | some s => exact (hs.transfer t ht s hsession).next_le
  · exact Service.step_calm (@after_invariant _ _ _ Service.step (fun st => st.1.Coherent) ((.new
      root cache config, w)) (Service.started_coherent root cache config) (fun _ i hs => Service.step_coherent hs i) is)

end RrSync

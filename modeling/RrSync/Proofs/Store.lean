import RrSync.Proofs.Geometry

/-!
# `RrSync.Proofs.Store`: the chunk store does not panic

Every function of the store ends without a panic, for every content of the cache directory.
`sound_missing` also says which chunks `missing` can name.
-/

set_option autoImplicit false

namespace RrSync

open Lib

/-! ### Names of files -/

/-- Eight hex digits are a number, so `unwrap` does not panic. -/
theorem fine_fromHex {b : Bytes} (h : b.all isHexDigit = true) :
    Fine (fun _ => True) (fromHex b) := by
  have hmap : ∃ digits, b.mapM hexValue? = some digits := by
    induction b with
    | nil => exact ⟨[], rfl⟩
    | cons x b ih =>
      rw [List.all_cons, Bool.and_eq_true] at h
      obtain ⟨v, hv⟩ := Option.isSome_iff_exists.mp h.1
      obtain ⟨vs, hvs⟩ := ih h.2
      exact ⟨v :: vs, by simp [List.mapM_cons, hv, hvs]⟩
  obtain ⟨digits, hd⟩ := hmap
  unfold fromHex
  rw [hd]
  trivial

/-- The length of a name is checked before its digits are read. -/
theorem fine_shardBytes {shard bytes : Nat} {child : String × Metadata} :
    Fine (fun _ => True) (shardBytes shard bytes child) := by
  refine fine_ite (fun h => ?_) fun _ => ?_
  · simp only [chunkName, Bool.and_eq_true] at h
    exact fine_seq (fine_fromHex h.2) fun _ =>
      fine_check id fun _ => fine_check id fun _ => trivial
  · exact fine_check id fun _ => fine_check id fun _ => trivial

/-! ### What a transfer directory holds -/

section
variable {root parent : Root} {path key : String}

/-- A loop whose turns do not panic. -/
theorem fair_foldlM {α β : Type} {xs : List α} {f : β → α → FsM β} {b : β}
    (hf : ∀ x ∈ xs, ∀ b, Fair (f b x)) : Fair (xs.foldlM f b) :=
  sound_foldlM trivial fun x hx b _ => hf x hx b

/-- A loop that appends at most one thing for each element. -/
theorem sound_collect {α β : Type} {xs : List α} {f : List β → α → FsM (List β)} {g : α → β}
    (hf : ∀ x ∈ xs, ∀ out, Sound (fun out' => out' = out ∨ out' = out ++ [g x]) (f out x))
    (out : List β) :
    Sound (fun out' => ∃ ys, ys.Sublist (xs.map g) ∧ out' = out ++ ys) (xs.foldlM f out) := by
  induction xs generalizing out with
  | nil => exact ⟨[], List.Sublist.slnil, by simp⟩
  | cons x xs ih =>
    rw [List.foldlM_cons]
    refine sound_bind (hf x (by simp) out) fun out₁ h₁ => ?_
    refine (ih (fun y hy => hf y (by simp [hy])) out₁).imp fun r hr => hr.imp fun out' h' => ?_
    obtain ⟨ys, hys, rfl⟩ := h'
    rcases h₁ with rfl | rfl
    · exact ⟨ys, hys.cons _, rfl⟩
    · exact ⟨g x :: ys, hys.cons_cons _, by simp⟩

/-- One object of a transfer. -/
theorem fair_payloadEntry {bytes : Nat} {child : String × Metadata} :
    Fair (payloadEntry root bytes child) := by
  refine sound_ite (fun _ => trivial) fun _ => sound_ite (fun _ => trivial) fun _ =>
    sound_check id fun h => ?_
  simp only [shardName, Bool.not_and, Bool.or_eq_true, Bool.not_eq_true', not_or,
    Bool.not_eq_false] at h
  exact fair_bind (sound_lift (fine_fromHex h.2.2)) fun _ => fair_bind fair_children fun _ =>
    fair_foldlM fun _ _ _ => sound_lift fine_shardBytes

/-- `payload_bytes` does not panic. -/
theorem fair_payloadBytes : Fair (payloadBytes root) :=
  fair_bind fair_children fun _ => fair_foldlM fun _ _ _ => fair_payloadEntry

/-- `remove_payload` does not panic. -/
theorem fair_removePayload : Fair (removePayload root) := by
  refine fair_bind fair_children fun _ => fair_bind (fair_foldlM fun _ _ _ => ?_) fun _ =>
    sound_ite (fun _ => fair_removeFiles) fun _ => trivial
  refine sound_ite (fun _ => trivial) fun _ => sound_ite (fun _ => ?_) fun _ => trivial
  exact fair_bind fair_children fun _ => fair_bind fair_removeFiles fun _ =>
    fair_bind fair_remove fun _ => trivial

/-- `read_activity` does not panic. -/
theorem fair_readActivity : Fair (readActivity root) := by
  refine sound_bind (sound_attempt fair_openFile) fun r hr => ?_
  split
  · trivial
  · exact hr
  · exact sound_ite (fun _ => trivial) fun _ => sound_ite (fun _ => trivial) fun _ => trivial

/-- A clock before the epoch is an ordinary error. -/
theorem fair_now : Fair now := by
  refine fair_bind (fair_sys _) fun r => ?_
  split
  · trivial
  · exact id

variable [Sha256]

/-- `write_activity` does not panic. -/
theorem fair_writeActivity {seconds : Nat} : Fair (writeActivity root seconds) :=
  fair_bind fair_stageInner fun _ => fair_scope fair_commit

/-- `expire` does not panic. -/
theorem fair_expire {retention now : Nat} : Fair (expire parent key retention now) := by
  refine fair_bind fair_children fun _ => fair_forM fun child _ => sound_ite (fun _ => trivial)
    fun _ => sound_check id fun _ => fair_bind (sound_lift fine_subtree) fun _ =>
    fair_bind fair_lockState fun _ => fair_bind fair_payloadBytes fun _ =>
    fair_bind fair_readActivity fun activity => ?_
  split
  · exact fair_writeActivity
  · exact sound_ite (fun _ => trivial) fun _ => fair_bind fair_removePayload fun _ =>
      fair_bind fair_remove fun _ => fair_bind fair_remove fun _ => fair_remove

end

/-! ### The store -/

namespace Store

section
variable [Sha256] {store : Store} {d : Description} {parent : Root} {scope : Hash}
  {limits : Limits} {index start : Nat} {key : String}

/-- `touch` does not panic. -/
theorem fair_touch : Fair store.touch :=
  fair_bind fair_now fun _ => sound_ite
    (fun _ => fair_bind fair_writeActivity fun _ => trivial) fun _ => trivial

/-- Dropping a store discards its errors. -/
theorem fair_drop : Fair (store.drop : FsM Unit) :=
  sound_bind (sound_attempt fair_touch) fun _ _ => trivial

/-- Opening a store does not panic. -/
theorem fair_openLocked : Fair (openLocked parent scope d) :=
  fair_bind fair_mkdir fun _ => fair_bind (sound_lift fine_subtree) fun _ =>
    fair_bind fair_lockState fun _ => fair_bind fair_now fun _ =>
    fair_bind fair_writeActivity fun _ => trivial

/-- Neither does it with the lock of the cache. -/
theorem fair_openShared : Fair (openShared parent scope d) :=
  fair_bind fair_lockState fun _ => fair_openLocked

omit [Sha256] in
/-- The name of a chunk exists within the file. -/
theorem fine_name : Fine (fun _ => index < d.chunkCount) (name d index) :=
  fine_bind Description.fine_length fun _ h => h.1

/-- Looking for room does not panic. -/
theorem fair_admission : Fair (admission parent key limits) := by
  have husage : ∀ child ∈ ([] : List (String × Metadata)), True := fun _ _ => trivial
  have hrest : Fair (do
      let usage ← (← parent.children "").foldlM (usageEntry parent key) (0, false, 0)
      if limits.maxTransfers < usage.1 + (if usage.2.1 then 0 else 1) ||
          limits.maxBytes < usage.2.2 then
        throw (.config "chunk cache quota exceeded; clean stale state while all users are stopped")
      pure usage.2.2 : FsM Nat) := by
    refine fair_bind fair_children fun _ => fair_bind (fair_foldlM fun child _ usage => ?_)
      fun _ => sound_check id fun _ => trivial
    exact sound_ite (fun _ => trivial) fun _ => sound_check id fun _ =>
      fair_bind (sound_lift fine_subtree) fun _ => fair_bind fair_payloadBytes fun _ =>
      sound_check id fun _ => trivial
  refine fair_bind fair_lockState fun _ => sound_ite (fun _ => ?_) fun _ => hrest
  exact fair_bind fair_now fun _ => fair_bind fair_expire fun _ => hrest

/-- Opening a store within limits does not panic. -/
theorem fair_openLimited : Fair (openLimited parent scope d limits) := by
  refine fair_bind fair_admission fun _ => fair_bind fair_openLocked fun store =>
    fair_bind (sound_onError ?_ fair_drop) fun _ => trivial
  refine fair_bind (sound_lift (by rw [Description.chunks_eq]; trivial)) fun _ =>
    fair_bind (fair_foldlM fun index _ needed => ?_) fun _ => sound_ite (fun _ => id) fun _ => trivial
  refine fair_bind (sound_lift (fine_name.imp fun _ _ => trivial)) fun _ =>
    fair_bind (sound_lift (Description.fine_length.imp fun _ _ => trivial)) fun _ =>
    fair_bind fair_exists fun _ => sound_ite (fun _ => trivial) fun _ => ?_
  exact fair_bind fair_metadata fun _ => trivial

/-- `verified` does not panic. -/
theorem fair_verified : Fair (store.verified d index) := by
  refine fair_bind (sound_lift (fine_name.imp fun _ _ => trivial)) fun _ =>
    sound_bind (sound_attempt fair_openFile) fun r hr => ?_
  split
  · trivial
  · exact hr
  refine fair_bind (sound_lift (Description.fine_length.imp fun _ _ => trivial)) fun _ =>
    sound_ite (fun _ => trivial) fun _ => ?_
  exact fair_bind (sound_lift (Description.fine_chunkHash.imp fun _ _ => trivial)) fun _ =>
    sound_ite (fun _ => trivial) fun _ => trivial

/-- What `missing` returns: chunks of the page, in their order. -/
theorem sound_missing : Sound (fun missing =>
    missing.Sublist ((List.range (min (d.chunkCount - start) pageChunks)).map (start + ·)))
    (store.missing d start) := by
  refine sound_bind (sound_lift (R := fun n => n = d.chunkCount)
    (by rw [Description.chunks_eq]; rfl)) fun n hn => ?_
  subst hn
  refine sound_ite (fun _ => List.nil_sublist _) fun _ => ?_
  refine sound_bind (sound_lift Description.fine_pageLen) fun n hn => ?_
  obtain ⟨-, -, rfl⟩ := hn
  refine (sound_collect (g := (start + ·)) (fun i _ out => ?_) []).imp fun out h => ?_
  · refine fair_bind fair_verified fun r => ?_
    split
    · exact .inr rfl
    · exact .inl rfl
  · refine h.imp fun out h => ?_
    obtain ⟨ys, hys, rfl⟩ := h
    exact hys

/-- `receive` does not panic. -/
theorem fair_receive {reader : Bytes} : Fair (store.receive d index reader) :=
  fair_bind (sound_lift (fine_name.imp fun _ _ => trivial)) fun _ => fair_bind fair_mkdir fun _ =>
    fair_bind (sound_lift (Description.fine_length.imp fun _ _ => trivial)) fun _ =>
    fair_bind (sound_lift (Description.fine_chunkHash.imp fun _ _ => trivial)) fun _ =>
    fair_bind fair_stageInner fun _ => fair_bind (fair_scope fair_commit) fun _ => fair_touch

/-- `assemble` does not panic. -/
theorem fair_assemble : Fair (store.assemble d) := by
  refine fair_bind (sound_lift (by rw [Description.chunks_eq]; trivial)) fun _ =>
    fair_bind (fair_foldlM fun index _ result => fair_bind fair_verified fun r => ?_) fun _ =>
    sound_check id fun _ => trivial
  split
  · trivial
  · exact id

/-- `clear` does not panic. -/
theorem fair_clear : Fair store.clear :=
  fair_bind fair_payloadBytes fun _ => fair_bind fair_removePayload fun _ => fair_touch

end

end Store

end RrSync

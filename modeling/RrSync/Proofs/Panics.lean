import RrSync.Proofs.Manifest

/-!
# `RrSync.Proofs.Panics`: programs that do not panic

`Sound R m` says of a program that its errors are no panics and its values satisfy `R`, for
all replies of the file system. There is one rule for each way programs are put together, and
a lemma for each function of `fs.rs` and `sync.rs`. An index or a key is looked up where the
plan or the scan guarantees that it is there; these guarantees are the hypotheses.
-/

set_option autoImplicit false

namespace RrSync

open Lib

/-- The error that stands for a panic of the source. -/
def Error.IsPanic : Error → Prop
  | .panic _ => True
  | _ => False

/-- The result of a computation that has not panicked. -/
def Fine {α : Type} (R : α → Prop) : Except Error α → Prop
  | .ok a => R a
  | .error e => ¬ e.IsPanic

/-- Every end of the program is a value with the property, or an error that is no panic. -/
abbrev Sound {S : Sig} {α : Type} (R : α → Prop) (m : Prog S Error α) : Prop := m.Ends (Fine R)

/-- A program that does not panic. -/
abbrev Fair {S : Sig} {α : Type} (m : Prog S Error α) : Prop := Sound (fun _ => True) m

/-! ### Rules -/

section
variable {S : Sig} {α β : Type} {R : α → Prop} {R' : β → Prop} {e : Error}

/-- A computed result that does not panic. -/
theorem sound_lift {x : Except Error α} (h : Fine R x) : Sound R (liftM x : Prog S Error α) := h

/-- In a sequence, the second program may rely on what the first one returns. -/
theorem sound_bind {m : Prog S Error β} {f : β → Prog S Error α} (hm : Sound R' m)
    (hf : ∀ b, R' b → Sound R (f b)) : Sound R (m >>= f) :=
  Prog.ends_bind hm hf fun _ h => h

/-- The same when nothing is known of what the first one returns. -/
theorem fair_bind {m : Prog S Error β} {f : β → Prog S Error α} (hm : Fair m)
    (hf : ∀ b, Sound R (f b)) : Sound R (m >>= f) := sound_bind hm fun b _ => hf b

/-- A weaker property of the value. -/
theorem Fine.imp {x : Except Error α} {P : α → Prop} (h : Fine R x) (hP : ∀ a, R a → P a) :
    Fine P x := by
  cases x with
  | ok a => exact hP a h
  | error e => exact h

/-- The rule of sequencing for pure code. -/
theorem fine_bind {x : Except Error β} {f : β → Except Error α} (hx : Fine R' x)
    (hf : ∀ b, R' b → Fine R (f b)) : Fine R (x >>= f) := by
  cases x with
  | ok b => exact hf b hx
  | error e => exact hx

/-- The same when nothing is known of the first value. -/
theorem fine_seq {x : Except Error β} {f : β → Except Error α} (hx : Fine (fun _ => True) x)
    (hf : ∀ b, Fine R (f b)) : Fine R (x >>= f) := fine_bind hx fun b _ => hf b

/-- Code that does not panic may be followed by what it returned. -/
theorem fine_ok {x : Except Error α} (hx : Fine R x) : Fine (fun a => x = .ok a ∧ R a) x := by
  cases x with
  | ok a => exact ⟨rfl, hx⟩
  | error e => exact hx

/-- A check in front of a computation, which may rest on it. -/
theorem fine_check {c : Prop} [Decidable c] {k : β → Except Error α} {x : Except Error α}
    (he : ¬ e.IsPanic) (hx : ¬ c → Fine R x) : Fine R (if c then throw e >>= k else x) := by
  split
  · exact he
  · next hc => exact hx hc

/-- Both branches of a condition, each under its own assumption. -/
theorem fine_ite {c : Prop} [Decidable c] {x y : Except Error α} (hx : c → Fine R x)
    (hy : ¬ c → Fine R y) : Fine R (if c then x else y) := by
  split
  · next hc => exact hx hc
  · next hc => exact hy hc

/-- A step that is taken only under a condition. -/
theorem fine_when {c : Prop} [Decidable c] {x : Except Error β} {f : β → Except Error α}
    {y : Except Error α} (hx : Fine (fun _ => True) x) (hf : ∀ b, Fine R (f b)) (hy : Fine R y) :
    Fine R (if c then x >>= f else y) := by
  split
  · exact fine_bind hx fun b _ => hf b
  · exact hy

/-- A check that fails with an ordinary error. The rest may assume that it passed. -/
theorem sound_check {c : Prop} [Decidable c] {k : β → Prog S Error α} {m : Prog S Error α}
    (he : ¬ e.IsPanic) (hm : ¬ c → Sound R m) : Sound R (if c then throw e >>= k else m) := by
  split
  · exact he
  · next hc => exact hm hc

/-- Both branches of a condition in a program. -/
theorem sound_ite {c : Prop} [Decidable c] {m m' : Prog S Error α} (hm : c → Sound R m)
    (hm' : ¬ c → Sound R m') : Sound R (if c then m else m') := by
  split
  · next hc => exact hm hc
  · next hc => exact hm' hc

/-- Indexing returns an item exactly when it is in the list. -/
theorem index_ok {α : Type} {xs : List α} {i : Nat} {site : String} {x : α} :
    index xs i site = .ok x ↔ xs[i]? = some x := by
  unfold index
  cases xs[i]? <;> simp

/-- Indexing within the list does not panic. -/
theorem fine_index {xs : List α} {i : Nat} {site : String} (h : i < xs.length) :
    Fine (fun x => xs[i]? = some x) (index xs i site) := by
  unfold index
  rw [List.getElem?_eq_getElem h]
  rfl

/-- `attempt` turns the ends of a program into values. -/
theorem sound_attempt {m : Prog S Error α} (hm : Sound R m) :
    Sound (Fine R) (m.attempt : Prog S Error _) := Prog.ends_attempt hm fun _ h => h

/-- A clean-up that does not panic either. -/
theorem sound_ensuring {m : Prog S Error α} {cleanup : Prog S Error Unit} (hm : Sound R m)
    (hc : Fair cleanup) : Sound R (m.ensuring cleanup) :=
  sound_bind (sound_attempt hm) fun _ hr => fair_bind hc fun _ => hr

/-- The same for a clean-up on errors. -/
theorem sound_onError {m : Prog S Error α} {cleanup : Prog S Error Unit} (hm : Sound R m)
    (hc : Fair cleanup) : Sound R (m.onError cleanup) := by
  refine sound_bind (sound_attempt hm) fun r hr => ?_
  cases r with
  | ok a => exact hr
  | error e => exact fair_bind hc fun _ => hr

/-- A loop whose turns do not panic. -/
theorem fair_forM {xs : List α} {f : α → Prog S Error PUnit} (hf : ∀ x ∈ xs, Fair (f x)) :
    Fair (xs.forM f) := by
  induction xs with
  | nil => trivial
  | cons x xs ih => exact fair_bind (hf x (by simp)) fun _ => ih fun y hy => hf y (by simp [hy])

/-- A loop whose accumulator keeps a property. -/
theorem sound_foldlM {xs : List α} {f : β → α → Prog S Error β} {b : β} (hb : R' b)
    (hf : ∀ x ∈ xs, ∀ b, R' b → Sound R' (f b x)) : Sound R' (xs.foldlM f b) := by
  induction xs generalizing b with
  | nil => exact hb
  | cons x xs ih =>
    rw [List.foldlM_cons]
    exact sound_bind (hf x (by simp) b hb) fun b hb => ih hb fun y hy => hf y (by simp [hy])

end

/-- A system call never panics. -/
theorem fair_sys (c : FsCall) : Fair (sys c) := fun _ => trivial

/-- Neither does the use of its reply: an errno is an ordinary error. -/
theorem fair_ok {α : Type} (r : Except Errno α) : Fair (ok r) := by
  cases r with
  | ok a => trivial
  | error e => exact id

/-! ### `fs.rs` -/

section
variable {root : Root} {path : String}

/-- `validate` does not panic. -/
theorem fine_validate : Fine (fun _ => True) (validate path) := by
  unfold validate
  dsimp only
  split
  · exact id
  · trivial

/-- `full` does not panic. -/
theorem fine_full : Fine (fun _ => True) (root.full path) := by
  have h : Fine (fun _ => True) (if maxPath < (root.joined path).utf8.length then
      throw (.invalidPath (root.joined path)) >>= fun _ => pure (root.joined path)
      else pure (root.joined path) : Except Error String) := fine_check (β := Unit) id fun _ => trivial
  exact fine_when fine_validate (fun _ => h) h

/-- `subtree` does not panic. -/
theorem fine_subtree : Fine (fun _ => True) (root.subtree path) := by
  have h := @fine_full root path
  rw [← root.base_subtree path] at h
  cases hr : root.subtree path with
  | ok r => trivial
  | error e =>
    rw [hr] at h
    exact h

/-- `metadata` does not panic. -/
theorem fair_metadata : Fair (root.metadata path) :=
  fair_bind fine_full fun _ => fair_bind (fair_sys _) fun _ => fair_ok _

/-- `open_file` does not panic. -/
theorem fair_openFile : Fair (root.openFile path) :=
  fair_bind fine_full fun _ => fair_bind (fair_sys _) fun _ => fair_bind (fair_ok _) fun _ =>
    sound_check id fun _ => trivial

/-- `lock_state` does not panic. -/
theorem fair_lockState {shared : Bool} : Fair (root.lockState path shared) :=
  fair_bind fine_full fun _ => fair_bind (fair_sys _) fun _ => fair_bind (fair_ok _) fun _ =>
    sound_check id fun _ => fair_bind (fair_sys _) fun _ => fair_ok _

/-- `exists` does not panic. -/
theorem fair_exists : Fair (root.exists? path) := by
  refine sound_bind (sound_attempt fair_metadata) fun r hr => ?_
  split
  · trivial
  · trivial
  · exact hr

/-- The loop of `children` does not panic. -/
theorem fine_collect {xs : List ({n : Path // NameOk n} × Metadata)}
    {out : List (String × Metadata)} : Fine (fun _ => True) (Root.collect xs out) := by
  induction xs generalizing out with
  | nil => trivial
  | cons x xs ih =>
    unfold Root.collect
    split
    · exact id
    · split
      · exact id
      · exact ih

/-- `children` does not panic. -/
theorem fair_children : Fair (root.children path) :=
  fair_bind fine_full fun _ => fair_bind (fair_sys _) fun _ => fair_bind (fair_ok _) fun _ =>
    fair_bind fine_collect fun _ => trivial

/-- The loop of `mkdir` does not panic. -/
theorem fair_mkdirFrom {parent : Path} {names : List Path} :
    Fair (Root.mkdirFrom parent names) := by
  induction names generalizing parent with
  | nil => trivial
  | cons name names ih =>
    refine fair_bind (fair_sys _) fun _ => fair_bind (fair_ok _) fun _ =>
      fair_bind (fair_sys _) fun r => ?_
    have hrest : Fair (do
        ok (← sys (.openDir (join parent name)))
        Root.mkdirFrom (join parent name) names) :=
      fair_bind (fair_sys _) fun _ => fair_bind (fair_ok _) fun _ => ih
    split
    · exact fair_bind (fair_sys _) fun _ => fair_bind (fair_ok _) fun _ => hrest
    · exact hrest
    · exact id

/-- `mkdir` does not panic. -/
theorem fair_mkdir : Fair (root.mkdir path) := fair_bind fine_full fun _ => fair_mkdirFrom

/-- `parent` does not panic. -/
theorem fair_parent : Fair (root.parent path) :=
  fair_bind fine_validate fun _ => fair_bind fine_full fun _ => fair_bind (fair_sys _) fun _ =>
    fair_bind (fair_ok _) fun _ => trivial

/-- `remove` does not panic. -/
theorem fair_remove {directory : Bool} : Fair (root.remove path directory) := by
  refine fair_bind fair_parent fun p => fair_bind ?_ fun _ => fair_bind (fair_sys _) fun _ => fair_ok _
  unfold Root.unlinkat
  split <;> exact fair_bind (fair_sys _) fun _ => fair_ok _

/-- `unlink_batch` does not panic. -/
theorem fair_unlinkBatch {dir : Path} {names : List String} :
    Fair (Root.unlinkBatch dir names) := by
  have h : ∀ name ∈ names, Fair (do ok (← sys (.unlink dir name.utf8)) : FsM Unit) :=
    fun _ _ => fair_bind (fair_sys _) fun _ => fair_ok _
  refine sound_bind (sound_attempt (fair_forM h)) fun r hr => ?_
  refine sound_bind (sound_attempt (fair_bind (fair_sys _) fun _ => fair_ok _)) fun r' hr' => ?_
  cases r with
  | ok u => exact hr'
  | error e => exact hr

/-- `remove_files` does not panic. -/
theorem fair_removeFiles {names : List String} : Fair (root.removeFiles path names) := by
  refine fair_bind (fair_forM fun name _ => ?_) fun _ => fair_bind fine_full fun _ =>
    fair_bind (fair_sys _) fun _ => fair_bind (fair_ok _) fun _ => fair_unlinkBatch
  refine fair_bind fine_validate fun _ => ?_
  split
  · exact id
  · trivial

/-- The check of the nanoseconds fails with an ordinary error. -/
theorem fine_timeOf {sec : Int64} {ns : UInt32} : Fine (fun _ => True) (Root.timeOf sec ns) := by
  unfold Root.timeOf
  split
  · trivial
  · exact id

/-- `set_mtime` does not panic. -/
theorem fair_setMtime {sec : Int64} {ns : UInt32} : Fair (root.setMtime path sec ns) :=
  fair_bind fine_full fun _ => fair_bind (fair_sys _) fun _ => fair_bind (fair_ok _) fun _ =>
    fair_bind fine_timeOf fun _ => fair_bind (fair_sys _) fun _ => fair_ok _

/-- Dropping a staged file does not panic. -/
theorem fair_drop {staged : Staged} : Fair staged.drop := fair_bind (fair_sys _) fun _ => trivial

/-- `commit` does not panic. -/
theorem fair_commit {staged : Staged} : Fair staged.commit :=
  fair_bind (fair_sys _) fun _ => fair_bind (fair_ok _) fun _ => fair_bind (fair_sys _) fun _ =>
    fair_ok _

/-- What is done while a file is staged does not panic when it does not by itself. -/
theorem fair_scope {α : Type} {staged : Staged} {m : FsM α} (hm : Fair m) :
    Fair (staged.scope m) := sound_ensuring hm fair_drop

/-- The loop that fills a staged file does not panic. -/
theorem fair_stageLoop {size : Nat} {seen : Bytes} {reader : List Bytes} :
    Fair (stageLoop path size seen reader) := by
  induction reader generalizing seen with
  | nil => trivial
  | cons block rest ih =>
    exact sound_check id fun _ => fair_bind (fair_sys _) fun _ => fair_bind (fair_ok _) fun _ => ih

/-- `stage_inner` does not panic. -/
theorem fair_stageInner [Sha256] {reader : List Bytes} {size : Nat} {hash : Option Hash}
    {mtime : Option (Int64 × UInt32)} : Fair (root.stageInner path reader size hash mtime) := by
  have hstamp : Fair (stampTemp mtime) := by
    cases mtime with
    | none => trivial
    | some t => exact fair_bind fine_timeOf fun _ => fair_bind (fair_sys _) fun _ => fair_ok _
  have hfill : Fair (fillTemp path reader size hash mtime) :=
    fair_bind fair_stageLoop fun _ => sound_check id fun _ => sound_check id fun _ =>
      fair_bind hstamp fun _ => fair_bind (fair_sys _) fun _ => fair_ok _
  exact fair_bind fair_parent fun _ => fair_bind (fair_sys _) fun _ => fair_bind (fair_ok _) fun _ =>
    fair_bind (sound_onError hfill fair_drop) fun _ => trivial

/-- `snapshot` does not panic. -/
theorem fair_snapshot {stamp : Stamp} : Fair (snapshot root path stamp) :=
  fair_bind fair_openFile fun _ => sound_check id fun _ => sound_check id fun _ =>
    fair_bind fair_metadata fun _ => sound_check id fun _ => trivial

end

/-! ### `sync.rs` -/

/-- A scan that has a stamp for each of its entries, and for the root if there is one. -/
structure Scan.Complete (checksum : Bool) (s : Scan) : Prop where
  valid : s.manifest.Valid checksum
  stamped : ∀ e ∈ s.manifest.entries, ∃ stamp, s.stamp e.path = .ok stamp

section
variable {root : Root} {path : String}

/-- `ensure_unchanged` does not panic. -/
theorem fair_ensureUnchanged {stamp : Stamp} : Fair (ensureUnchanged root path stamp) :=
  fair_bind fair_metadata fun _ => sound_ite (fun _ => id) fun _ => trivial

/-- `check_entry` does not panic. -/
theorem fair_checkEntry {e : Entry} : Fair (checkEntry root e) :=
  fair_bind fair_metadata fun _ => sound_ite (fun _ => id) fun _ => trivial

/-- Clearing a conflict does not panic. -/
theorem fair_clearConflict {plan : Plan} : Fair (clearConflict root plan path) := by
  unfold clearConflict
  split
  · exact fair_forM fun _ _ => fair_bind fair_checkEntry fun _ => fair_remove
  · trivial

/-- Every index of the plan is one of an entry. -/
theorem sound_entry {α : Type} {R : α → Prop} {source : Manifest} {i : Nat} {k : Entry → FsM α}
    (hi : i < source.entries.length) (hk : ∀ e, source.entries[i]? = some e → Sound R (k e)) :
    Sound R ((liftM (index source.entries i "source.entries") : FsM Entry) >>= k) :=
  sound_bind (sound_lift (fine_index hi)) hk

/-- `prepare` indexes the source, which is why the directories must be indices of it. -/
theorem fair_prepare {source : Manifest} {plan : Plan}
    (h : ∀ i ∈ plan.directories, i < source.entries.length) : Fair (prepare root source plan) :=
  fair_bind fair_mkdir fun _ => fair_forM fun i hi => sound_entry (h i hi) fun _ _ =>
    fair_bind fair_clearConflict fun _ => fair_mkdir

/-- `install` does not panic. -/
theorem fair_install [Sha256] {e : Entry} {destination : Manifest} {plan : Plan} {file : Bytes} :
    Fair (install root e destination plan file) := by
  refine fair_bind fair_stageInner fun staged => fair_scope ?_
  have h : Fair (do
      clearConflict root plan e.path
      staged.commit) := fair_bind fair_clearConflict fun _ => fair_commit
  split
  · exact fair_bind fair_checkEntry fun _ => h
  · exact fair_bind fair_exists fun _ => sound_check id fun _ => h

/-- `finish` indexes the source in the same way. -/
theorem fair_finish {source : Manifest} {plan : Plan}
    (h : ∀ i ∈ plan.directories, i < source.entries.length) : Fair (finish root source plan) :=
  fair_bind (fair_forM fun _ _ => fair_checkEntry) fun _ =>
    fair_bind (fair_forM fun _ _ => fair_remove) fun _ =>
      fair_forM fun i hi => sound_entry (h i (by simpa using hi)) fun _ _ => fair_setMtime

/-- The loop of `Manifest::validate` does not panic. -/
theorem fine_validateFrom {checksum : Bool} {seen : List (Path × Kind)} {es : List Entry} :
    Fine (fun _ => True) (Manifest.validateFrom checksum seen es) := by
  induction es generalizing seen with
  | nil => trivial
  | cons e es ih =>
    refine fine_seq ?_ fun _ => ih
    refine fine_bind fine_validate fun _ _ => fine_check id fun _ => fine_check id fun _ =>
      fine_check id fun _ => fine_check id fun _ => ?_
    split
    · exact id
    · trivial

/-- `Manifest::validate` does not panic. -/
theorem fine_manifest {m : Manifest} {checksum : Bool} :
    Fine (fun _ => True) (m.validate checksum) := fine_check id fun _ => fine_validateFrom

/-- The search for a type conflict does not panic. -/
theorem fine_planConflict {destination : Manifest} {options : Options} {guarded : List String}
    {p : Plan} {e old : Entry} :
    Fine (fun _ => True) (planConflict destination options guarded p e old) := by
  unfold planConflict
  split
  · trivial
  · exact fine_check id fun _ => fine_check id fun _ => trivial

/-- One entry of a plan does not panic. -/
theorem fine_planEntry {destination : Manifest} {options : Options} {guarded : List String}
    {p : Plan} {e : Entry} {i : Nat} :
    Fine (fun _ => True) (planEntry destination options guarded p e i) := by
  unfold planEntry
  split
  · trivial
  · dsimp only
    split
    · refine fine_seq fine_planConflict fun p => ?_
      split
      · trivial
      · split <;> trivial
      · trivial
    · refine fine_seq trivial fun p => ?_
      split
      · trivial
      · split <;> trivial
      · trivial

/-- `plan` does not panic. -/
theorem fine_plan {source destination : Manifest} {options : Options} :
    Fine (fun _ => True) (plan source destination options) := by
  have h (xs : List (Entry × Nat)) (guarded : List String) (p : Plan) :
      Fine (fun _ => True) (xs.foldlM
        (fun p e => planEntry destination options guarded p e.1 e.2) p) := by
    induction xs generalizing p with
    | nil => trivial
    | cons x xs ih => exact fine_bind fine_planEntry fun p _ => ih p
  refine fine_bind fine_manifest fun _ _ => fine_bind fine_manifest fun _ _ =>
    fine_bind (h _ _ _) fun p _ => ?_
  split <;> trivial

/-! ### Scans -/

/-- Every entry found so far has a stamp. -/
def Scan.Stamped (s : Scan) : Prop :=
  ∀ e ∈ s.manifest.entries, ∃ stamp, s.stamp e.path = .ok stamp

/-- The stamp of a path is found exactly when the scan has one. -/
theorem stamp_ok {s : Scan} {stamp : Stamp} :
    s.stamp path = .ok stamp ↔ s.stamps.lookup path = some stamp := by
  unfold Scan.stamp
  cases s.stamps.lookup path <;> simp

/-- A stamp more, with entries that the stamps already cover or that it covers. -/
theorem Scan.Stamped.cons {s : Scan} (h : s.Stamped) (p : String) (stamp : Stamp) {es : List Entry}
    (hes : ∀ e ∈ es, e ∈ s.manifest.entries ∨ e.path = p) :
    Scan.Stamped ⟨⟨es⟩, (p, stamp) :: s.stamps⟩ := by
  intro e he
  by_cases hp : e.path = p
  · exact ⟨stamp, stamp_ok.mpr (by simp [hp])⟩
  · obtain ⟨t, ht⟩ := h e ((hes e he).resolve_right hp)
    refine ⟨t, stamp_ok.mpr ?_⟩
    rw [List.lookup_cons, beq_eq_false_iff_ne.mpr hp]
    exact stamp_ok.mp ht

/-- An entry together with its stamp. -/
theorem Scan.Stamped.add {s : Scan} (h : s.Stamped) (e : Entry) (stamp : Stamp) :
    Scan.Stamped ⟨⟨s.manifest.entries ++ [e]⟩, (e.path, stamp) :: s.stamps⟩ := by
  refine h.cons e.path stamp fun x hx => ?_
  rcases List.mem_append.mp hx with hx | hx
  · exact Or.inl hx
  · exact Or.inr (by rw [List.mem_singleton.mp hx])

/-- The walk never panics, and gives as many stamps as entries. -/
theorem sound_walk [Sha256] {checksum : Bool} {k : Nat} {s : Scan} (hs : s.Stamped) :
    Sound Scan.Stamped (walk root checksum k path s) := by
  induction k generalizing path s with
  | zero => exact id
  | succ k ih =>
    -- one entry of the directory: it is listed together with its stamp
    have hvisit (s : Scan) (hs : s.Stamped) (child : String × Metadata) :
        Sound Scan.Stamped (visit root path checksum (walk root checksum k) s child) := by
      refine fair_bind fine_validate fun _ => fair_bind ?_ fun hash => ?_
      · unfold hashFound
        split
        · exact fair_bind fair_openFile fun _ => sound_check id fun _ => trivial
        · trivial
      refine sound_check id fun _ => ?_
      have hadd (kind : Kind) (size : Nat) (sec : Int64) (ns : UInt32) :=
        hs.add ⟨childPath path child.1, kind, size, sec, ns, hash⟩ (Stamp.of child.2)
      split
      · exact ih (hadd _ _ _ _)
      · exact hadd _ _ _ _
    refine sound_check id fun _ => fair_bind fair_metadata fun _ => fair_bind fair_children
      fun children => sound_bind (sound_foldlM hs fun child _ s hs => hvisit s hs child)
      fun s hs => fair_bind fair_metadata fun _ => sound_check id fun _ => hs

/-- `scan` does not panic, and every entry it lists has a stamp. -/
theorem sound_scan [Sha256] {checksum : Bool} :
    Sound (Scan.Complete checksum) (scan root checksum) := by
  have hempty : Scan.Stamped ⟨⟨[]⟩, []⟩ := fun _ he => by cases he
  refine fair_bind fair_exists fun found => ?_
  split
  · exact ⟨Manifest.validate_ok.mp (show Manifest.validate ⟨[]⟩ checksum = .ok () from rfl), hempty⟩
  · refine sound_bind (sound_walk hempty) fun s hs => fair_bind fair_metadata fun m => ?_
    refine sound_bind (sound_lift (fine_ok fine_manifest)) fun _ hv => ?_
    refine ⟨Manifest.validate_ok.mp hv.1, ?_⟩
    exact hs.cons "" _ fun e he => Or.inl ((List.perm_insertionSort _ _).mem_iff.mp he)

end

end RrSync

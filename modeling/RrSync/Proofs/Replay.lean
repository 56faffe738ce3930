import RrSync.Model.Run
import RrSync.Proofs.Marks

/-!
# `RrSync.Proofs.Replay`: the requests of a session are one run of its plan

A push session spreads the run of its plan over many requests and writes marks in between. The
journal has no part in what a call does (`exec_over`), so the same calls without the marks lead to
the same disk. `Session.Ran` is the invariant: the disk is what the files that are done so far
have left of the disk at START, in the order in which they came. The contents of these files are constrained by
a predicate `given`: what it says, that a file was uploaded or described, is for the servers to fill
in. With FINISH the run is complete (`Session.Replays`).
-/

set_option autoImplicit false

namespace RrSync

open Lib

/-! ### Disks without a journal -/

/-- The disk without its journal, and with other faults. -/
def Disk.over (faults : (Nat → Bool) → Nat → Bool) (w : Disk) : Disk :=
  { w with env := { w.env with fault := faults w.env.fault }, journal := [] }

/-- The disk without its journal. -/
def Disk.plain (w : Disk) : Disk := { w with journal := [] }

section
variable {α β : Type} {faults : (Nat → Bool) → Nat → Bool} {x y : Except Errno (α × Disk)}

/-- The result of a call on such a disk. -/
def overly (faults : (Nat → Bool) → Nat → Bool) (r : Except Errno (α × Disk)) :
    Except Errno (α × Disk) :=
  r.map fun x => (x.1, x.2.over faults)

/-- Changing the faults of a disk commutes with sequencing. -/
theorem overly_bind {b : Except Errno β} {k : β → Except Errno (α × Disk)} :
    overly faults (b >>= k) = b >>= fun a => overly faults (k a) := by
  cases b <;> rfl

/-- It commutes with a condition. -/
theorem overly_ite {c : Prop} [Decidable c] :
    overly faults (if c then x else y) = if c then overly faults x else overly faults y := by
  split <;> rfl

/-- It commutes with a condition whose proof is used. -/
theorem overly_dite {c : Prop} [Decidable c] {k : c → Except Errno (α × Disk)} :
    overly faults (if h : c then k h else y)
      = if h : c then overly faults (k h) else overly faults y := by
  split <;> rfl

/-- An error has no disk to change. -/
theorem overly_throw {e : Errno} :
    overly faults (throw e : Except Errno (α × Disk)) = throw e := rfl

/-- A result has the changed disk. -/
theorem overly_pure {a : α} {w : Disk} :
    overly faults (pure (a, w) : Except Errno (α × Disk)) = pure (a, w.over faults) := rfl

/-- A call that may fail does the same with other faults, where the fault of this call is the
same. -/
theorem Disk.attempt_over {f : Disk → Except Errno (α × Disk)} (w : Disk)
    (hfault : faults w.env.fault w.tick = w.env.fault w.tick)
    (hf : ∀ v : Disk, f (v.over faults) = overly faults (f v)) :
    (w.over faults).attempt f = ((w.attempt f).1, (w.attempt f).2.over faults) := by
  have h : f { w.over faults with tick := (w.over faults).tick + 1 }
      = overly faults (f { w with tick := w.tick + 1 }) := hf { w with tick := w.tick + 1 }
  have hsame : (w.over faults).env.fault (w.over faults).tick = w.env.fault w.tick := hfault
  unfold Disk.attempt
  by_cases hw : w.env.fault w.tick = true
  · simp only [hsame, hw, if_true]
    rfl
  · simp only [hsame, hw, h]
    cases f { w with tick := w.tick + 1 } <;> rfl

end

/-- No call looks at the journal, or at another fault than that of its tick. -/
theorem exec_over {faults : (Nat → Bool) → Nat → Bool} {c : FsCall} (hc : c.Unmarked) (w : Disk)
    (hfault : faults w.env.fault w.tick = w.env.fault w.tick) :
    exec c (w.over faults) = ((exec c w).1, (exec c w).2.over faults) := by
  cases c with
  | mark m => cases hc
  | stat | openDir | openFile | readDir | seconds => rfl
  | dropTemp d =>
    obtain ⟨tree, temp, tick, env, journal⟩ := w
    cases temp <;> rfl
  | sync | syncTemp | flock => exact w.attempt_over (f := fun w => pure ((), w)) hfault fun v => rfl
  -- setTempTime | rename => | These need the staged file, which is the same.
  | write | setTempTime | rename =>
    refine w.attempt_over hfault fun v => ?_
    obtain ⟨tree, temp, tick, env, journal⟩ := v
    cases temp with
    | none => rfl
    | some temp =>
      first
      | rfl
      | simp only [Disk.rename, overly_bind, overly_ite, overly_dite, overly_throw, overly_pure]
        rfl
  | openLock p =>
    refine w.attempt_over hfault fun v => ?_
    have hget : (v.over faults).tree.get p = v.tree.get p := rfl
    unfold Disk.openLock
    rw [hget]
    cases v.tree.get p with
    | some node => simp only [overly_ite, overly_throw, overly_pure]
    | none =>
      simp only [overly_dite, overly_throw, overly_pure]
      rfl
  -- unlink | rmdir | The tree is the same, so each check goes the same way.
  | mkdir | unlink | rmdir | createTemp | utimens =>
    refine w.attempt_over hfault fun v => ?_
    simp only [Disk.mkdir, Disk.unlink, Disk.rmdir, Disk.createTemp, Disk.utimens,
      overly_bind, overly_ite, overly_dite, overly_throw, overly_pure]
    rfl

/-- A call without a mark does not see the journal. -/
theorem exec_plain {c : FsCall} (hc : c.Unmarked) (w : Disk) :
    exec c w.plain = ((exec c w).1, (exec c w).2.plain) := @exec_over id _ hc w rfl

/-- A program that writes no marks runs the same way without the journal. -/
theorem run_plain {α : Type} {m : FsM α} (hm : Calls FsCall.Unmarked m) (w : Disk) :
    m.run exec w.plain = ((m.run exec w).1, (m.run exec w).2.plain) := by
  induction m generalizing w with
  | done r => rfl
  | call c k ih =>
    show (k (exec c w.plain).1).run exec (exec c w.plain).2 = _
    rw [exec_plain hm.1 w]
    exact ih _ (hm.2 _) _

/-- Neither does a program without marks. -/
theorem run_plain_ok {α : Type} {m : FsM α} (hm : Calls FsCall.Unmarked m) {w w' : Disk} {a : α}
    (h : m.run exec w = (.ok a, w')) : m.run exec w.plain = (.ok a, w'.plain) := by
  rw [run_plain hm, h]

/-- A mark in front of a program. -/
theorem run_marked {α : Type} {m : FsM α} {x : Mark} {w w' : Disk} {a : α}
    (hm : Calls FsCall.Unmarked m) (h : (mark x >>= fun _ => m).run exec w = (.ok a, w')) :
    m.run exec w.plain = (.ok a, w'.plain) := by
  obtain ⟨u, w₁, hmark, h⟩ := Prog.run_bind_eq_ok.mp h
  obtain rfl : w₁ = { w with journal := w.journal ++ [x] } := (Prod.mk.inj hmark).2.symm
  exact run_plain_ok (w := { w with journal := w.journal ++ [x] }) hm h

/-! ### Installations with a hash of their own -/

section
variable [Sha256] {root : Root} {e : Entry} {destination : Manifest} {plan : Plan} {file : Bytes}
  {path : String} {size : Nat} {mtime : Option (Int64 × UInt32)}

omit [Sha256] in
/-- The loop that fills a staged file returns all that was read. -/
theorem returns_stageLoop {seen : Bytes} {reader : List Bytes} :
    (stageLoop path size seen reader).Returns fun all => all = seen ++ reader.flatten := by
  induction reader generalizing seen with
  | nil => exact (List.append_nil seen).symm
  | cons block rest ih =>
    refine Prog.returns_check fun _ => Prog.returns_bind fun _ => Prog.returns_bind fun _ => ?_
    refine ih.imp fun all hall => ?_
    rw [hall, List.flatten_cons, List.append_assoc]

/-- A hash that the content has makes no difference. -/
theorem stageInner_hash {hash hash' : Option Hash} (h : ∀ x ∈ hash, x = digest file)
    (h' : ∀ x ∈ hash', x = digest file) : root.stageInner path (reads file) size hash mtime
      = root.stageInner path (reads file) size hash' mtime := by
  have hany {hash : Option Hash} (h : ∀ x ∈ hash, x = digest file) :
      hash.any (· ≠ digest file) = false := by
    cases hash with
    | none => rfl
    | some x => simpa using h x rfl
  have hfill : fillTemp path (reads file) size hash mtime
      = fillTemp path (reads file) size hash' mtime := by
    refine returns_stageLoop.bind_congr fun seen hseen => ?_
    rw [List.nil_append, reads_flatten] at hseen
    subst hseen
    rw [hany h, hany h']
  unfold Root.stageInner
  rw [hfill]

/-- An installation that succeeds with a hash succeeds with that of its entry. -/
theorem install_hash {hash : Hash} {w w' : Disk} (hhash : ∀ x ∈ e.hash, x = hash)
    (h : (install root { e with hash := some hash } destination plan file).run exec w
      = (.ok (), w')) : (install root e destination plan file).run exec w = (.ok (), w') := by
  obtain ⟨-, hdigest, -⟩ := install_run h
  have hstage := @stageInner_hash _ root file e.path e.size (some (e.mtime, e.ns)) (some hash) e.hash
    hdigest fun x hx => (hhash x hx).trans (hdigest hash rfl)
  have heq : install root { e with hash := some hash } destination plan file
      = install root e destination plan file := by
    unfold install Root.stage
    rw [hstage]
  rwa [heq] at h

end

/-! ### The run of a session -/

section
variable [Sha256]

/-- A run of a plan up to its last file. -/
def installs (root : Root) (source destination : Manifest) (plan : Plan) (is : List Nat)
    (contents : Entry → Bytes) : FsM Unit := do
  prepare root source plan
  is.forM fun i => do
    let e ← index source.entries i "source.entries"
    install root e destination plan (contents e)

/-- A run of a plan is its installations and then its end. -/
theorem runPlan_eq (root : Root) (source destination : Manifest) (plan : Plan) (is : List Nat)
    (contents : Entry → Bytes) : runPlan root source destination plan is contents
      = installs root source destination plan is contents >>= fun _ => finish root source plan := by
  unfold installs
  rw [bind_assoc]
  rfl

section
variable {root : Root} {source destination : Manifest} {plan : Plan} {is : List Nat} {i : Nat}
  {contents contents' : Entry → Bytes}

/-- The last installation comes after all others. -/
theorem installs_snoc : installs root source destination plan (is ++ [i]) contents
    = (do
      installs root source destination plan is contents
      let e ← index source.entries i "source.entries"
      install root e destination plan (contents e)) := by
  unfold installs
  rw [Prog.forM_snoc, bind_assoc]

/-- The installations depend on the contents of their own files only. -/
theorem installs_congr (h : ∀ j ∈ is, ∀ e, source.entries[j]? = some e → contents e = contents' e) :
    installs root source destination plan is contents
      = installs root source destination plan is contents' := by
  unfold installs
  refine congrArg _ (funext fun _ => Prog.forM_congr fun j hj => ?_)
  unfold index
  cases he : source.entries[j]? with
  | none => rfl
  | some e =>
    show install root e destination plan (contents e) = install root e destination plan (contents' e)
    rw [h j hj e he]

/-- The next file is installed. The contents of the files before it are kept, because they are
other files. -/
theorem installs_next {checksum : Bool} {e : Entry} {file : Bytes} {w₀ w w' : Disk}
    (hsource : source.Valid checksum) (hi : i ∉ is) (he : source.entries[i]? = some e)
    (hinstalls : (installs root source destination plan is contents).run exec w₀ = (.ok (), w))
    (hinstall : (install root e destination plan file).run exec w = (.ok (), w')) :
    (installs root source destination plan (is ++ [i]) (Function.update contents e file)).run exec w₀
      = (.ok (), w') := by
  have hother : ∀ j ∈ is, ∀ x, source.entries[j]? = some x →
      contents x = Function.update contents e file x := by
    intro j hj x hx
    have hne : x ≠ e := by
      intro h
      subst h
      exact hi (hsource.index_inj hx he ▸ hj)
    rw [Function.update_of_ne hne]
  rw [installs_snoc]
  refine Prog.run_bind_eq_ok.mpr ⟨(), _, (installs_congr hother) ▸ hinstalls, ?_⟩
  refine Prog.run_bind_eq_ok.mpr ⟨e, _, Prog.run_lift_eq_ok.mpr ⟨index_ok.mpr he, rfl⟩, ?_⟩
  rwa [Function.update_self]

end

namespace Session

/-- The contents of the files `is` are among those that were given for them. -/
def Given (given : Nat → Bytes → Prop) (source : Manifest) (is : List Nat)
    (contents : Entry → Bytes) : Prop :=
  ∀ i ∈ is, ∀ e, source.entries[i]? = some e → given i (contents e)

/-- What a push session has done to the disk since it was `w₀`: nothing, or it has installed the
files that are done, with contents that were given for them. -/
def Ran (s : Session) (given : Nat → Bytes → Prop) (w₀ w : Disk) : Prop :=
  s.prepared = false ∧ s.done = [] ∧ w.plain = w₀.plain ∨
  s.prepared = true ∧ ∃ contents, Given given s.source s.done contents ∧
    (installs s.root s.source s.destination s.plan s.done.reverse contents).run exec w₀.plain
      = (.ok (), w.plain)

/-- The disk `w` is what a complete run of the plan of the session leaves of the disk `w₀`. The
files come in some order, and the content of each is one that was given for it. -/
def Replays (s : Session) (given : Nat → Bytes → Prop) (w₀ w : Disk) : Prop :=
  ∃ is contents, is.Perm s.plan.files ∧ Given given s.source is contents ∧
    (runPlan s.root s.source s.destination s.plan is contents).run exec w₀.plain = (.ok (), w.plain)

variable {s s' : Session} {given given' : Nat → Bytes → Prop} {w₀ w w' : Disk} {i : Nat} {e : Entry}
  {file : Bytes}

/-- What has been given is not taken back. -/
theorem Ran.imp (h : s.Ran given w₀ w) (hgiven : ∀ i data, given i data → given' i data) :
    s.Ran given' w₀ w := by
  rcases h with hfresh | ⟨hprepared, contents, hcontents, hinstalls⟩
  · exact .inl hfresh
  · exact .inr ⟨hprepared, contents, fun i hi e he => hgiven i _ (hcontents i hi e he), hinstalls⟩

/-- The first request about a file prepares the export. -/
theorem Ran.ready (h : s.Ran given w₀ w) (hrun : s.ready.run exec w = (.ok s', w')) :
    s' = { s with prepared := true } ∧ s'.Ran given w₀ w' := by
  unfold Session.ready at hrun
  rcases h with ⟨hfresh, hdone, hdisk⟩ | ⟨hprepared, contents, hcontents, hinstalls⟩
  · rw [if_neg (by simp [hfresh])] at hrun
    obtain ⟨u, w₁, hmark, hrest⟩ := Prog.run_bind_eq_ok.mp hrun
    obtain ⟨u', w₂, hprepare, hpure⟩ := Prog.run_bind_eq_ok.mp hrest
    obtain ⟨rfl, rfl⟩ := Prog.run_pure_eq_ok.mp hpure
    obtain rfl : w₁ = { w with journal := w.journal ++ [.prepare] } := (Prod.mk.inj hmark).2.symm
    have hplain := run_plain_ok (w := { w with journal := w.journal ++ [.prepare] }) unmarked_prepare
      hprepare
    refine ⟨rfl, .inr ⟨rfl, fun _ => [], fun i hi => ?_, ?_⟩⟩
    · rw [show ({ s with prepared := true } : Session).done = [] from hdone] at hi
      cases hi
    · rw [hdone, ← hdisk]
      exact Prog.run_bind_eq_ok.mpr ⟨(), _, hplain, rfl⟩
  · rw [if_pos hprepared] at hrun
    obtain ⟨rfl, rfl⟩ := Prog.run_pure_eq_ok.mp hrun
    exact ⟨by rw [← hprepared], .inr ⟨hprepared, contents, hcontents, hinstalls⟩⟩

/-- The next file is installed, with a content that was given for it. -/
theorem Ran.install (hs : s.Coherent) (h : s.Ran given w₀ w) (hprepared : s.prepared = true)
    (hi : i ∉ s.done) (he : s.source.entries[i]? = some e) (hfile : given i file)
    (hrun : (RrSync.install s.root e s.destination s.plan file).run exec w.plain
      = (.ok (), w'.plain)) : Ran { s with done := s.done.insert i } given w₀ w' := by
  rcases h with ⟨hfresh, -⟩ | ⟨-, contents, hcontents, hinstalls⟩
  · rw [hprepared] at hfresh
    cases hfresh
  have hsource := (plan_ok.mp hs.planned).1
  have hnew : i ∉ s.done.reverse := fun h => hi (List.mem_reverse.mp h)
  refine .inr ⟨hprepared, Function.update contents e file, ?_, ?_⟩
  · -- The new file has the new content, and the others keep theirs.
    intro j hj x hx
    by_cases hji : j = i
    · subst hji
      obtain rfl := Option.some.inj (he.symm.trans hx)
      rw [Function.update_self]
      exact hfile
    · have hold : j ∈ s.done := (List.mem_insert_iff.mp hj).resolve_left hji
      have hne : x ≠ e := by
        intro h
        subst h
        exact hji (hsource.index_inj hx he)
      rw [Function.update_of_ne hne]
      exact hcontents j hold x hx
  · show (installs s.root s.source s.destination s.plan (s.done.insert i).reverse _).run exec _ = _
    -- It comes last in the order in which the files were done.
    rw [List.insert_of_not_mem hi, List.reverse_cons]
    exact installs_next hsource hnew he hinstalls hrun

/-- All files are done, and the end of the plan is run. -/
theorem Ran.finish (hdone : s.done.Nodup ∧ ∀ i ∈ s.done, i ∈ s.plan.files) (h : s.Ran given w₀ w)
    (hcomplete : s.done.length = s.plan.files.length)
    (hrun : (RrSync.finish s.root s.source s.plan).run exec w.plain = (.ok (), w'.plain))
    (hprepared : s.prepared = true) : s.Replays given w₀ w' := by
  rcases h with ⟨hfresh, -⟩ | ⟨-, contents, hcontents, hinstalls⟩
  · rw [hprepared] at hfresh
    cases hfresh
  have hperm := (List.subperm_of_subset hdone.1 hdone.2).perm_of_length_le hcomplete.ge
  refine ⟨s.done.reverse, contents, (List.reverse_perm _).trans hperm, fun i hi => ?_, ?_⟩
  · exact hcontents i (List.mem_reverse.mp hi)
  · rw [runPlan_eq]
    exact Prog.run_bind_eq_ok.mpr ⟨(), _, hinstalls, hrun⟩

end Session

end

end RrSync

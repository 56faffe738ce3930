import RrSync.Proofs.Rescan
import RrSync.Proofs.Planned

/-!
# `RrSync.Proofs.Printed`: what the printed plan says of a run

The operations of a plan are printed before anything is done. `runPlan_disclosed` says that a
run destroys only what they name, or what lies in a directory that they name as the place of
a file, and that a run that succeeds has done all of them.
-/

set_option autoImplicit false

namespace RrSync

open Lib

/-- The plan shows something else than Skip for the path. -/
def Plan.Names (p : Plan) (path : String) : Prop :=
  ∃ op ∈ p.operations, op.action ≠ .skip ∧ op.path = path

/-- The path lies in a directory of the destination that a file of the source replaces, and the
plan shows an Update for that directory. -/
def Plan.Clears (p : Plan) (source destination : Manifest) (path : String) : Prop :=
  ∃ e ∈ source.entries, ∃ old ∈ destination.entries, e.kind = .file ∧ old.kind = .directory ∧
    old.path = e.path ∧ ⟨.update, e.path⟩ ∈ p.operations ∧ Below path.utf8 e.path.utf8

section
variable {root : Root} {source destination : Manifest} {options : Options} {p : Plan}
  {e c x : Entry} {q : Path}

/-! ### The operations of a plan -/

section
variable (hp : plan source destination options = .ok p)
include hp

/-- The operations of a plan: what becomes of each entry of the source, and the removals. -/
theorem mem_operations {op : Operation} : op ∈ p.operations ↔
    (∃ e ∈ source.entries,
      ⟨actionOf destination options (guardedPaths source destination) e, e.path⟩ = op) ∨
    ∃ x ∈ p.removals, ⟨.delete, x.path⟩ = op := by
  obtain ⟨-, -, -, rfl⟩ := plan_ok.mp hp
  simp only [planOf, List.mem_append, List.mem_map]
  refine or_congr ⟨?_, ?_⟩ Iff.rfl
  · rintro ⟨y, hy, rfl⟩
    exact ⟨y.1, List.fst_mem_of_mem_zipIdx hy, rfl⟩
  · rintro ⟨e, he, rfl⟩
    obtain ⟨i, hi⟩ := List.getElem?_of_mem he
    exact ⟨(e, i), List.mk_mem_zipIdx_iff_getElem?.mpr hi, rfl⟩

/-- What becomes of an entry of the source is printed. -/
theorem operation_mem (he : e ∈ source.entries) :
    ⟨actionOf destination options (guardedPaths source destination) e, e.path⟩ ∈ p.operations :=
  (mem_operations hp).mpr (.inl ⟨e, he, rfl⟩)

omit hp in
/-- The action of a file that is transferred. -/
theorem action_of_transfers
    (ht : transfers destination options (guardedPaths source destination) e = true) :
    actionOf destination options (guardedPaths source destination) e
      = if (destination.get? e.path).isSome then .update else .create := by
  obtain ⟨hlive, hk⟩ := live_of_transfers ht
  simp only [transfers, Bool.and_eq_true, Bool.not_eq_true'] at ht
  simp [actionOf, hlive, hk, ht.2]

/-- A file that is sent is named. -/
theorem names_of_transfers (he : e ∈ source.entries)
    (ht : transfers destination options (guardedPaths source destination) e = true) :
    p.Names e.path := by
  refine ⟨_, operation_mem hp he, ?_, rfl⟩
  rw [action_of_transfers ht]
  split <;> simp

/-- So is an entry that is removed. -/
theorem names_of_removal (hx : x ∈ p.removals) : p.Names x.path :=
  ⟨_, (mem_operations hp).mpr (.inr ⟨x, hx, rfl⟩), by simp, rfl⟩

/-- What a type conflict removes is named, or it lies in a directory that is. -/
theorem shown_of_conflict (he : e ∈ source.entries)
    (hc : clashes destination (guardedPaths source destination) e = true)
    (hx : x ∈ destination.entries) (hb : Below x.path.utf8 e.path.utf8) :
    p.Names x.path ∨ p.Clears source destination x.path := by
  obtain ⟨old, hold, hget, hpath, ⟨hk, hko⟩ | ⟨hk, hko⟩⟩ := old_of_clashes hp he hc
  · right
    have haction := action_of_transfers (transfers_of_clashes hp he hk hc)
    rw [hget, if_pos (by rfl)] at haction
    have hop := operation_mem hp he
    rw [haction] at hop
    exact ⟨e, he, old, hold, hk, hko, hpath, hop, hb⟩
  · -- The old object is a file, so nothing else lies there.
    left
    have hlive := live_of_clashes hc
    obtain ⟨hxe, -⟩ := eq_of_zone_of_makes hp he (by simp [makes, hlive, hk]) hc hx hb
    have haction : actionOf destination options (guardedPaths source destination) e = .mkdir := by
      simp [actionOf, hlive, hk, hget, hko]
    exact ⟨_, operation_mem hp he, by rw [haction]; simp, hxe.symm⟩

end

/-! ### Nothing else is destroyed -/

/-- The object stays as it is, times aside, or it is new, or the plan shows its path. -/
def disclosing (root : Root) (source destination : Manifest) (p : Plan) : Effect :=
  fun q old new => new.map Node.body = old.map Node.body ∨ old = none ∨
    ∃ path, root.pathOf path = q ∧ (p.Names path ∨ p.Clears source destination path)

/-- A new time destroys nothing, so it is disclosed. -/
theorem disclosing_stamps : (disclosing root source destination p).Stamps q := by
  rintro _ _ ⟨n, n', rfl, rfl, hb⟩
  exact .inl (by simp [hb])

/-- A directory is made where nothing was, so it is disclosed. -/
theorem disclosing_makes : (disclosing root source destination p).Makes q :=
  fun _ _ => .inr (.inl rfl)

/-- The same for a path and what is above it. -/
theorem disclosing_makesTo : (disclosing root source destination p).MakesTo q :=
  fun _ _ _ => ⟨disclosing_makes, disclosing_stamps⟩

/-- What goes away is disclosed when each of it is named, or cleared for a file that is named. -/
theorem disclosing_dropsAll {entries : List Entry}
    (h : ∀ x ∈ entries, p.Names x.path ∨ p.Clears source destination x.path) :
    (disclosing root source destination p).DropsAll root entries :=
  fun x hx => ⟨disclosing_stamps, fun _ => .inr (.inr ⟨x.path, rfl, h x hx⟩)⟩

/-- Two changes of one object that are disclosed are disclosed together. -/
theorem disclosing_trans (q : Path) (x y z : Option Node)
    (h : disclosing root source destination p q x y)
    (h' : disclosing root source destination p q y z) :
    disclosing root source destination p q x z := by
  rcases h with h | rfl | h
  · rcases h' with h' | rfl | h'
    · exact .inl (h'.trans h)
    · -- What is not there later was not there before.
      refine .inr (.inl ?_)
      simpa using h.symm
    · exact .inr (.inr h')
  · exact .inr (.inl rfl)
  · exact .inr (.inr h)

/-- Every call of a run has only effects that the printed plan discloses. -/
theorem calls_runPlan_disclosing [Sha256] (hp : plan source destination options = .ok p)
    {is : List Nat} (his : ∀ i ∈ is, i ∈ p.files) {contents : Entry → Bytes} :
    Calls (FsCall.Safe (disclosing root source destination p))
      (runPlan root source destination p is contents) := by
  refine calls_runPlan hp ⟨disclosing_makesTo,
    fun _ _ _ => ⟨disclosing_makesTo, disclosing_stamps⟩, fun e he ht => ?_,
    fun e he entries hc => disclosing_dropsAll fun x hx => ?_,
    disclosing_dropsAll fun x hx => .inl (names_of_removal hp hx)⟩ his
  · exact ⟨disclosing_stamps, fun _ _ _ _ _ =>
      .inr (.inr ⟨e.path, rfl, .inl (names_of_transfers hp he ht)⟩)⟩
  · rw [conflict?_eq hp he] at hc
    split at hc
    · next hcl =>
      obtain rfl := Option.some.inj hc
      obtain ⟨hxd, hb⟩ := mem_conflictEntries.mp hx
      exact shown_of_conflict hp he hcl hxd hb
    · cases hc

/-- At every moment of a run: an object that is gone, or has another kind or another content, is
shown by the plan. -/
theorem disclosed_of_moment [Sha256] (hp : plan source destination options = .ok p)
    {is : List Nat} (his : ∀ i ∈ is, i ∈ p.files) {contents : Entry → Bytes} {w w' : Disk}
    (hw : (runPlan root source destination p is contents).Moment exec w w')
    {path : String} {n : Node} (hn : w.tree.get (root.pathOf path) = some n)
    (hchanged : (w'.tree.get (root.pathOf path)).map Node.body ≠ some n.body) :
    p.Names path ∨ p.Clears source destination path := by
  have hframe := frame_of_issues (R := disclosing root source destination p)
    (calls_runPlan_disclosing hp his) (fun _ _ => .inl rfl) disclosing_trans
    (fun c hc q old new hm => hc.2 q old new hm) hw (root.pathOf path)
  rw [hn] at hframe
  rcases hframe with h | h | ⟨path', hpath, h⟩
  · exact absurd h hchanged
  · cases h
  · have heq : path'.utf8 = path.utf8 := SepPath.join_injective _ hpath
    rwa [String.utf8_injective heq] at h

/-! ### What a step leaves, whatever the disk does -/

section
variable {w w' : Disk} {path : String}

/-- What the calls of a program may do to an object is what its run does, whatever its result. -/
theorem effect_of_run {E : Effect} {α : Type} {m : FsM α} {r : Except Error α}
    (hm : Calls (FsCall.Safe E) m) (refl : ∀ q x, E q x x)
    (trans : ∀ q x y z, E q x y → E q y z → E q x z) (h : m.run exec w = (r, w')) (q : Path) :
    E q (w.tree.get q) (w'.tree.get q) := by
  have hw : m.Moment exec w w' := by
    have := Prog.moment_run exec m w
    rwa [h] at this
  exact frame_of_issues hm refl trans (fun c hc q old new hq => hc.2 q old new hq) hw q

/-- What `remove` has removed is gone. -/
theorem remove_run {directory : Bool}
    (h : (root.remove path directory).run exec w = (.ok (), w')) :
    w'.tree.get (root.pathOf path) = none := by
  obtain ⟨⟨dir, name⟩, w₁, hparent, h⟩ := Prog.run_bind_eq_ok.mp h
  obtain ⟨hclean, rfl, rfl, rfl⟩ := parent_run hparent
  obtain ⟨_, w₂, hunlink, h⟩ := Prog.run_bind_eq_ok.mp h
  -- What is removed is not there.
  have hgone {v : Disk} {h₀} : ((v.touchDir (v.tree.remove (join (dirName (root.pathOf path))
      (baseName (root.pathOf path))) h₀) (dirName (root.pathOf path))).tree).get
      (root.pathOf path) = none := by
    show (Tree.stamp _ _ _ _).get _ = none
    rw [Tree.get_stamp, if_neg (SepPath.dirName_ne hclean.ne_nil).symm, Tree.get_remove,
      if_pos hclean.join_dirName.symm]
  have hw₂ : w₂.tree.get (root.pathOf path) = none := by
    unfold Root.unlinkat at hunlink
    split at hunlink
    · obtain ⟨_, w₃, hc, hok⟩ := run_call hunlink
      obtain ⟨rfl, rfl⟩ := run_ok hok
      obtain ⟨-, -, -, -, rfl⟩ := Disk.rmdir_ok.mp (Disk.attempt_eq_ok hc)
      exact hgone
    · obtain ⟨_, w₃, hc, hok⟩ := run_call hunlink
      obtain ⟨rfl, rfl⟩ := run_ok hok
      obtain ⟨-, -, -, rfl⟩ := Disk.unlink_ok.mp (Disk.attempt_eq_ok hc)
      exact hgone
  obtain ⟨_, w₃, hc, h⟩ := run_call h
  obtain ⟨-, hw₃⟩ := run_ok h
  -- The sync of the directory changes nothing of it.
  have hsync : w₃ = { w₂ with tick := w₂.tick + 1 } :=
    (congrArg Prod.snd hc).symm.trans Disk.attempt_pure
  rw [← hw₃, hsync]
  exact hw₂

/-- When `mkdir` returns, the directory is there. -/
theorem mkdirFrom_run {parent : Path} {names : List Path} (hne : names ≠ [])
    (h : (Root.mkdirFrom parent names).run exec w = (.ok (), w')) :
    w'.tree.IsDir (names.foldl join parent) := by
  induction names generalizing parent w with
  | nil => exact absurd rfl hne
  | cons name names ih =>
    -- The new directory is opened, made or found.
    have hopened {v : Disk} (h : (sys (.openDir (join parent name)) >>= fun r => ok r >>= fun _ =>
        Root.mkdirFrom (join parent name) names).run exec v = (.ok (), w')) :
        w'.tree.IsDir ((name :: names).foldl join parent) := by
      obtain ⟨_, w₄, hopen, h⟩ := run_call h
      obtain ⟨_, rfl, h⟩ := run_ok_bind h
      cases names with
      | nil =>
        cases h
        have hw : v = w' := congrArg Prod.snd hopen
        exact hw ▸ Tree.openDir_ok.mp (congrArg Prod.fst hopen)
      | cons name' names => exact ih (by simp) h
    obtain ⟨_, _, -, h⟩ := run_call h
    obtain ⟨_, -, h⟩ := run_ok_bind h
    obtain ⟨made, w₂, -, h⟩ := run_call h
    split at h
    · obtain ⟨_, _, -, h⟩ := run_call h
      obtain ⟨_, -, h⟩ := run_ok_bind h
      exact hopened h
    · exact hopened h
    · cases h

/-- After `mkdir` there is a directory. -/
theorem mkdir_run (hpath : root.pathOf path ≠ [])
    (h : (root.mkdir path).run exec w = (.ok (), w')) : w'.tree.IsDir (root.pathOf path) := by
  obtain ⟨s, _, hs, h⟩ := Prog.run_bind_eq_ok.mp h
  obtain ⟨hfull, rfl⟩ := Prog.run_lift_eq_ok.mp hs
  have hutf8 := Root.full_utf8 hfull
  have hnames : ((s.utf8.splitOn slash).filter fun c => c ≠ []).foldl join [] = root.pathOf path := by
    rw [foldl_join_names (Root.full_rooted hfull), hutf8]
  have hne : (s.utf8.splitOn slash).filter (fun c => c ≠ []) ≠ [] := by
    intro hnil
    rw [hnil] at hnames
    exact hpath hnames.symm
  rw [← hnames]
  exact mkdirFrom_run hne h

end

/-! ### What the rest of a run leaves as it is -/

/-- Nothing happens at the path. -/
def kept (p₀ : Path) : Effect := fun q old new => q = p₀ → new = old

/-- A directory at the path stays one. -/
def keptDir (p₀ : Path) : Effect := fun q old new => q = p₀ →
  (∃ n, old = some n ∧ n.body = .directory) → ∃ n, new = some n ∧ n.body = .directory

/-- Nothing appears at the path. -/
def gone (p₀ : Path) : Effect := fun q old new => q = p₀ → old = none → new = none

section
variable {p₀ : Path}

/-- The object at the path is kept by a new time elsewhere. -/
theorem kept_stamps (h : q ≠ p₀) : (kept p₀).Stamps q := fun _ _ _ hq => absurd hq h

/-- It is kept by a file elsewhere. -/
theorem kept_puts (h : q ≠ p₀) : (kept p₀).Puts q := fun _ _ _ _ _ hq => absurd hq h

/-- It is kept by a removal elsewhere. -/
theorem kept_drops (h : q ≠ p₀) : (kept p₀).Drops q := fun _ hq => absurd hq h

/-- A directory stays one when it gets a new time. -/
theorem keptDir_stamps : (keptDir p₀).Stamps q := by
  rintro _ _ ⟨n, n', rfl, rfl, hb⟩ - ⟨m, hm, hdir⟩
  cases hm
  exact ⟨n', rfl, hb.trans hdir⟩

/-- It stays one when directories are made. -/
theorem keptDir_makes : (keptDir p₀).Makes q := fun n hb _ _ => ⟨n, rfl, hb⟩

/-- It stays one when a file is put, since no file replaces a directory. -/
theorem keptDir_puts : (keptDir p₀).Puts q :=
  fun _ _ _ hold _ _ ⟨m, hm, hdir⟩ => absurd hdir (hold m hm)

/-- It stays one when something else goes away. -/
theorem keptDir_drops (h : q ≠ p₀) : (keptDir p₀).Drops q := fun _ hq => absurd hq h

/-- What is gone is not brought back by a new time. -/
theorem gone_stamps : (gone p₀).Stamps q := by
  rintro _ _ ⟨n, n', rfl, rfl, hb⟩ - hold
  cases hold

/-- It is not brought back by a removal. -/
theorem gone_drops : (gone p₀).Drops q := fun _ _ _ => rfl

end

section
variable (hp : plan source destination options = .ok p)
include hp

/-- What a type conflict at another entry removes is not at the entry. -/
theorem apart_of_conflict (he : e ∈ source.entries) (hc : c ∈ source.entries)
    (hcc : clashes destination (guardedPaths source destination) c = true) (hne : c ≠ e)
    (hx : x ∈ destination.entries) (hb : Below x.path.utf8 c.path.utf8) : x.path ≠ e.path := by
  obtain ⟨hsrc, -, -, -⟩ := plan_ok.mp hp
  intro hxe
  rw [hxe] at hb
  by_cases hk : c.kind = .directory
  · have hm : makes (guardedPaths source destination) c = true := by
      simp [makes, live_of_clashes hcc, hk]
    obtain ⟨hxc, -⟩ := eq_of_zone_of_makes hp hc hm hcc hx (hxe ▸ hb)
    exact hne (hsrc.eq_of_path hc he (hxc.symm.trans hxe))
  · exact hne (hsrc.eq_of_below_file hc hk he hb).symm

/-- What a type conflict at another entry removes is not at or below a file of the plan. -/
theorem not_below_of_conflict (he : e ∈ source.entries)
    (hlive : live (guardedPaths source destination) e = true) (hk : e.kind = .file)
    (hc : c ∈ source.entries)
    (hcc : clashes destination (guardedPaths source destination) c = true) (hne : c ≠ e)
    (hx : x ∈ destination.entries) (hb : Below x.path.utf8 c.path.utf8) :
    ¬ Below x.path.utf8 e.path.utf8 := by
  intro hxe
  have hpath : x.path.utf8 ≠ e.path.utf8 := fun h =>
    apart_of_conflict hp he hc hcc hne hx hb (String.utf8_injective h)
  have hce := clashes_of_below hp hlive hk hx hxe hpath
  exact hne (clash_unique hp he hce hc hcc hx hxe hb)

/-- A removal is not below a file of the source. -/
theorem not_below_of_removal (he : e ∈ source.entries)
    (hlive : live (guardedPaths source destination) e = true) (hk : e.kind = .file)
    (hx : x ∈ p.removals) : ¬ Below x.path.utf8 e.path.utf8 := by
  obtain ⟨-, hxd, hr⟩ := (mem_removals hp).mp hx
  obtain ⟨hnone, -, hzone⟩ := removes_iff.mp hr
  intro hxe
  have hpath : x.path.utf8 ≠ e.path.utf8 := fun h =>
    Manifest.get?_eq_none.mp hnone e he (String.utf8_injective h).symm
  exact hzone e he (clashes_of_below hp hlive hk hxd hxe hpath) hxe

/-! ### What a run that succeeds has done -/

variable [Sha256] {contents : Entry → Bytes} {w w' : Disk}

omit [Sha256] hp in
/-- An object is kept by removals that are not above it. -/
theorem kept_dropsAll {entries : List Entry} {p₀ : Path} (h₀ : p₀ ≠ [])
    (h : ∀ x ∈ entries, ¬ Below (root.pathOf x.path) p₀) : (kept p₀).DropsAll root entries := by
  intro x hx
  refine ⟨kept_stamps fun heq => h x hx ?_, kept_drops fun heq => h x hx (heq ▸ SepPath.Below.refl)⟩
  exact SepPath.Below.of_dirName_ne_nil (heq ▸ SepPath.Below.refl) h₀

omit [Sha256] hp in
/-- What has been removed in the last step stays away. -/
theorem finish_removes (hx : x ∈ p.removals)
    (h : (finish root source p).run exec w = (.ok (), w')) :
    w'.tree.get (root.pathOf x.path) = none := by
  obtain ⟨_, _, -, h⟩ := Prog.run_bind_eq_ok.mp h
  obtain ⟨_, w₃, hremovals, htimes⟩ := Prog.run_bind_eq_ok.mp h
  obtain ⟨pre, post, hpost⟩ := List.append_of_mem hx
  rw [hpost] at hremovals
  obtain ⟨_, w₂, hturn, hrest⟩ := Prog.run_forM_split hremovals
  have hrefl : ∀ q y, gone (root.pathOf x.path) q y y := fun _ _ _ h => h
  have htrans : ∀ q y z u, gone (root.pathOf x.path) q y z → gone (root.pathOf x.path) q z u →
      gone (root.pathOf x.path) q y u := fun _ _ _ _ h1 h2 hq h => h2 hq (h1 hq h)
  have h1 := effect_of_run (E := gone (root.pathOf x.path))
    (Prog.issues_forM fun y _ => calls_remove gone_stamps gone_drops) hrefl htrans hrest _ rfl
    (remove_run hturn)
  exact effect_of_run (E := gone (root.pathOf x.path))
    (Prog.issues_forM fun i _ => calls_index fun e _ => calls_setMtime gone_stamps) hrefl htrans
    htimes _ rfl h1

/-- A file that has been installed stays as it is. -/
theorem files_installed {i : Nat} (hi : source.entries[i]? = some e)
    (ht : transfers destination options (guardedPaths source destination) e = true) {w₁ w₂ : Disk}
    (hinstalls : (p.files.forM fun i => (do
      let e ← index source.entries i "source.entries"
      install root e destination p (contents e) : FsM Unit)).run exec w₁ = (.ok (), w₂))
    (hfinish : (finish root source p).run exec w₂ = (.ok (), w')) :
    (contents e).length = e.size ∧ (∀ h ∈ e.hash, h = digest (contents e)) ∧
      ∃ n, w'.tree.get (root.pathOf e.path) = some n ∧ n.body = .file (contents e) ∧
        n.mtime.sec = e.mtime ∧ n.mtime.ns = e.ns := by
  obtain ⟨hsrc, hdst, -, -⟩ := plan_ok.mp hp
  obtain ⟨hlive, hk⟩ := live_of_transfers ht
  have he := List.mem_of_getElem? hi
  have hfiles := (mem_files hp).mpr ⟨e, hi, ht⟩
  obtain ⟨pre, post, hpost⟩ := List.append_of_mem hfiles
  have hsorted := files_sorted hp
  rw [hpost] at hinstalls hsorted
  obtain ⟨v₁, v₂, hturn, hrest⟩ := Prog.run_forM_split hinstalls
  obtain ⟨e', hi', hturn⟩ := index_run hturn
  obtain rfl := Option.some.inj (hi.symm.trans hi')
  obtain ⟨hsize, hhash, -, n, hn, hb, hm⟩ := install_run hturn
  refine ⟨hsize, hhash, n, ?_, hb, hm⟩
  -- No later step works at the path of the file, or in it.
  have hp₀ : root.pathOf e.path ≠ [] := pathOf_ne_nil (hsrc.path_ne_empty he)
  have hrefl : ∀ q y, kept (root.pathOf e.path) q y y := fun _ _ _ => rfl
  have htrans : ∀ q y z u, kept (root.pathOf e.path) q y z → kept (root.pathOf e.path) q z u →
      kept (root.pathOf e.path) q y u := fun _ _ _ _ h1 h2 hq => (h2 hq).trans (h1 hq)
  have hinst : w₂.tree.get (root.pathOf e.path) = v₂.tree.get (root.pathOf e.path) := by
    refine effect_of_run (E := kept (root.pathOf e.path))
      (Prog.issues_forM fun j hj => calls_index fun d hd => ?_) hrefl htrans hrest _ rfl
    have hij := (List.pairwise_cons.mp (List.pairwise_append.mp hsorted).2.1).1 j hj
    have hde : d ≠ e := fun h => by
      have := hsrc.index_inj hi (h ▸ hd)
      omega
    have hdmem := List.mem_of_getElem? hd
    have hnot : ¬ Below (root.pathOf d.path) (root.pathOf e.path) := fun h =>
      hde (hsrc.eq_of_below_file he (by simp [hk]) hdmem ((hsrc.below_of_pathOf hdmem hsrc he).mp h))
    have hone := @kept_dropsAll root [d] _ hp₀
      (fun x hx => by rwa [List.mem_singleton.mp hx]) d (by simp)
    refine calls_install hone.1 (kept_puts fun h => hnot (h ▸ SepPath.Below.refl)) fun entries hc => ?_
    rw [conflict?_eq hp hdmem] at hc
    split at hc
    · next hcl =>
      obtain rfl := Option.some.inj hc
      refine kept_dropsAll hp₀ fun x hx hbx => ?_
      obtain ⟨hxd, hxb⟩ := mem_conflictEntries.mp hx
      exact not_below_of_conflict hp he hlive hk hdmem hcl hde hxd hxb
        ((hdst.below_of_pathOf hxd hsrc he).mp hbx)
    · cases hc
  have hfin : w'.tree.get (root.pathOf e.path) = w₂.tree.get (root.pathOf e.path) := by
    refine effect_of_run (E := kept (root.pathOf e.path)) (calls_finish ?_ fun j hj d hd => ?_)
      hrefl htrans hfinish _ rfl
    · refine kept_dropsAll hp₀ fun x hx hbx => ?_
      have hxd := (removal_facts hp hx).1
      exact not_below_of_removal hp he hlive hk hx ((hdst.below_of_pathOf hxd hsrc he).mp hbx)
    · obtain ⟨d', hd', hmk⟩ := (mem_directories hp).mp hj
      obtain rfl := Option.some.inj (hd.symm.trans hd')
      refine kept_stamps fun heq => ?_
      have hpath : d.path.utf8 = e.path.utf8 := SepPath.join_injective _ heq
      have hdk := (live_of_makes hmk).2
      rw [hsrc.eq_of_path (List.mem_of_getElem? hd) he (String.utf8_injective hpath), hk] at hdk
      cases hdk
  rw [hfin, hinst, hn]

/-- A directory that has been made stays one. -/
theorem directory_made {i : Nat} (hi : source.entries[i]? = some e)
    (hm : makes (guardedPaths source destination) e = true)
    (h : (runPlan root source destination p p.files contents).run exec w = (.ok (), w')) :
    w'.tree.IsDir (root.pathOf e.path) := by
  obtain ⟨hsrc, hdst, -, -⟩ := plan_ok.mp hp
  have he := List.mem_of_getElem? hi
  obtain ⟨_, w₁, hprepare, h⟩ := Prog.run_bind_eq_ok.mp h
  obtain ⟨_, w₂, hinstalls, hfinish⟩ := Prog.run_bind_eq_ok.mp h
  obtain ⟨_, _, -, hdirs⟩ := Prog.run_bind_eq_ok.mp hprepare
  obtain ⟨pre, post, hpost⟩ := List.append_of_mem ((mem_directories hp).mpr ⟨e, hi, hm⟩)
  have hsorted := directories_sorted hp
  rw [hpost] at hdirs hsorted
  obtain ⟨v₁, v₂, hturn, hrest⟩ := Prog.run_forM_split hdirs
  obtain ⟨e', hi', hturn⟩ := index_run hturn
  obtain rfl := Option.some.inj (hi.symm.trans hi')
  obtain ⟨_, _, -, hmkdir⟩ := Prog.run_bind_eq_ok.mp hturn
  have hmade := mkdir_run (pathOf_ne_nil (hsrc.path_ne_empty he)) hmkdir
  -- Only what a type conflict or the last step removes could take the directory away.
  have hrefl : ∀ q y, keptDir (root.pathOf e.path) q y y := fun _ _ _ h => h
  have htrans : ∀ q y z u, keptDir (root.pathOf e.path) q y z →
      keptDir (root.pathOf e.path) q z u → keptDir (root.pathOf e.path) q y u :=
    fun _ _ _ _ h1 h2 hq h => h2 hq (h1 hq h)
  have hdrops {entries : List Entry} (h : ∀ x ∈ entries, x.path ≠ e.path) :
      (keptDir (root.pathOf e.path)).DropsAll root entries := fun x hx =>
    ⟨keptDir_stamps, keptDir_drops fun heq =>
      h x hx (String.utf8_injective (SepPath.join_injective _ heq))⟩
  have hmakes : (keptDir (root.pathOf e.path)).MakesTo (root.pathOf e.path) :=
    fun _ _ _ => ⟨keptDir_makes, keptDir_stamps⟩
  have hconf {j : Nat} {d : Entry} (hd : source.entries[j]? = some d) (hde : d ≠ e) :
      ∀ entries, p.conflict? d.path = some entries →
        (keptDir (root.pathOf e.path)).DropsAll root entries := by
    intro entries hc
    have hdmem := List.mem_of_getElem? hd
    rw [conflict?_eq hp hdmem] at hc
    split at hc
    · next hcl =>
      obtain rfl := Option.some.inj hc
      refine hdrops fun x hx => ?_
      obtain ⟨hxd, hxb⟩ := mem_conflictEntries.mp hx
      exact apart_of_conflict hp he hdmem hcl hde hxd hxb
    · cases hc
  have h1 : w₁.tree.IsDir (root.pathOf e.path) := by
    refine effect_of_run (E := keptDir (root.pathOf e.path))
      (Prog.issues_forM fun j hj => calls_index fun d hd => ?_) hrefl htrans hrest _ rfl hmade
    have hij := (List.pairwise_cons.mp (List.pairwise_append.mp hsorted).2.1).1 j hj
    have hde : d ≠ e := fun h => by
      have := hsrc.index_inj hi (h ▸ hd)
      omega
    exact Prog.issues_bind (calls_clearConflict (hconf hd hde)) fun _ =>
      calls_mkdir fun _ _ _ => ⟨keptDir_makes, keptDir_stamps⟩
  have h2 : w₂.tree.IsDir (root.pathOf e.path) := by
    refine effect_of_run (E := keptDir (root.pathOf e.path))
      (Prog.issues_forM fun j hj => calls_index fun d hd => ?_) hrefl htrans hinstalls _ rfl h1
    obtain ⟨d', hd', ht⟩ := (mem_files hp).mp hj
    obtain rfl := Option.some.inj (hd.symm.trans hd')
    have hde : d ≠ e := by
      rintro rfl
      have hk := (live_of_transfers ht).2
      rw [(live_of_makes hm).2] at hk
      cases hk
    exact calls_install keptDir_stamps keptDir_puts (hconf hd hde)
  refine effect_of_run (E := keptDir (root.pathOf e.path))
    (calls_finish (hdrops fun x hx heq => ?_) fun _ _ _ _ => keptDir_stamps) hrefl htrans hfinish _
    rfl h2
  exact (removal_facts hp hx).2.2.2.2 e he (heq ▸ SepPath.Below.refl)

end

/-- The operation has been carried out in the tree. -/
def Operation.CarriedOut [Sha256] (root : Root) (source : Manifest) (contents : Entry → Bytes)
    (t : Tree) (op : Operation) : Prop :=
  match op.action with
  | .skip => True
  | .mkdir => t.IsDir (root.pathOf op.path)
  | .create | .update => ∃ e ∈ source.entries, e.path = op.path ∧ e.kind = .file ∧
      (contents e).length = e.size ∧ (∀ h ∈ e.hash, h = digest (contents e)) ∧
      ∃ n, t.get (root.pathOf op.path) = some n ∧ n.body = .file (contents e) ∧
        n.mtime.sec = e.mtime ∧ n.mtime.ns = e.ns
  | .delete => t.get (root.pathOf op.path) = none

/-- A printed Mkdir is an entry that the plan makes. -/
theorem makes_of_mkdir {guarded : List String}
    (h : actionOf destination options guarded e = .mkdir) : makes guarded e = true := by
  unfold actionOf at h
  split at h
  · cases h
  · next hlive =>
    split at h
    · next hk => simpa [makes, hk] using hlive
    · split at h
      · cases h
      · split at h <;> cases h
    · cases h

/-- A printed Create or Update is a file that is sent. -/
theorem transfers_of_action {guarded : List String}
    (h : actionOf destination options guarded e = .create ∨
      actionOf destination options guarded e = .update) :
    transfers destination options guarded e = true := by
  unfold actionOf at h
  split at h
  · simp at h
  · next hlive =>
    split at h
    · split at h <;> simp at h
    · next hk =>
      split at h
      · simp at h
      · next hsame => simpa [transfers, hk, hsame] using hlive
    · simp at h

/-- After a run that succeeds, every printed operation but a Skip has been carried out. -/
theorem carried_out [Sha256] (hp : plan source destination options = .ok p)
    {contents : Entry → Bytes} {w w' : Disk}
    (h : (runPlan root source destination p p.files contents).run exec w = (.ok (), w'))
    {op : Operation} (hop : op ∈ p.operations) : op.CarriedOut root source contents w'.tree := by
  obtain ⟨_, w₁, hprepare, hrest⟩ := Prog.run_bind_eq_ok.mp h
  obtain ⟨_, w₂, hinstalls, hfinish⟩ := Prog.run_bind_eq_ok.mp hrest
  -- An operation for an entry of the source, or a deletion.
  rcases (mem_operations hp).mp hop with ⟨e, he, rfl⟩ | ⟨x, hx, rfl⟩
  · obtain ⟨i, hi⟩ := List.getElem?_of_mem he
    have hfile (ht : transfers destination options (guardedPaths source destination) e = true) :
        ∃ e' ∈ source.entries, e'.path = e.path ∧ e'.kind = .file ∧
          (contents e').length = e'.size ∧ (∀ h ∈ e'.hash, h = digest (contents e')) ∧
          ∃ n, w'.tree.get (root.pathOf e.path) = some n ∧ n.body = .file (contents e') ∧
            n.mtime.sec = e'.mtime ∧ n.mtime.ns = e'.ns :=
      ⟨e, he, rfl, (live_of_transfers ht).2, files_installed hp hi ht hinstalls hfinish⟩
    unfold Operation.CarriedOut
    split
    · trivial
    · next ha => exact directory_made hp hi (makes_of_mkdir ha) h
    · next ha => exact hfile (transfers_of_action (.inl ha))
    · next ha => exact hfile (transfers_of_action (.inr ha))
    · next ha => exact absurd ha actionOf_ne_delete
  · exact finish_removes hx hfinish

/-- What a run does away with is shown by the printed plan, and what the plan shows is done. -/
theorem runPlan_disclosed [Sha256] (root : Root) (source destination : Manifest)
    (options : Options) (p : Plan) (contents : Entry → Bytes)
    (hp : plan source destination options = .ok p) :
    (∀ (is : List Nat) (w w' : Disk) (path : String) (n : Node), (∀ i ∈ is, i ∈ p.files) →
      (runPlan root source destination p is contents).Moment exec w w' →
      w.tree.get (root.pathOf path) = some n →
      (w'.tree.get (root.pathOf path)).map Node.body ≠ some n.body →
        p.Names path ∨ p.Clears source destination path) ∧
    ∀ w w' : Disk,
      (runPlan root source destination p p.files contents).run exec w = (.ok (), w') →
      ∀ op ∈ p.operations, op.CarriedOut root source contents w'.tree := by
  refine ⟨fun is w w' path n his hw hn hchanged => ?_, fun w w' h op hop => ?_⟩
  · exact disclosed_of_moment hp his hw hn hchanged
  · exact carried_out hp h hop

end

/-! ### A directory that a file replaces

The source has a file where the destination has a directory with a file in it. -/

/-- A source with the file `a`. -/
def fileSource : Manifest := ⟨[⟨"a", .file, 0, 7, 0, some emptyHash⟩]⟩

/-- A destination with a directory `a` that holds `a/b`. -/
def filledDestination : Manifest :=
  ⟨[⟨"a", .directory, 0, 0, 0, none⟩, ⟨"a/b", .file, 0, 0, 0, some emptyHash⟩]⟩

/-- That destination on a disk. -/
def filledDisk : Disk :=
  (exec (.openLock "a/b".utf8) (exec (.mkdir [] "a".utf8) .empty).2).2

/-- The plan names `a` only, and clears `a/b` for it. -/
def clearingPlan : Plan where
  operations := [⟨.update, "a"⟩]
  files := [0]
  directories := []
  removals := []
  conflicts := [("a", [⟨"a/b", .file, 0, 0, 0, some emptyHash⟩, ⟨"a", .directory, 0, 0, 0, none⟩])]

/-- The new directory of the small run is made. The file `a/b` that the other run does away with lies in
the directory `a`, which the plan names. -/
theorem runPlan_disclosed_small :
    (@Operation.CarriedOut emptySha .opened smallSource (fun _ => [])
      ((smallRun smallDestination).run exec smallDisk).2.tree ⟨.mkdir, "a"⟩) ∧
    (clearingPlan.Names "a/b" ∨ clearingPlan.Clears fileSource filledDestination "a/b") := by
  constructor
  -- What is printed is done.
  · have hok : ((smallRun smallDestination).run exec smallDisk).1 = .ok () := by decide +kernel
    have h := @runPlan_disclosed emptySha .opened smallSource smallDestination smallOptions smallPlan
      (fun _ => []) small_plan
    exact h.2 smallDisk _ (Prod.ext hok rfl) ⟨.mkdir, "a"⟩ List.mem_cons_self
  -- And what is destroyed was printed, or is below a directory that a file replaces.
  · have hplan : plan fileSource filledDestination smallOptions = .ok clearingPlan := by
      decide +kernel
    have h := @runPlan_disclosed emptySha .opened fileSource filledDestination smallOptions
      clearingPlan (fun _ => []) hplan
    have hthere : (filledDisk.tree.get (Root.opened.pathOf "a/b")).isSome := by decide +kernel
    have hgone : (((@runPlan emptySha .opened fileSource filledDestination clearingPlan
        clearingPlan.files fun _ => []).run exec filledDisk).2.tree.get (Root.opened.pathOf "a/b"))
        = none := by decide +kernel
    obtain ⟨n, hn⟩ := Option.isSome_iff_exists.mp hthere
    refine h.1 clearingPlan.files filledDisk _ "a/b" n (fun _ hi => hi) (Prog.moment_run _ _ _) hn ?_
    rw [hgone]
    simp

/-- The run removes the file `a/b`, and no operation has its path. -/
theorem cleared_unnamed :
    plan fileSource filledDestination smallOptions = .ok clearingPlan ∧
    (((@runPlan emptySha .opened fileSource filledDestination clearingPlan clearingPlan.files
      fun _ => []).run exec filledDisk).1 = .ok ()) ∧
    (filledDisk.tree.get "a/b".utf8).isSome ∧
    (((@runPlan emptySha .opened fileSource filledDestination clearingPlan clearingPlan.files
      fun _ => []).run exec filledDisk).2.tree.get "a/b".utf8) = none ∧
    ∀ op ∈ clearingPlan.operations, op.path ≠ "a/b" := by
  refine ⟨by decide +kernel, by decide +kernel, by decide +kernel, by decide +kernel, by decide⟩

end RrSync

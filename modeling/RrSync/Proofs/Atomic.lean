import RrSync.Proofs.Apart

/-!
# `RrSync.Proofs.Atomic`: an installation takes place as a whole or not at all

Between the staging and the rename an installation only looks. So a run that stops before the
rename has changed nothing but the time of the directory (`installFrom_undisturbed`), and a run
that gets past it has put the whole file in its place (`install_atomic`).
-/

set_option autoImplicit false

namespace RrSync

open Lib

namespace Tree

variable {t t' t'' : Tree} {d p q : Path}

/-- Only the directory `d` may have a new time. -/
def SameBut (t t' : Tree) (d : Path) : Prop :=
  (∀ q, q ≠ d → t'.get q = t.get q) ∧ (t.IsDir d → t'.IsDir d) ∧ (¬ t.IsDir d → t' = t)

/-- No object has changed, times of directories aside. -/
def Undisturbed (t t' : Tree) : Prop :=
  ∀ q, t'.get q = t.get q ∨ t.IsDir q ∧ t'.IsDir q

/-- A tree is the same as itself. -/
theorem SameBut.refl : t.SameBut t d := ⟨fun _ _ => rfl, id, fun _ => rfl⟩

/-- The same but for the time of a directory, twice. -/
theorem SameBut.trans (h : t.SameBut t' d) (h' : t'.SameBut t'' d) : t.SameBut t'' d := by
  refine ⟨fun q hq => (h'.1 q hq).trans (h.1 q hq), fun hd => h'.2.1 (h.2.1 hd), fun hd => ?_⟩
  obtain rfl := h.2.2 hd
  exact h'.2.2 hd

/-- A tree that is the same but for that has all of its objects. -/
theorem SameBut.undisturbed (h : t.SameBut t' d) : t.Undisturbed t' := by
  intro q
  by_cases hq : q = d
  · subst hq
    by_cases hd : t.IsDir q
    · exact .inr ⟨hd, h.2.1 hd⟩
    · rw [h.2.2 hd]
      exact .inl rfl
  · exact .inl (h.1 q hq)

/-- A new time of a directory changes nothing else. -/
theorem sameBut_stamp {time : Time} {tag : Nat} (hd : t.IsDir d) :
    t.SameBut (t.stamp d time tag) d :=
  ⟨fun q hq => by rw [get_stamp, if_neg hq], fun h => isDir_stamp.mpr h, fun h => absurd hd h⟩

end Tree

/-! ### Staging -/

section
variable [Sha256] {root : Root} {path : String} {reader : Reading} {size : Nat}
  {hash : Option Hash} {mtime : Option (Int64 × UInt32)} {w w' : Disk}

omit [Sha256] in
/-- The parent directory of a path has been opened. -/
theorem parent_isDir {dir name : Path}
    (h : (root.parent path).run exec w = (.ok (dir, name), w')) : w.tree.IsDir dir := by
  obtain ⟨_, _, hvalid, h⟩ := Prog.run_bind_eq_ok.mp h
  obtain ⟨-, rfl⟩ := Prog.run_lift_eq_ok.mp hvalid
  obtain ⟨full, _, hlift, h⟩ := Prog.run_bind_eq_ok.mp h
  obtain ⟨-, rfl⟩ := Prog.run_lift_eq_ok.mp hlift
  obtain ⟨_, _, hc, h⟩ := run_call h
  obtain ⟨_, rfl, h⟩ := run_ok_bind h
  obtain ⟨hpair, rfl⟩ := Prog.run_pure_eq_ok.mp h
  cases hpair
  exact Tree.openDir_ok.mp (congrArg Prod.fst hc)

omit [Sha256] in
/-- A new time after a new time. -/
theorem Restamped.trans {x y z : Option Node} (h : Restamped x y) (h' : Restamped y z) :
    Restamped x z := by
  obtain ⟨n, m, rfl, rfl, hb⟩ := h
  obtain ⟨m', n', hm, rfl, hb'⟩ := h'
  cases hm
  exact ⟨n, n', rfl, rfl, hb'.trans hb⟩

/-- The effect of staging in the directory `d`. -/
def OnlyDir (d : Path) : Effect := fun q old new => new = old ∨ q = d ∧ Restamped old new

omit [Sha256] in
/-- An effect on the time of a directory only. -/
theorem sameBut_of_onlyDir {d : Path} (h : ∀ q, OnlyDir d q (w.tree.get q) (w'.tree.get q))
    (hd : w.tree.IsDir d) : w.tree.SameBut w'.tree d := by
  refine ⟨fun q hq => ?_, fun _ => ?_, fun hnd => absurd hd hnd⟩
  · rcases h q with hs | ⟨rfl, -⟩
    · exact hs
    · exact absurd rfl hq
  · obtain ⟨n, hn, hb⟩ := hd
    rcases h d with hs | ⟨-, m, m', hm, hm', hbody⟩
    · exact ⟨n, hs.trans hn, hb⟩
    · obtain rfl := Option.some.inj (hn.symm.trans hm)
      exact ⟨m', hm', hbody.trans hb⟩

/-- Staging changes no object, whatever it returns. -/
theorem stageFrom_sameBut : w.tree.SameBut ((root.stageFrom path reader size hash mtime).run exec
    w).2.tree (dirName (root.pathOf path)) := by
  cases hp : (root.parent path).run exec w with
  | mk r v =>
    have hquiet : v = w := by
      have := (quiet_of_reads (@reads_parent root path)).run_snd w
      rwa [hp] at this
    subst hquiet
    cases r with
    | error e =>
      have hrun : (root.stageFrom path reader size hash mtime).run exec v = (.error e, v) := by
        unfold Root.stageFrom
        exact Prog.run_bind_error hp
      rw [hrun]
      exact .refl
    | ok pair =>
      obtain ⟨dir, name⟩ := pair
      obtain ⟨-, rfl, -, -⟩ := parent_run hp
      refine sameBut_of_onlyDir (fun q => ?_) (parent_isDir hp)
      -- The only effect of staging is a new time of the directory.
      have hcalls := (@calls_stageFrom _ (OnlyDir (dirName (root.pathOf path))) root path reader
        size hash mtime fun old new h => .inr ⟨rfl, h⟩).1
      refine frame_of_issues (R := OnlyDir (dirName (root.pathOf path))) hcalls
        (fun _ _ => .inl rfl) ?_ (fun _ hc => hc.2) (Prog.moment_run exec _ _) q
      rintro q x y z (rfl | ⟨rfl, h1⟩) (rfl | ⟨hq, h2⟩)
      · exact .inl rfl
      · exact .inr ⟨hq, h2⟩
      · exact .inr ⟨rfl, h1⟩
      · exact .inr ⟨rfl, h1.trans h2⟩

/-- A successful staging has read a file of the wanted size and hash. -/
def Reading.Yields (reader : Reading) (size : Nat) (hash : Option Hash) : Prop :=
  reader.failure = none ∧ reader.blocks.flatten.length = size ∧
    ∀ x ∈ hash, x = digest reader.blocks.flatten

/-! ### Committing -/

/-- The new file is in its place, and no other object has changed. -/
def Installed (path : Path) (e : Entry) (data : Bytes) (t t' : Tree) : Prop :=
  (∃ n, t'.get path = some n ∧ n.body = .file data ∧ n.mtime.sec = e.mtime ∧ n.mtime.ns = e.ns) ∧
    ∀ q, q ≠ path → t'.get q = t.get q ∨ t.IsDir q ∧ t'.IsDir q

omit [Sha256] in
/-- A commit changes nothing, or it puts the staged file in its place. -/
theorem commit_outcome {p : Path} (hp : CleanPath p) {temp : Temp} (ht : w.temp = some temp)
    (hd : w.tree.IsDir (dirName p)) {r : Except Error Unit}
    (h : (Staged.commit ⟨dirName p, baseName p⟩).run exec w = (r, w')) :
    ((∃ e, r = .error e) ∧ w'.tree = w.tree) ∨
    w'.temp = none ∧ (∃ n, w'.tree.get p = some n ∧ n.body = .file temp.data ∧
      n.mtime = temp.mtime) ∧
      (∀ q, q ≠ p → q ≠ dirName p → w'.tree.get q = w.tree.get q) ∧ w'.tree.IsDir (dirName p) := by
  have hne : dirName p ≠ p := SepPath.dirName_ne hp.ne_nil
  cases hr : exec (.rename (dirName p) (baseName p)) w with
  | mk res w₁ =>
    have hcommit : (Staged.commit ⟨dirName p, baseName p⟩).run exec w
        = (ok res >>= fun _ => sys (.sync (dirName p)) >>= ok : FsM Unit).run exec w₁ := by
      rw [show w₁ = (exec (.rename (dirName p) (baseName p)) w).2 by rw [hr],
        show res = (exec (.rename (dirName p) (baseName p)) w).1 by rw [hr]]
      rfl
    rw [hcommit] at h
    cases res with
    | error e =>
      have hw₁ : w₁ = { w with tick := w.tick + 1 } := by
        have := attempt_error (congrArg Prod.fst hr : (w.attempt _).1 = _)
        exact (congrArg Prod.snd hr).symm.trans this
      cases h
      exact .inl ⟨⟨_, rfl⟩, by rw [hw₁]⟩
    | ok u =>
      -- The sync changes nothing, so the disk is the one after the rename.
      obtain ⟨temp', ht', -, -, -, hfits, hw₁⟩ := Disk.rename_ok.mp (Disk.attempt_eq_ok hr)
      obtain rfl := Option.some.inj (ht.symm.trans ht')
      have hsync : w'.tree = w₁.tree ∧ w'.temp = w₁.temp := by
        have hquiet : (exec (.sync (dirName p)) w₁).2 = { w₁ with tick := w₁.tick + 1 } :=
          Disk.attempt_pure
        have hsnd : w' = (exec (.sync (dirName p)) w₁).2 := by
          rw [show w' = (r, w').2 from rfl, ← h]
          show ((ok (exec (.sync (dirName p)) w₁).1).run exec (exec (.sync (dirName p)) w₁).2).2 = _
          cases (exec (.sync (dirName p)) w₁).1 <;> rfl
        rw [hsnd, hquiet]
        exact ⟨rfl, rfl⟩
      cases hw₁
      refine .inr ⟨hsync.2, ?_, ?_, ?_⟩
      · rw [hsync.1]
        show ∃ n, (Tree.stamp _ (dirName p) _ _).get p = some n ∧ _
        rw [Tree.get_stamp, if_neg hne.symm, Tree.get_put, if_pos hp.join_dirName.symm]
        exact ⟨_, rfl, rfl, rfl⟩
      · intro q hq hqd
        rw [hsync.1]
        show (Tree.stamp _ (dirName p) _ _).get q = _
        rw [Tree.get_stamp, if_neg hqd, Tree.get_put, if_neg (by rwa [hp.join_dirName])]
      · rw [hsync.1]
        refine Tree.isDir_stamp.mpr ?_
        obtain ⟨n, hn, hb⟩ := hd
        exact ⟨n, by rw [Tree.get_put, if_neg (by rwa [hp.join_dirName]), hn], hb⟩

/-! ### The installation -/

/-- The object at the path is as the destination manifest says, absent if it is not listed. -/
def AsListed (path : Path) (e : Entry) (destination : Manifest) (t : Tree) : Prop :=
  match destination.get? e.path with
  | some old => ∃ n, t.get path = some n ∧ old.accepts n.metadata = true
  | none => t.get path = none

/-- The check of `install` between the staging and the rename. -/
def checkListed (root : Root) (e : Entry) (destination : Manifest) : FsM Unit :=
  match destination.get? e.path with
  | some old => checkEntry root old
  | none => do if ← root.exists? e.path then throw (.changed e.path)

variable {e : Entry} {destination : Manifest} {plan : Plan}

/-- An installation: the file is staged, and in its scope everything else is done. -/
theorem installFrom_eq : installFrom root e destination plan reader
    = root.stageFrom e.path reader e.size e.hash (some (e.mtime, e.ns)) >>= fun staged =>
      staged.scope (checkListed root e destination >>= fun _ =>
        clearConflict root plan e.path >>= fun _ => staged.commit) := by
  unfold installFrom checkListed
  congr 1
  funext staged
  congr 1
  cases destination.get? e.path with
  | some old => rfl
  | none =>
    simp only [bind_assoc]
    congr 1
    funext found
    cases found <;> rfl

omit [Sha256] in
/-- The check of what is in its place only reads. -/
theorem reads_checkListed : Calls FsCall.Reads (checkListed root e destination) := by
  unfold checkListed
  split
  · exact calls_checkEntry
  · refine Prog.issues_bind calls_exists fun found => ?_
    split <;> trivial

omit [Sha256] in
/-- When it passes, what is there is as listed. -/
theorem checkListed_run (h : (checkListed root e destination).run exec w = (.ok (), w')) :
    AsListed (root.pathOf e.path) e destination w.tree ∧ w' = w := by
  refine ⟨?_, run_quiet reads_checkListed h⟩
  unfold checkListed at h
  unfold AsListed
  cases hg : destination.get? e.path with
  | some old =>
    rw [hg] at h
    obtain ⟨-, n, hn, ha⟩ := checkEntry_ok.mp (congrArg Prod.fst h)
    rw [(Manifest.mem_of_get? hg).2] at hn
    exact ⟨n, hn, ha⟩
  | none =>
    rw [hg] at h
    obtain ⟨found, w₁, hexists, hrest⟩ := Prog.run_bind_eq_ok.mp h
    have hfound := exists_ok (congrArg Prod.fst hexists)
    cases found with
    | true => cases hrest
    | false => simpa using hfound

omit [Sha256] in
/-- What the time of a directory does not change. -/
theorem AsListed.of_sameBut {p : Path} (hp : p ≠ []) {t t' : Tree}
    (h : t.SameBut t' (dirName p)) (hl : AsListed p e destination t') :
    AsListed p e destination t := by
  have hget : t'.get p = t.get p := h.1 p (SepPath.dirName_ne hp).symm
  unfold AsListed at hl ⊢
  rwa [hget] at hl

omit [Sha256] in
/-- A staged file is dropped at the end of its scope. -/
theorem run_scope {staged : Staged} {m : FsM Unit} :
    (staged.scope m).run exec w
      = ((m.run exec w).1, (m.run exec w).2.dropTemp staged.dir) := by
  unfold Staged.scope
  rw [Prog.run_ensuring]
  rfl

omit [Sha256] in
/-- Dropping the staged file changes only the time of the directory. -/
theorem dropTemp_sameBut {d : Path} (hd : w.tree.IsDir d) :
    w.tree.SameBut (w.dropTemp d).tree d := by
  unfold Disk.dropTemp
  split
  · exact .refl
  · exact Tree.sameBut_stamp hd

/-- What a staging that succeeds leaves: the whole content in a file without a name, and a tree that is
as it was but for the time of the directory. -/
structure Staging (root : Root) (e : Entry) (reader : Reading) (w v : Disk) : Prop where
  yields : reader.Yields e.size e.hash
  clean : CleanPath (root.pathOf e.path)
  dir : w.tree.IsDir (dirName (root.pathOf e.path))
  temp : ∃ time, v.temp = some ⟨dirName (root.pathOf e.path), reader.blocks.flatten, time⟩ ∧
    time.sec = e.mtime ∧ time.ns = e.ns
  same : w.tree.SameBut v.tree (dirName (root.pathOf e.path))

variable {v v' : Disk}

/-- When staging returns, the whole content is staged and verified. -/
theorem stageFrom_staging {staged : Staged}
    (hs : (root.stageFrom e.path reader e.size e.hash (some (e.mtime, e.ns))).run exec w
      = (.ok staged, v)) :
    staged = ⟨dirName (root.pathOf e.path), baseName (root.pathOf e.path)⟩ ∧
      Staging root e reader w v := by
  have hsame : w.tree.SameBut ((root.stageFrom e.path reader e.size e.hash
      (some (e.mtime, e.ns))).run exec w).2.tree (dirName (root.pathOf e.path)) :=
    stageFrom_sameBut
  rw [hs] at hsame
  obtain ⟨hfail, hinner⟩ := stageFrom_run hs
  obtain ⟨hclean, rfl, hsize, hhash, time, ht, htime⟩ := stageInner_run hinner
  have hdir : w.tree.IsDir (dirName (root.pathOf e.path)) := by
    unfold Root.stageInner at hinner
    obtain ⟨⟨dir, name⟩, w₁, hparent, -⟩ := Prog.run_bind_eq_ok.mp hinner
    obtain ⟨-, rfl, -, -⟩ := parent_run hparent
    exact parent_isDir hparent
  exact ⟨rfl, ⟨hfail, hsize, hhash⟩, hclean, hdir, ⟨time, ht, htime _ _ rfl⟩, hsame⟩

omit [Sha256] in
/-- Dropping the staged file leaves the tree undisturbed. -/
theorem Tree.SameBut.dropped {d : Path} (h : w.tree.SameBut v.tree d) (hd : w.tree.IsDir d) :
    w.tree.Undisturbed (v.dropTemp d).tree :=
  (h.trans (dropTemp_sameBut (h.2.1 hd))).undisturbed

/-- A commit of the staged file fails and changes nothing, or it installs the file. -/
theorem Staging.commit (h : Staging root e reader w v) {r : Except Error Unit}
    (hk : (Staged.commit ⟨dirName (root.pathOf e.path), baseName (root.pathOf e.path)⟩).run exec v
      = (r, v')) :
    (∃ err, r = .error err) ∧
      w.tree.Undisturbed (v'.dropTemp (dirName (root.pathOf e.path))).tree ∨
    Installed (root.pathOf e.path) e reader.blocks.flatten w.tree
      (v'.dropTemp (dirName (root.pathOf e.path))).tree := by
  obtain ⟨time, ht, hsec, hns⟩ := h.temp
  -- The rename fails and changes nothing, or the file is in its place.
  rcases commit_outcome h.clean ht (h.same.2.1 h.dir) hk with
    ⟨herr, htree⟩ | ⟨hnone, hfile, hrest, hdir⟩
  · have hsame := h.same
    rw [← htree] at hsame
    exact .inl ⟨herr, hsame.dropped h.dir⟩
  -- Nothing is staged any more, so the drop does nothing.
  · have hdrop : v'.dropTemp (dirName (root.pathOf e.path)) = v' := by
      unfold Disk.dropTemp
      rw [hnone]
    obtain ⟨n, hn, hbody, htime⟩ := hfile
    rw [hdrop]
    refine .inr ⟨⟨n, hn, hbody, ?_, ?_⟩, fun q hq => ?_⟩
    · rw [htime]
      exact hsec
    · rw [htime]
      exact hns
    -- Of all other objects only the directory has changed, in its time.
    · by_cases hqd : q = dirName (root.pathOf e.path)
      · exact .inr ⟨hqd ▸ h.dir, hqd ▸ hdir⟩
      · exact .inl ((hrest q hq hqd).trans (h.same.1 q hqd))

/-- An installation that gets past its check calls the rename. -/
theorem rename_called {u : Unit} {staged : Staged}
    (hs : (root.stageFrom e.path reader e.size e.hash (some (e.mtime, e.ns))).run exec w
      = (.ok staged, v))
    (hc : (checkListed root e destination).run exec v = (.ok u, v')) :
    .rename staged.dir staged.name ∈ ((root.stageFrom e.path reader e.size e.hash
      (some (e.mtime, e.ns))) >>= fun staged => staged.scope (checkListed root e destination
        >>= fun _ => pure () >>= fun _ => staged.commit)).callsOf exec w := by
  rw [Prog.callsOf_bind_ok hs]
  refine List.mem_append_right _ ?_
  obtain ⟨cs, hcs⟩ := Prog.callsOf_ensuring exec (checkListed root e destination >>=
    fun _ => pure () >>= fun _ => staged.commit) staged.drop v
  unfold Staged.scope
  rw [hcs, Prog.callsOf_bind_ok hc]
  exact List.mem_append_left _ (List.mem_append_right _ List.mem_cons_self)

/-- A run of an installation that is not a type change: it stops before the rename or at it, and
has changed nothing, or it gets past it. -/
theorem installFrom_outcome (hw : w.temp = none) (hconf : plan.conflict? e.path = none)
    {r : Except Error Unit}
    (h : (installFrom root e destination plan reader).run exec w = (r, w')) :
    w'.temp = none ∧
    ((∃ err, r = .error err) ∧ w.tree.Undisturbed w'.tree ∨
      reader.Yields e.size e.hash ∧ AsListed (root.pathOf e.path) e destination w.tree ∧
      Installed (root.pathOf e.path) e reader.blocks.flatten w.tree w'.tree ∧
      ∃ dir name, .rename dir name ∈
        (installFrom root e destination plan reader).callsOf exec w) := by
  have hclear : clearConflict root plan e.path = pure () := by
    unfold clearConflict
    rw [hconf]
  rw [installFrom_eq, hclear] at h ⊢
  cases hs : (root.stageFrom e.path reader e.size e.hash (some (e.mtime, e.ns))).run exec w with
  | mk res v =>
  cases res with
  | error err =>
    -- The staging has failed and has dropped its file.
    have htemp := (@stageFrom_error root _ e.path reader e.size e.hash (some (e.mtime, e.ns)) _ hw).run
    have hsame : w.tree.SameBut ((root.stageFrom e.path reader e.size e.hash
        (some (e.mtime, e.ns))).run exec w).2.tree (dirName (root.pathOf e.path)) :=
      stageFrom_sameBut
    rw [hs] at htemp hsame
    rw [Prog.run_bind_error hs] at h
    cases h
    exact ⟨htemp err rfl, .inl ⟨⟨err, rfl⟩, hsame.undisturbed⟩⟩
  | ok staged =>
    obtain ⟨rfl, hstaging⟩ := stageFrom_staging hs
    rw [Prog.run_bind_ok hs, run_scope] at h
    obtain ⟨rfl, rfl⟩ := Prod.ext_iff.mp h
    refine ⟨dropTemp_temp (d := dirName (root.pathOf e.path)), ?_⟩
    cases hc : (checkListed root e destination).run exec v with
    | mk res₁ v₁ =>
      have hv₁ := (quiet_of_reads (@reads_checkListed root e destination)).run_snd v
      rw [hc] at hv₁
      obtain rfl : v₁ = v := hv₁
      cases res₁ with
      | error err =>
        -- The object at the path is not as listed, and nothing has been done.
        rw [Prog.run_bind_error hc]
        exact .inl ⟨⟨err, rfl⟩, hstaging.same.dropped hstaging.dir⟩
      | ok u =>
        have hlisted := (checkListed_run hc).1.of_sameBut hstaging.clean.ne_nil hstaging.same
        have hcalls := rename_called hs hc
        rw [Prog.run_bind_ok hc]
        rcases hstaging.commit rfl with hfailed | hinstalled
        · exact .inl hfailed
        · exact .inr ⟨hstaging.yields, hlisted, hinstalled, _, _, hcalls⟩

/-! ### The preflight of the removals -/

omit [Sha256] in
/-- When one check fails, the loop of checks fails and has changed nothing. -/
theorem checks_fail {xs : List Entry} {x : Entry} (hx : x ∈ xs) {err : Error}
    (h : ((checkEntry root x).run exec w).1 = .error err) :
    ∃ err', (xs.forM fun old => checkEntry root old).run exec w = (.error err', w) := by
  induction xs with
  | nil => cases hx
  | cons y ys ih =>
    show ∃ err', (checkEntry root y >>= fun _ => ys.forM fun old => checkEntry root old).run exec w
      = (.error err', w)
    have hquiet := (quiet_of_reads (@calls_checkEntry root y)).run_snd w
    cases hy : (checkEntry root y).run exec w with
    | mk r v =>
      rw [hy] at hquiet
      obtain rfl : v = w := hquiet
      cases r with
      | error err' => exact ⟨err', Prog.run_bind_error hy⟩
      | ok u =>
        -- The entry that fails comes later.
        rw [Prog.run_bind_ok hy]
        refine ih ((List.mem_cons.mp hx).resolve_left fun hxy => ?_)
        rw [hxy, hy] at h
        cases h

omit [Sha256] in
/-- When one removal is not as listed, `finish` fails before it removes anything. -/
theorem finish_preflight {source : Manifest} {x : Entry} (hx : x ∈ plan.removals) {err : Error}
    (h : ((checkEntry root x).run exec w).1 = .error err) :
    ∃ err', (finish root source plan).run exec w = (.error err', w) := by
  obtain ⟨err', hrun⟩ := checks_fail hx h
  exact ⟨err', Prog.run_bind_error hrun⟩

/-- An installation and the last step of a run fail before they change anything, or not until
they have changed all that they say. -/
theorem install_atomic (root : Root) (destination : Manifest) (plan : Plan) :
    (∀ (e : Entry) (reader : Reading) (w w' : Disk) (r : Except Error Unit),
      w.temp = none → plan.conflict? e.path = none →
      (installFrom root e destination plan reader).run exec w = (r, w') →
      w'.temp = none ∧
      match r with
      | .ok _ => reader.Yields e.size e.hash ∧
          AsListed (root.pathOf e.path) e destination w.tree ∧
          Installed (root.pathOf e.path) e reader.blocks.flatten w.tree w'.tree
      | .error _ => w.tree.Undisturbed w'.tree ∨
          (∃ dir name, .rename dir name ∈
            (installFrom root e destination plan reader).callsOf exec w) ∧
          Installed (root.pathOf e.path) e reader.blocks.flatten w.tree w'.tree) ∧
    ∀ (source : Manifest) (w : Disk), ∀ x ∈ plan.removals, ∀ err,
      ((checkEntry root x).run exec w).1 = .error err →
      ∃ err', (finish root source plan).run exec w = (.error err', w) := by
  constructor
  -- The install, with its two outcomes.
  · intro e reader w w' r hw hconf h
    obtain ⟨htemp, hout⟩ := installFrom_outcome hw hconf h
    refine ⟨htemp, ?_⟩
    cases r with
    | ok u =>
      rcases hout with ⟨⟨err, herr⟩, -⟩ | ⟨hy, hl, hi, -⟩
      · cases herr
      · exact ⟨hy, hl, hi⟩
    | error err =>
      rcases hout with ⟨-, h⟩ | ⟨-, -, hi, hcalls⟩
      · exact .inl h
      · exact .inr ⟨hcalls, hi⟩
  -- The checks of `finish` before its first removal.
  · intro source w x hx err h
    exact finish_preflight hx h

end

/-- The installation of the file `b` of the small run, and its last step on an empty disk. -/
theorem install_atomic_small :
    ((@installFrom emptySha .opened ⟨"b", .file, 0, 7, 0, some emptyHash⟩ smallDestination
      smallPlan ⟨[], none⟩).run exec smallDisk).2.temp = none ∧
    ∃ err, (finish .opened smallSource smallPlan).run exec Disk.empty
      = (.error err, Disk.empty) := by
  have h := @install_atomic emptySha .opened smallDestination smallPlan
  refine ⟨(h.1 ⟨"b", .file, 0, 7, 0, some emptyHash⟩ ⟨[], none⟩ smallDisk _ _ rfl rfl rfl).1, ?_⟩
  have hcheck : ((checkEntry .opened ⟨"c", .file, 0, 0, 0, some emptyHash⟩).run exec
      Disk.empty).1 = .error Errno.noent.toError := by rfl
  exact h.2 smallSource Disk.empty _ List.mem_cons_self _ hcheck

end RrSync

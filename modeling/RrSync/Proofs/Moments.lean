import RrSync.Proofs.Atomic

/-!
# `RrSync.Proofs.Moments`: what an installation shows at each of its moments

`install_atomic` speaks of the disk after an installation. `spec_installFrom` speaks of every disk on
the way: what happens to an object is one of the effects that the caller allows, and the only file that
appears is the one that the reader yields. For the place of the entry itself this is `spec_kept`: it
shows the old object or the whole new file, and it is empty only between the removal of an object of
another type and the rename.
-/

set_option autoImplicit false

namespace RrSync

open Lib

/-- A call that may only have certain effects keeps them, at every path. -/
theorem keeps_safe {E : Effect} (htrans : ∀ q x y z, E q x y → E q y z → E q x z) {w₀ : Disk}
    {c : FsCall} {w : Disk} (hc : c.Safe E)
    (hw : ∀ q, E q (w₀.tree.get q) (w.tree.get q)) (q : Path) :
    E q (w₀.tree.get q) ((exec c w).2.tree.get q) := by
  rcases exec_may c w q with h | h
  · rw [h]
    exact hw q
  · exact htrans _ _ _ _ (hw q) (hc.2 q _ _ h)

/-- What a rename puts in place is the staged file. -/
theorem exec_rename_staged {d n : Path} {temp : Temp} {w : Disk} (ht : w.temp = some temp)
    (q : Path) : (exec (.rename d n) w).2.tree.get q = w.tree.get q ∨
      q = d ∧ Restamped (w.tree.get q) ((exec (.rename d n) w).2.tree.get q) ∨
      q = join d n ∧ ∃ m, (exec (.rename d n) w).2.tree.get q = some m ∧
        m.body = .file temp.data := by
  refine Disk.attempt_tree (P := fun t => t.get q = w.tree.get q ∨
    q = d ∧ Restamped (w.tree.get q) (t.get q) ∨
      q = join d n ∧ ∃ m, t.get q = some m ∧ m.body = .file temp.data) (.inl rfl) fun a w' h => ?_
  obtain ⟨temp', ht', -, hd, hn, hf, rfl⟩ := Disk.rename_ok.mp h
  obtain rfl := Option.some.inj (ht.symm.trans ht')
  have hne : join d n ≠ d := fun he => hn (he.symm ▸ hd)
  rcases get_touchDir (q := q) (Tree.get_put _ hf) (fun he => absurd he hne) with h | h | ⟨rfl, h⟩
  · exact .inl h
  · exact .inr (.inl h)
  · exact .inr (.inr ⟨rfl, _, h, rfl⟩)

section
variable [Sha256] {E : Effect} {root : Root} {e : Entry} {destination : Manifest} {plan : Plan}
  {reader : Reading} {w₀ w : Disk}

/-- The effects of an installation, at each of its moments. The file that it puts in place has the
size and the hash of the entry. -/
theorem spec_installFrom (htrans : ∀ q x y z, E q x y → E q y z → E q x z)
    (hd : E.Stamps (dirName (root.pathOf e.path)))
    (hput : reader.Yields e.size e.hash → ∀ old n, n.body = .file reader.blocks.flatten →
      E (root.pathOf e.path) old (some n))
    (hdrop : ∀ entries, plan.conflict? e.path = some entries → E.DropsAll root entries)
    (hw : ∀ q, E q (w₀.tree.get q) (w.tree.get q)) :
    Prog.Spec exec (fun w' => ∀ q, E q (w₀.tree.get q) (w'.tree.get q))
      (installFrom root e destination plan reader) w
      fun _ w' => ∀ q, E q (w₀.tree.get q) (w'.tree.get q) := by
  -- Every call of staging and of the conflict has the effects that are allowed.
  have hkeep (c : FsCall) (v : Disk) (hc : c.Safe E)
      (hv : ∀ q, E q (w₀.tree.get q) (v.tree.get q)) :
      ∀ q, E q (w₀.tree.get q) ((exec c v).2.tree.get q) := keeps_safe htrans hc hv
  rw [installFrom_eq]
  have hstage := (@calls_stageFrom _ E root e.path reader e.size e.hash (some (e.mtime, e.ns)) hd).1
  refine Prog.spec_bind.mpr (((hstage.spec hkeep hw).and (Prog.spec_of_run
    (h := exec) (I := fun _ => True) (fun _ _ => trivial) (Q := fun r w' => ∀ staged, r = .ok staged →
      CleanPath (root.pathOf e.path) ∧
      staged = ⟨dirName (root.pathOf e.path), baseName (root.pathOf e.path)⟩ ∧
      reader.Yields e.size e.hash ∧
      ∃ d time, w'.temp = some ⟨d, reader.blocks.flatten, time⟩) ?_)).mono
    (fun _ h => h.1) ?_)
  · intro staged hrun
    obtain ⟨hfail, hinner⟩ := stageFrom_run (Prod.ext hrun rfl)
    obtain ⟨hclean, rfl, hsize, hhash, time, ht, -⟩ := stageInner_run hinner
    exact ⟨hclean, rfl, ⟨hfail, hsize, hhash⟩, _, time, ht⟩
  rintro (err | staged) w₁ ⟨hw₁, hstaged⟩
  · exact hw₁
  obtain ⟨hclean, rfl, hyields, d, time, ht⟩ := hstaged staged rfl
  refine Prog.spec_ensuring.mpr (Prog.Spec.imp
    (Q := fun _ w' => ∀ q, E q (w₀.tree.get q) (w'.tree.get q)) ?_ ?_)
  · -- The check only looks, and what a conflict removes leaves the staged file alone.
    refine Prog.spec_bind.mpr ((quiet_of_reads reads_checkListed).spec hw₁ ?_)
    cases hr : ((checkListed root e destination).run exec w₁).1 with
    | error err => exact hw₁
    | ok u =>
      refine Prog.spec_bind.mpr ((((calls_clearConflict hdrop).spec hkeep hw₁).and
        (Prog.Issues.spec (I := fun v => v.temp = w₁.temp) clears_clearConflict
          (fun c v hc hv => (FsCall.Clears.exec_temp hc v).trans hv) rfl)).mono
        (fun _ h => h.1) ?_)
      rintro (err | u) w₂ ⟨hw₂, htemp⟩
      · exact hw₂
      -- The rename stamps the directory and puts the file, which has what the entry says.
      have hren : ∀ q, E q (w₀.tree.get q) ((exec (.rename (dirName (root.pathOf e.path))
          (baseName (root.pathOf e.path))) w₂).2.tree.get q) := by
        intro q
        have hput' := hput hyields (w₂.tree.get (root.pathOf e.path))
        rcases exec_rename_staged (d := dirName (root.pathOf e.path))
          (n := baseName (root.pathOf e.path)) (htemp.trans ht) q with h | ⟨hq, h⟩ | ⟨hq, m, h, hb⟩
        · rw [h]
          exact hw₂ q
        · rw [hq] at h ⊢
          exact htrans _ _ _ _ (hw₂ _) (hd _ _ h)
        · rw [hclean.join_dirName] at hq
          rw [h, hq]
          exact htrans _ _ _ _ (hw₂ _) (hput' m hb)
      refine Prog.spec_bind.mpr ⟨hren, ?_⟩
      refine Prog.Issues.spec (P := FsCall.Safe E) ?_ hkeep hren
      exact Prog.issues_bind (calls_ok _) fun _ => calls_sys (safe_sync hclean.rooted_dirName)
        fun _ => calls_ok _
  · intro r w₂ hw₂
    refine ((calls_drop hclean.rooted_dirName hd).spec hkeep hw₂).imp ?_
    rintro (err | u) w₃ hw₃ <;> exact hw₃

end

/-! ### The place of the entry -/

/-- The body of an object is as it was, or it is that of a good file. Where the object may be
replaced by one of another type, it may also be gone. -/
def Kept (replaced : Prop) (good : Bytes → Prop) (old new : Option Body) : Prop :=
  new = old ∨ (replaced ∧ new = none) ∨ ∃ data, new = some (.file data) ∧ good data

/-- What is kept twice is kept. -/
theorem Kept.trans {replaced : Prop} {good : Bytes → Prop} {x y z : Option Body}
    (h : Kept replaced good x y) (h' : Kept replaced good y z) : Kept replaced good x z := by
  rcases h' with rfl | h'
  · exact h
  · exact .inr h'

/-- And it stays kept when more contents are good. -/
theorem Kept.imp {replaced : Prop} {good good' : Bytes → Prop} {x y : Option Body}
    (h : Kept replaced good x y) (hgood : ∀ data, good data → good' data) :
    Kept replaced good' x y := by
  rcases h with h | h | ⟨data, h, hd⟩
  · exact .inl h
  · exact .inr (.inl h)
  · exact .inr (.inr ⟨data, h, hgood data hd⟩)

/-- The plan replaces what is at the path by an object of another type. -/
def Plan.Replaces (p : Plan) (path : String) : Prop :=
  ∃ entries, p.conflict? path = some entries

section
variable [Sha256] {root : Root} {e e' : Entry} {destination : Manifest} {plan : Plan}
  {reader : Reading} {good : Bytes → Prop} {w₀ w : Disk}

/-- An installation keeps the place of its entry. -/
theorem spec_kept (hpath : e'.path = e.path)
    (hgood : reader.Yields e'.size e'.hash → good reader.blocks.flatten)
    (hs : Kept (plan.Replaces e.path) good ((w₀.tree.get (root.pathOf e.path)).map Node.body)
      ((w.tree.get (root.pathOf e.path)).map Node.body)) :
    Prog.Spec exec
      (fun v => Kept (plan.Replaces e.path) good ((w₀.tree.get (root.pathOf e.path)).map Node.body)
        ((v.tree.get (root.pathOf e.path)).map Node.body))
      (installFrom root e' destination plan reader) w
      fun _ v => Kept (plan.Replaces e.path) good ((w₀.tree.get (root.pathOf e.path)).map Node.body)
        ((v.tree.get (root.pathOf e.path)).map Node.body) := by
  let E : Effect := fun q x y =>
    q = root.pathOf e.path → Kept (plan.Replaces e.path) good (x.map Node.body) (y.map Node.body)
  have hstamps (q : Path) : E.Stamps q := by
    intro x y h hq
    obtain ⟨n, n', rfl, rfl, hb⟩ := h
    exact .inl (congrArg some hb)
  have htrans (q : Path) (x y z : Option Node) (h : E q x y) (h' : E q y z) : E q x z :=
    fun hq => (h hq).trans (h' hq)
  have hput (hyields : reader.Yields e'.size e'.hash) (old : Option Node) (n : Node)
      (hb : n.body = .file reader.blocks.flatten) : E (root.pathOf e'.path) old (some n) :=
    fun _ => .inr (.inr ⟨_, congrArg some hb, hgood hyields⟩)
  -- Only a conflict at the path of the entry removes what is there.
  have hdrop (entries : List Entry) (hentries : plan.conflict? e'.path = some entries) :
      E.DropsAll root entries := by
    intro x _
    have hreplaced : plan.Replaces e.path := ⟨entries, hpath ▸ hentries⟩
    exact ⟨hstamps _, fun _ _ => .inr (.inl ⟨hreplaced, rfl⟩)⟩
  have hstart (q : Path) : E q (w₀.tree.get q) (w.tree.get q) := by
    intro hq
    subst hq
    exact hs
  exact (spec_installFrom htrans (hstamps _) hput hdrop hstart).mono
    (fun v hv => hv _ rfl) fun _ v hv => hv _ rfl

end

end RrSync

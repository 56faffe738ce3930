import RrSync.Proofs.Payload

/-!
# `RrSync.Proofs.Removal`: what `remove_payload` removes

On a disk on which no call fails, `remove_payload` empties the shards of a transfer, removes them,
and then removes the files next to them (`does_removePayload`). What it needs of the transfer is
`View.Payload`. It leaves the lock and the activity record.
-/

set_option autoImplicit false

namespace RrSync

open Lib

-- Else a path is evaluated as far as its number allows whenever a program is matched.
attribute [local irreducible] hex8 chunkString

/-! ### Removing -/

open Classical in
/-- The view without the objects at the paths `P`. -/
noncomputable def View.without (v : View) (P : Path → Prop) : View :=
  fun q => if P q then none else v q

section
variable {v : View} {P Q : Path → Prop} {q : Path}

/-- What was taken out is not there. -/
theorem View.without_of (h : P q) : v.without P q = none := if_pos h

/-- What was not is there as before. -/
theorem View.without_of_not (h : ¬ P q) : v.without P q = v q := if_neg h

/-- Two removals are one. -/
theorem View.without_without : (v.without P).without Q = v.without fun q => P q ∨ Q q := by
  funext q
  unfold without
  by_cases hQ : Q q
  · rw [if_pos hQ, if_pos (Or.inr hQ)]
  · by_cases hP : P q
    · rw [if_neg hQ, if_pos hP, if_pos (Or.inl hP)]
    · rw [if_neg hQ, if_neg hP, if_neg (not_or.mpr ⟨hP, hQ⟩)]

/-- The removal of one path. -/
theorem View.update_none : Function.update v q none = v.without (· = q) := by
  funext p
  rw [Function.update_apply]
  by_cases h : p = q
  · exact (if_pos h).trans (without_of (P := (· = q)) h).symm
  · exact (if_neg h).trans (without_of_not (P := (· = q)) h).symm

/-- The same paths, taken out. -/
theorem View.without_congr (h : ∀ q, P q ↔ Q q) : v.without P = v.without Q :=
  congrArg _ (funext fun q => propext (h q))

/-- Nothing taken out. -/
theorem View.without_none (h : ∀ q, ¬ P q) : v.without P = v :=
  funext fun q => without_of_not (h q)

/-- A removal of more takes a removal of less along. -/
theorem View.without_absorb (h : ∀ q, P q → Q q) : (v.without P).without Q = v.without Q := by
  rw [without_without]
  exact without_congr fun q => ⟨fun hor => hor.elim (h q) id, Or.inr⟩

/-- An empty directory that is removed takes along all at or below it. -/
theorem View.update_empty {d : Path} (hempty : ∀ q, Below q d → q ≠ d → v q = none) :
    Function.update v d none = v.without fun q => Below q d := by
  funext q
  by_cases hb : Below q d
  · rw [without_of (P := fun q => Below q d) hb]
    by_cases hq : q = d
    · rw [hq, Function.update_self]
    · rw [Function.update_of_ne hq]
      exact hempty q hb hq
  · rw [without_of_not (P := fun q => Below q d) hb, Function.update_of_ne]
    rintro rfl
    exact hb SepPath.Below.refl

/-- An empty directory can be removed. -/
theorem removable_of_empty {d : Path} (hd : d ≠ []) (hparent : v (dirName d) = some Core.dir)
    (hempty : ∀ q, Below q d → q ≠ d → v q = none) : Removable v d := by
  refine ⟨hd, hparent, fun q hq hdq => hempty q ?_ ?_⟩
  · rw [← hdq]
    exact SepPath.Below.of_dirName_ne_nil SepPath.Below.refl (hdq.symm ▸ hd)
  · rintro rfl
    exact SepPath.dirName_ne hq hdq

end

section
variable {w : Disk} {v : View} {root : Root} {path : String}

/-- Nothing lies below a file. -/
theorem Disk.Shows.none_below_file (hw : w.Shows v) {p q : Path} {c : Core} (hc : v p = some c)
    (hfile : c ≠ Core.dir) (hb : Below q p) (hne : q ≠ p) : v q = none := by
  cases hv : v q with
  | none => rfl
  | some x =>
    obtain ⟨n, hn, -⟩ := hw.get hv
    have hdir := hw.isDir.mp (Tree.isDir_above hn hb hne)
    exact absurd (Option.some.inj (hc.symm.trans hdir)) hfile

/-- Nothing lies below a file. -/
theorem Disk.Shows.leaf_of_file (hw : w.Shows v) {p q : Path} {c : Core} (hc : v p = some c)
    (hfile : c ≠ Core.dir) (hp : p ≠ []) (hq : q ≠ []) (hd : dirName q = p) : v q = none := by
  subst hd
  exact hw.none_below_file hc hfile (SepPath.Below.of_dirName_ne_nil SepPath.Below.refl hp)
    (SepPath.dirName_ne hq).symm

/-- The files with these names in the directory `d`. -/
def InBatch (d : Path) (names : List String) (q : Path) : Prop := ∃ s ∈ names, q = join d s.utf8

/-- A batch is its first name and the rest. -/
theorem inBatch_cons {d q : Path} {name : String} {names : List String} :
    InBatch d (name :: names) q ↔ q = join d name.utf8 ∨ InBatch d names q := by
  simp [InBatch]

/-- The files of a batch go away one after the other. -/
theorem does_unlinkAll {d : Path} {names : List String} (hw : w.Shows v)
    (hd : v d = some Core.dir) (hok : ∀ s ∈ names, NameOk s.utf8)
    (hnodup : names.Pairwise (· ≠ ·))
    (hfile : ∀ s ∈ names, ∃ c, v (join d s.utf8) = some c ∧ c.1.type = .file) :
    Goes (names.forM fun name => do ok (← sys (.unlink d name.utf8))) w fun _ w' =>
      w'.temp = w.temp ∧ w'.Shows (v.without (InBatch d names)) := by
  induction names generalizing w v with
  | nil =>
    refine Prog.succeeds_pure ⟨rfl, ?_⟩
    rw [View.without_none fun q ⟨s, hs, _⟩ => absurd hs List.not_mem_nil]
    exact hw
  | cons name names ih =>
    have hname := hok name List.mem_cons_self
    obtain ⟨c, hc, hty⟩ := hfile name List.mem_cons_self
    have hnot : c ≠ Core.dir := fun h => by
      rw [h] at hty
      cases hty
    have hdir : dirName (join d name.utf8) = d := dirName_join_name hname
    have hbase : baseName (join d name.utf8) = name.utf8 := baseName_join_name hname
    have hleaf := fun q => hw.leaf_of_file (q := q) hc hnot (join_name_ne_nil hname)
    have hparent : v (dirName (join d name.utf8)) = some Core.dir := by
      rw [hdir]
      exact hd
    -- The first file is unlinked. The others have other names, so they are still there.
    obtain ⟨w₁, hx, hw₁, ht₁⟩ := exec_unlink hw ⟨join_name_ne_nil hname, hparent, hleaf⟩ hc hnot
    rw [hdir, hbase] at hx
    refine does_sys hx trivial ?_
    refine Prog.Succeeds.bind (Q := fun _ w' => w₁ = w') (does_ok rfl) ?_
    rintro _ _ rfl
    have hother : ∀ s ∈ names, join d s.utf8 ≠ join d name.utf8 := fun s hs he =>
      (List.pairwise_cons.mp hnodup).1 s hs (String.utf8_injective (SepPath.join_injective d he)).symm
    refine (ih hw₁ ?_ (fun s hs => hok s (List.mem_cons_of_mem _ hs)) hnodup.of_cons
      fun s hs => ?_).imp ?_
    · rw [Function.update_of_ne (Tree.join_ne hname).symm]
      exact hd
    · rw [Function.update_of_ne (hother s hs)]
      exact hfile s (List.mem_cons_of_mem _ hs)
    · rintro _ w' ⟨ht, hw'⟩
      refine ⟨ht.trans ht₁, ?_⟩
      rw [View.update_none, View.without_without] at hw'
      rwa [View.without_congr fun q => inBatch_cons.symm] at hw'

/-- Short names pass the check of `remove_files`. -/
theorem run_checkNames {names : List String}
    (hok : ∀ s ∈ names, NameOk s.utf8 ∧ s.utf8.length ≤ 255) :
    (names.forM fun name => do
      validate name
      if slash ∈ name.utf8 then throw (.invalidPath name) : FsM Unit).run exec w = (.ok (), w) := by
  induction names with
  | nil => rfl
  | cons name names ih =>
    obtain ⟨hname, hlen⟩ := hok name List.mem_cons_self
    have hvalid : validate name = .ok () := validate_of_name hname hlen
    -- A short name without a separator passes both checks.
    have hturn : (do
        validate name
        if slash ∈ name.utf8 then throw (.invalidPath name) : FsM Unit).run exec w = (.ok (), w) := by
      rw [hvalid]
      show ((if slash ∈ name.utf8 then throw (.invalidPath name) else pure () : FsM Unit)).run exec w
        = _
      rw [if_neg hname.2.1]
      rfl
    show (_ >>= fun _ => names.forM _ : FsM Unit).run exec w = _
    rw [Prog.run_bind_ok hturn]
    exact ih fun s hs => hok s (List.mem_cons_of_mem _ hs)

/-- `remove_files` removes the files of the batch and nothing else. -/
theorem does_removeFiles {names : List String} (hfull : root.full path = .ok (root.joined path))
    (hw : w.Shows v) (hd : v (root.pathOf path) = some Core.dir)
    (hok : ∀ s ∈ names, NameOk s.utf8 ∧ s.utf8.length ≤ 255) (hnodup : names.Pairwise (· ≠ ·))
    (hfile : ∀ s ∈ names, ∃ c, v (join (root.pathOf path) s.utf8) = some c ∧ c.1.type = .file) :
    Goes (root.removeFiles path names) w fun _ w' =>
      w'.temp = w.temp ∧ w'.Shows (v.without (InBatch (root.pathOf path) names)) := by
  have hu : (root.joined path).utf8 = root.pathOf path := root.utf8_joined path
  have hcheck : Calls FsCall.Reads (names.forM fun name => do
      validate name
      if slash ∈ name.utf8 then throw (.invalidPath name) : FsM Unit) :=
    Prog.issues_forM fun name _ => calls_validate fun _ => calls_check trivial
  unfold Root.removeFiles
  -- The names are checked, the directory is opened, and then the files are unlinked and the
  -- directory is synced.
  refine Prog.Succeeds.bind (goes_reads hcheck (congrArg Prod.fst (run_checkNames hok))) ?_
  rintro _ _ ⟨-, rfl⟩
  refine Prog.Succeeds.bind (Q := fun s' w' => root.joined path = s' ∧ w = w')
    (Prog.succeeds_lift hfull ⟨rfl, rfl⟩) ?_
  rintro _ _ ⟨rfl, rfl⟩
  rw [hu]
  refine does_sys (exec_openDir hw hd) trivial ?_
  refine Prog.Succeeds.bind (Q := fun _ w' => w = w') (does_ok rfl) ?_
  rintro _ _ rfl
  unfold Root.unlinkBatch
  have hall := does_unlinkAll hw hd (fun s hs => (hok s hs).1) hnodup hfile
  refine Prog.Succeeds.bind hall.attempt ?_
  rintro _ w₁ ⟨⟨⟩, rfl, ht₁, hw₁⟩
  have hsync : Goes (do ok (← sys (.sync (root.pathOf path))) : FsM Unit) w₁ fun _ w' =>
      w'.temp = w.temp ∧ w'.Shows (v.without (InBatch (root.pathOf path) names)) :=
    does_sys (exec_sync hw₁) trivial (does_ok ⟨ht₁, hw₁.tick⟩)
  refine Prog.Succeeds.bind hsync.attempt ?_
  rintro _ w₂ ⟨⟨⟩, rfl, hw₂⟩
  exact Prog.succeeds_pure hw₂

end

/-! ### Listings on views -/

/-- The names in a directory: all are UTF-8 and short, and there are not too many. -/
structure View.Named (v : View) (d : Path) : Prop where
  name : ∀ n, NameOk n → (v (join d n)).isSome → (∃ s : String, s.utf8 = n) ∧ n.length ≤ 255
  few : ∀ ns : List Path, ns.Nodup → (∀ n ∈ ns, NameOk n ∧ (v (join d n)).isSome) →
    ns.length ≤ maxEntries

/-- The children of a directory, by what is known of them on views. -/
structure View.Lists (v : View) (d : Path) (out : List (String × Metadata)) : Prop where
  there : ∀ c ∈ out, NameOk c.1.utf8 ∧ c.1.utf8.length ≤ 255 ∧
    ∃ x, v (join d c.1.utf8) = some x ∧ x.1.type = c.2.type
  listed : ∀ n x, NameOk n → v (join d n) = some x → ∃ c ∈ out, c.1.utf8 = n ∧ c.2.type = x.1.type
  nodup : out.Pairwise fun a b => a.1 ≠ b.1

section
variable {w : Disk} {v : View} {root : Root} {path : String} {d : Path}

/-- The same paths have objects in the tree and in the view. -/
theorem Disk.Shows.isSome (hw : w.Shows v) (p : Path) : (w.tree.get p).isSome = (v p).isSome := by
  rw [← hw.view]
  simp [Tree.view]

/-- A listing of the tree is one of the view. -/
theorem Disk.Shows.lists (hw : w.Shows v) (hn : v.Named d) {out : List (String × Metadata)}
    (h : w.tree.listing d = .ok out) : v.Lists d out := by
  obtain ⟨hthere, hlisted, hnodup⟩ := Tree.children_of_listing h
  refine ⟨fun c hc => ?_, fun n x hname hx => ?_, hnodup⟩
  · obtain ⟨hname, node, hnode, hmeta⟩ := hthere c hc
    have hv : v (join d c.1.utf8) = some node.core := by
      rw [← hw.view]
      exact congrArg _ hnode
    refine ⟨hname, (hn.name _ hname (by rw [hv]; rfl)).2, _, hv, ?_⟩
    rw [← hmeta]
    rfl
  · obtain ⟨node, hnode, rfl⟩ := hw.get hx
    obtain ⟨c, hc, hcn, hmeta⟩ := hlisted n node hname hnode
    exact ⟨c, hc, hcn, by rw [hmeta]; rfl⟩

/-- A directory with few names in it can be listed. -/
theorem does_children (hfull : root.full path = .ok (root.joined path)) (hw : w.Shows v)
    (hd : v (root.pathOf path) = some Core.dir) (hn : v.Named (root.pathOf path)) :
    Goes (root.children path) w fun out w' => w = w' ∧ v.Lists (root.pathOf path) out := by
  obtain ⟨out, hout⟩ := Tree.listing_of_few (t := w.tree) (d := root.pathOf path)
    (fun n hname hsome => (hn.name n hname (by rwa [← hw.isSome])).1)
    fun ns hnodup hns => hn.few ns hnodup fun n hm => by
      obtain ⟨h1, h2⟩ := hns n hm
      exact ⟨h1, by rwa [← hw.isSome]⟩
  have hrun : ((root.children path).run exec w).1 = .ok out := by
    rw [run_children hfull, (Tree.openDir_ok (u := ())).mpr (hw.isDir.mpr hd)]
    exact hout
  refine (goes_reads calls_children hrun).imp ?_
  rintro _ _ ⟨rfl, rfl⟩
  exact ⟨rfl, hw.lists hn hout⟩

/-- On the way to what lies below a directory there is something right in it. -/
theorem Disk.Shows.child_above (hw : w.Shows v) {q : Path} (hq : q ≠ []) (hb : Below q d)
    (hne : q ≠ d) {x : Core} (hx : v q = some x) : ∃ n y, NameOk n ∧ v (join d n) = some y ∧
      Below q (join d n) ∧ (q ≠ join d n → y = Core.dir) := by
  obtain ⟨node, hnode, -⟩ := hw.get hx
  have hnil : ∀ p, join Root.opened.base.utf8 p = p := fun _ => SepPath.join_nil_left
  obtain ⟨c, m, hname, hj, hm, hqc⟩ := @Inside.step .opened w.tree q d
    ⟨hq, Or.inr ⟨hb, hne⟩⟩ node (by rwa [hnil])
  rw [hnil] at hm
  refine ⟨baseName c, m.core, hname, ?_, ?_, fun h => ?_⟩
  · rw [hj, ← hw.view]
    exact congrArg _ hm
  · rw [hj]
    exact hqc
  · rw [hj] at h
    obtain ⟨m', hm', hbody⟩ := Tree.isDir_above hnode hqc h
    obtain rfl := Option.some.inj (hm.symm.trans hm')
    exact Node.core_eq_dir.mpr hbody

end

/-! ### Removing the payload of a transfer -/

/-- A directory that holds nothing but files. -/
structure View.Shard (v : View) (d : Path) : Prop where
  dir : v d = some Core.dir
  named : v.Named d
  file : ∀ n x, NameOk n → v (join d n) = some x → x.1.type = .file

/-- Whether names are UTF-8 depends on the content of the directory. -/
theorem View.Named.congr {v v' : View} {d : Path} (h : v.Named d)
    (hsame : ∀ n, NameOk n → v' (join d n) = v (join d n)) : v'.Named d := by
  refine ⟨fun n hn hs => h.name n hn (by rwa [← hsame n hn]), fun ns hnodup hns =>
    h.few ns hnodup fun n hm => ?_⟩
  obtain ⟨h1, h2⟩ := hns n hm
  exact ⟨h1, by rwa [← hsame n h1]⟩

/-- Whether a directory is a shard depends on its content. -/
theorem View.Shard.congr {v v' : View} {d : Path} (h : v.Shard d) (hd : d ≠ [])
    (hsame : ∀ q, Below q d → v' q = v q) : v'.Shard d := by
  have hchild : ∀ n, v' (join d n) = v (join d n) := fun n => hsame _ (SepPath.below_join_left hd)
  refine ⟨(hsame d SepPath.Below.refl).trans h.dir, h.named.congr fun n _ => hchild n, ?_⟩
  intro n x hn hx
  exact h.file n x hn ((hchild n).symm.trans hx)

section
variable {w : Disk} {v : View} {root : Root} {path : String}

/-- Below a shard there are only the files in it. -/
theorem Disk.Shows.shard_below (hw : w.Shows v) {d q : Path} (hs : v.Shard d) (hd : d ≠ [])
    (hb : Below q d) (hne : q ≠ d) {x : Core} (hx : v q = some x) :
    ∃ n, NameOk n ∧ q = join d n := by
  have hq : q ≠ [] := fun h0 => hd (SepPath.below_nil (h0 ▸ hb))
  obtain ⟨n, y, hname, hy, -, hdir⟩ := hw.child_above hq hb hne hx
  by_contra hnot
  have hty := hs.file n y hname hy
  rw [hdir fun he => hnot ⟨n, hname, he⟩] at hty
  cases hty

/-- A batch lies below its directory. -/
theorem InBatch.below {d q : Path} {out : List (String × Metadata)} (hd : d ≠ [])
    (hout : v.Lists d out) (h : InBatch d (out.map Prod.fst) q) : Below q d ∧ q ≠ d := by
  obtain ⟨s, hm, rfl⟩ := h
  obtain ⟨c, hc, rfl⟩ := List.mem_map.mp hm
  exact ⟨SepPath.below_join_left hd, Tree.join_ne (hout.there c hc).1⟩

/-- A shard without its files is empty. -/
theorem Disk.Shows.shard_emptied {d : Path} {out : List (String × Metadata)} (hw : w.Shows v)
    (hs : v.Shard d) (hd : d ≠ []) (hout : v.Lists d out) {q : Path} (hb : Below q d) (hq : q ≠ d) :
    v.without (InBatch d (out.map Prod.fst)) q = none := by
  by_contra hsome
  obtain ⟨x, hx⟩ := Option.ne_none_iff_exists'.mp hsome
  have hin : ¬ InBatch d (out.map Prod.fst) q := fun h => hsome (View.without_of h)
  rw [View.without_of_not hin] at hx
  obtain ⟨n, hname, rfl⟩ := hw.shard_below hs hd hb hq hx
  obtain ⟨c, hc, rfl, -⟩ := hout.listed n x hname hx
  exact hin ⟨c.1, List.mem_map_of_mem hc, rfl⟩

/-- Removing the files of a shard and the shard. -/
theorem does_removeShard (hp : root.Takes path) (hw : w.Shows v) (ht : w.temp = none)
    (hs : v.Shard (root.pathOf path)) :
    Goes (do
      let children ← root.children path
      root.removeFiles path (children.map Prod.fst)
      root.remove path true) w fun _ w' =>
        w'.temp = none ∧ w'.Shows (v.without fun q => Below q (root.pathOf path)) := by
  have hd := hp.clean.ne_nil
  refine Prog.Succeeds.bind (does_children hp.full hw hs.dir hs.named) ?_
  rintro out _ ⟨rfl, hout⟩
  have hmem : ∀ s ∈ out.map Prod.fst, ∃ c ∈ out, c.1 = s := fun s hm => by
    obtain ⟨c, hc, rfl⟩ := List.mem_map.mp hm
    exact ⟨c, hc, rfl⟩
  refine Prog.Succeeds.bind (does_removeFiles hp.full hw hs.dir (fun s hm => ?_)
    (List.pairwise_map.mpr hout.nodup) fun s hm => ?_) ?_
  · obtain ⟨c, hc, rfl⟩ := hmem s hm
    exact ⟨(hout.there c hc).1, (hout.there c hc).2.1⟩
  · obtain ⟨c, hc, rfl⟩ := hmem s hm
    obtain ⟨hname, -, x, hx, -⟩ := hout.there c hc
    exact ⟨x, hx, hs.file _ x hname hx⟩
  rintro _ w₁ ⟨ht₁, hw₁⟩
  -- All that was in the shard is gone, so it can be removed.
  have hempty : ∀ q, Below q (root.pathOf path) → q ≠ root.pathOf path →
      v.without (InBatch (root.pathOf path) (out.map Prod.fst)) q = none :=
    fun q => hw.shard_emptied hs hd hout
  have hself : (v.without (InBatch (root.pathOf path) (out.map Prod.fst))) (root.pathOf path)
      = some Core.dir := (View.without_of_not fun h => (h.below hd hout).2 rfl).trans hs.dir
  have hparent : v.without (InBatch (root.pathOf path) (out.map Prod.fst))
      (dirName (root.pathOf path)) = some Core.dir := by
    by_cases h0 : dirName (root.pathOf path) = []
    · rw [h0]
      exact hw₁.isDir_nil
    · obtain ⟨m, hm, -⟩ := hw₁.get hself
      exact hw₁.isDir.mp (Tree.isDir_dirName hd hm)
  refine (does_remove hp hw₁ (removable_of_empty hd hparent hempty) hself (by simp)
    (by rw [ht₁, ht]; simp) trivial trivial).imp ?_
  rintro _ w₂ ⟨hw₂, ht₂⟩
  refine ⟨ht₂.trans (ht₁.trans ht), ?_⟩
  rwa [View.update_empty hempty, View.without_absorb fun q h => (h.below hd hout).1] at hw₂

end

/-- Siblings have nothing in common. -/
theorem eq_of_below_names {d a b q : Path} (ha : NameOk a) (hb : NameOk b)
    (h1 : Below q (join d a)) (h2 : Below q (join d b)) : a = b := by
  have key : ∀ {x y : Path}, NameOk x → NameOk y → Below (join d x) (join d y) → x = y := by
    intro x y hx hy h
    by_contra hxy
    exact hx.2.1 (((SepPath.below_join hx.1 hy.1).mp h).sep_mem hxy)
  rcases h1.comparable h2 with h | h
  · exact key ha hb h
  · exact (key hb ha h).symm

/-- The payload of a transfer: files, and shards that are not in the place of the lock or the
record. -/
structure View.Payload (v : View) (K : Path) : Prop where
  dir : v K = some Core.dir
  named : v.Named K
  entry : ∀ n x, NameOk n → v (join K n) = some x → x.1.type = .file ∨
    n ≠ "lock".utf8 ∧ n ≠ "activity".utf8 ∧ v.Shard (join K n)

/-- The file is removed after the shards. -/
def loose (c : String × Metadata) : Bool := !(c.1 = "lock" || c.1 = "activity") && !c.2.isDir

/-- What is gone when these children have been gone through. -/
def Swept (K : Path) (children : List (String × Metadata)) (q : Path) : Prop :=
  ∃ c ∈ children, c.2.isDir = true ∧ Below q (join K c.1.utf8)

section
variable {w : Disk} {v : View} {key : String} {hk : keyName key = true}

/-- A directory in a transfer is a shard. -/
theorem View.Payload.shard {out : List (String × Metadata)} (hp : v.Payload key.utf8)
    (hout : v.Lists key.utf8 out) {c : String × Metadata} (hc : c ∈ out) (hdir : c.2.isDir = true) :
    c.1 ≠ "lock" ∧ c.1 ≠ "activity" ∧ v.Shard (join key.utf8 c.1.utf8) := by
  obtain ⟨hname, -, x, hx, hty⟩ := hout.there c hc
  rcases hp.entry _ x hname hx with hf | ⟨h1, h2, h3⟩
  · rw [hty] at hf
    have hd : c.2.type = .directory := by simpa [Metadata.isDir] using hdir
    rw [hf] at hd
    cases hd
  · exact ⟨fun h => h1 (congrArg _ h), fun h => h2 (congrArg _ h), h3⟩

/-- The paths that one more child sweeps. -/
theorem swept_snoc {K q : Path} {pre : List (String × Metadata)} {c : String × Metadata} :
    Swept K (pre ++ [c]) q ↔ Swept K pre q ∨ c.2.isDir = true ∧ Below q (join K c.1.utf8) := by
  unfold Swept
  simp only [List.mem_append, List.mem_singleton, or_and_right, exists_or, exists_eq_left]

/-- A file sweeps nothing. -/
theorem View.without_swept_file {K : Path} {pre : List (String × Metadata)} {c : String × Metadata}
    (hdir : ¬ c.2.isDir = true) : v.without (Swept K (pre ++ [c])) = v.without (Swept K pre) :=
  View.without_congr fun _ => swept_snoc.trans (or_iff_left fun h => hdir h.1)

/-- The turn for a shard removes it. -/
theorem does_removeEntry_shard {out pre post : List (String × Metadata)} {c : String × Metadata}
    (names : List String) (hp : v.Payload key.utf8) (hout : v.Lists key.utf8 out)
    (hpre : out = pre ++ c :: post) (ht : w.temp = none)
    (hw : w.Shows (v.without (Swept key.utf8 pre))) (hdir : c.2.isDir = true) :
    Goes (removeEntry (transferRoot key hk) names c) w fun names' w' => names' = names ∧
      w'.temp = none ∧ w'.Shows (v.without (Swept key.utf8 (pre ++ [c]))) := by
  have hc : c ∈ out := by simp [hpre]
  obtain ⟨hname, hlen, -⟩ := hout.there c hc
  obtain ⟨h1, h2, hshard⟩ := hp.shard hout hc hdir
  unfold removeEntry
  rw [if_neg (by simp [h1, h2]), if_pos hdir]
  -- The shards before it are next to it.
  have hapart : ∀ q, Below q (join key.utf8 c.1.utf8) → ¬ Swept key.utf8 pre q := by
    rintro q hb ⟨x, hx, -, hbx⟩
    have heq := eq_of_below_names (hout.there x (by simp [hpre, hx])).1 hname hbx hb
    have hnodup := hout.nodup
    rw [hpre] at hnodup
    exact (List.pairwise_append.mp hnodup).2.2 x hx c List.mem_cons_self (String.utf8_injective heq)
  have hshard' := hshard.congr (join_name_ne_nil hname) fun q hb => View.without_of_not (hapart q hb)
  have hgo := @does_removeShard _ _ (transferRoot key hk) _ (takes_name hname hlen) hw ht hshard'
  have hbound : Goes ((do
      let children ← (transferRoot key hk).children c.1
      (transferRoot key hk).removeFiles c.1 (children.map Prod.fst)
      (transferRoot key hk).remove c.1 true) >>= fun _ => pure names) w fun names' w' =>
        names' = names ∧ w'.temp = none ∧ w'.Shows ((v.without (Swept key.utf8 pre)).without
          fun q => Below q ((transferRoot key hk).pathOf c.1)) :=
    hgo.bind fun _ w' h => Prog.succeeds_pure ⟨rfl, h⟩
  simp only [bind_assoc] at hbound
  refine hbound.imp ?_
  rintro _ w' ⟨hnames, ht', hw'⟩
  refine ⟨hnames, ht', ?_⟩
  rw [View.without_without] at hw'
  have hswept : ∀ q, Swept key.utf8 pre q ∨ Below q ((transferRoot key hk).pathOf c.1) ↔
      Swept key.utf8 (pre ++ [c]) q := fun q =>
    (or_congr_right (iff_and_self.mpr fun _ => hdir)).trans swept_snoc.symm
  rwa [View.without_congr hswept] at hw'

/-- One turn of the loop of `remove_payload`. -/
theorem does_removeEntry {out pre post : List (String × Metadata)} {c : String × Metadata}
    {names : List String} (hp : v.Payload key.utf8) (hout : v.Lists key.utf8 out)
    (hpre : out = pre ++ c :: post) (ht : w.temp = none)
    (hw : w.Shows (v.without (Swept key.utf8 pre)))
    (hnames : names = (pre.filter loose).map Prod.fst) :
    Goes (removeEntry (transferRoot key hk) names c) w fun names' w' => w'.temp = none ∧
      names' = ((pre ++ [c]).filter loose).map Prod.fst ∧
      w'.Shows (v.without (Swept key.utf8 (pre ++ [c]))) := by
  have hc : c ∈ out := by simp [hpre]
  by_cases hdir : c.2.isDir = true
  · refine (does_removeEntry_shard names hp hout hpre ht hw hdir).imp ?_
    rintro names' w' ⟨rfl, ht', hw'⟩
    refine ⟨ht', ?_, hw'⟩
    rw [hnames, List.filter_append, List.filter_cons_of_neg (by simp [loose, hdir]),
      List.filter_nil, List.append_nil]
  unfold removeEntry
  -- The lock and the record stay, and another file is kept for later.
  by_cases hown : (c.1 = "lock" || c.1 = "activity") = true
  · rw [if_pos hown]
    refine Prog.succeeds_pure ⟨ht, ?_, ?_⟩
    · rw [hnames, List.filter_append, List.filter_cons_of_neg (by simp [loose, hown]),
        List.filter_nil, List.append_nil]
    · rwa [View.without_swept_file hdir]
  · rw [if_neg hown, if_neg hdir]
    refine Prog.succeeds_pure ⟨ht, ?_, ?_⟩
    · rw [hnames, List.filter_append, List.filter_cons_of_pos (by simp [loose, hown, hdir]),
        List.filter_nil, List.map_append]
      rfl
    · rwa [View.without_swept_file hdir]

/-- What `remove_payload` removes of a transfer directory: all but the lock and the record. -/
def InPayload (K q : Path) : Prop :=
  Below q K ∧ q ≠ K ∧ ¬ Below q (Tree.lockOf K) ∧ ¬ Below q (Tree.recordOf K)

/-- The lock and the record are not part of the payload. -/
theorem lock_of_inPayload {K n : Path} (h : InPayload K (join K n)) :
    n ≠ "lock".utf8 ∧ n ≠ "activity".utf8 := by
  obtain ⟨-, -, hlock, hrecord⟩ := h
  constructor
  · rintro rfl
    exact hlock SepPath.Below.refl
  · rintro rfl
    exact hrecord SepPath.Below.refl

/-- What lies below another name than those of the lock and the record is payload. -/
theorem inPayload_of_below {K n q : Path} (hK : NameOk K) (hn : NameOk n) (hlock : n ≠ "lock".utf8)
    (hrecord : n ≠ "activity".utf8) (hb : Below q (join K n)) : InPayload K q := by
  refine ⟨hb.trans (SepPath.below_join_left hK.1), fun he => ?_, fun hl => ?_, fun hr => ?_⟩
  · rw [he] at hb
    exact Tree.join_ne hn (hb.antisymm (SepPath.below_join_left hK.1)).symm
  · exact hlock (eq_of_below_names hn Tree.lock_name hb hl)
  · exact hrecord (eq_of_below_names hn (by decide) hb hr)

/-- The shards and the loose files are the payload. -/
theorem View.Payload.swept {out : List (String × Metadata)} (hw : w.Shows v)
    (hp : v.Payload key.utf8) (hK : NameOk key.utf8) (hout : v.Lists key.utf8 out) :
    v.without (fun q => Swept key.utf8 out q ∨
      InBatch key.utf8 ((out.filter loose).map Prod.fst) q) = v.without (InPayload key.utf8) := by
  have hsub : ∀ q, Swept key.utf8 out q ∨ InBatch key.utf8 ((out.filter loose).map Prod.fst) q →
      InPayload key.utf8 q := by
    rintro q (⟨c, hc, hdir, hb⟩ | ⟨s, hs, rfl⟩)
    · obtain ⟨h1, h2, -⟩ := hp.shard hout hc hdir
      exact inPayload_of_below hK (hout.there c hc).1 (fun h => h1 (String.utf8_injective h))
        (fun h => h2 (String.utf8_injective h)) hb
    · obtain ⟨c, hc, rfl⟩ := List.mem_map.mp hs
      obtain ⟨hc, hloose⟩ := List.mem_filter.mp hc
      simp only [loose, Bool.and_eq_true, Bool.not_eq_true', Bool.or_eq_false_iff,
        decide_eq_false_iff_not] at hloose
      exact inPayload_of_below hK (hout.there c hc).1
        (fun h => hloose.1.1 (String.utf8_injective h))
        (fun h => hloose.1.2 (String.utf8_injective h)) SepPath.Below.refl
  funext q
  by_cases hq : InPayload key.utf8 q
  · rw [View.without_of hq]
    by_cases hs : Swept key.utf8 out q ∨ InBatch key.utf8 ((out.filter loose).map Prod.fst) q
    · exact View.without_of hs
    rw [View.without_of_not hs]
    by_contra hsome
    obtain ⟨x, hx⟩ := Option.ne_none_iff_exists'.mp hsome
    -- The object next to the shards that it is, or is in.
    have hne : q ≠ [] := fun h0 => hK.1 (SepPath.below_nil (h0 ▸ hq.1))
    obtain ⟨n, y, hn, hy, hb, hdir⟩ := hw.child_above hne hq.1 hq.2.1 hx
    obtain ⟨c, hc, rfl, hty⟩ := hout.listed n y hn hy
    rcases hp.entry _ y hn hy with hfile | ⟨-, -, hshard⟩
    · have hself : q = join key.utf8 c.1.utf8 := by
        by_contra hneq
        rw [hdir hneq] at hfile
        cases hfile
      subst hself
      obtain ⟨h1, h2⟩ := lock_of_inPayload hq
      refine hs (Or.inr ⟨c.1, List.mem_map_of_mem (List.mem_filter.mpr ⟨hc, ?_⟩), rfl⟩)
      rw [hfile] at hty
      simp only [loose, Metadata.isDir, hty, Bool.and_eq_true, Bool.not_eq_true',
        Bool.or_eq_false_iff, decide_eq_false_iff_not]
      exact ⟨⟨fun h => h1 (congrArg _ h), fun h => h2 (congrArg _ h)⟩, by decide⟩
    · refine hs (Or.inl ⟨c, hc, ?_, hb⟩)
      rw [hshard.dir] at hy
      cases hy
      simp [Metadata.isDir, hty, Core.dir, Body.type]
  · rw [View.without_of_not hq, View.without_of_not fun h => hq (hsub q h)]

/-- `remove_payload` takes the payload out and nothing else. -/
theorem does_removePayload (hp : v.Payload key.utf8) (hw : w.Shows v) (ht : w.temp = none) :
    Goes (removePayload (transferRoot key hk)) w fun _ w' =>
      w'.temp = none ∧ w'.Shows (v.without (InPayload key.utf8)) := by
  have hK := keyName_nameOk hk
  have hbase : (transferRoot key hk).pathOf "" = key.utf8 := pathOf_transfer_empty
  have hfull := (transferRoot key hk).full_base
    (Nat.le_trans (Nat.le_of_eq (keyName_length hk)) (by decide))
  unfold removePayload
  refine Prog.Succeeds.bind (does_children hfull hw (hbase ▸ hp.dir) (hbase ▸ hp.named)) ?_
  rintro out _ ⟨rfl, hout⟩
  rw [hbase] at hout
  -- The invariant of the loop: the shards so far are gone, and the files so far are collected.
  refine Prog.Succeeds.bind (Prog.succeeds_foldlM (fun pre names w' => w'.temp = none ∧
    names = (pre.filter loose).map Prod.fst ∧ w'.Shows (v.without (Swept key.utf8 pre)))
    ⟨ht, rfl, ?_⟩ (fun pre c post names w' hpre hJ => ?_) fun names w' h => h) ?_
  · have hnone : ∀ q, ¬ Swept key.utf8 [] q := by
      rintro q ⟨c, hc, -⟩
      exact absurd hc List.not_mem_nil
    rw [View.without_none hnone]
    exact hw
  · exact does_removeEntry hp hout hpre hJ.1 hJ.2.2 hJ.2.1
  rintro names w₁ ⟨ht₁, hnames, hw₁⟩
  have hloose : ∀ s ∈ names, ∃ c ∈ out, loose c = true ∧ c.1 = s := by
    intro s hs
    rw [hnames] at hs
    obtain ⟨c, hc, rfl⟩ := List.mem_map.mp hs
    exact ⟨c, (List.mem_filter.mp hc).1, (List.mem_filter.mp hc).2, rfl⟩
  -- Without loose files the shards are all there is.
  by_cases hnil : names = []
  · rw [if_neg (not_not.mpr hnil)]
    refine Prog.succeeds_pure ⟨ht₁, ?_⟩
    rw [← hp.swept hw hK hout, ← hnames, hnil]
    rw [View.without_congr (Q := Swept key.utf8 out) fun q => ⟨?_, Or.inl⟩]
    · exact hw₁
    rintro (h | ⟨s, hs, -⟩)
    · exact h
    · exact absurd hs List.not_mem_nil
  · rw [if_pos hnil]
    -- A loose file is not in a shard, so it is still there.
    have hswept : ∀ c ∈ out, loose c = true → ¬ Swept key.utf8 out (join key.utf8 c.1.utf8) := by
      rintro c hc hclose ⟨x, hx, hdir, hb⟩
      have heq := eq_of_below_names (hout.there x hx).1 (hout.there c hc).1 hb SepPath.Below.refl
      obtain ⟨-, -, hshard⟩ := hp.shard hout hx hdir
      obtain ⟨-, -, y, hy, hty⟩ := hout.there c hc
      have hdirc := hshard.dir
      rw [heq, hy] at hdirc
      have hcore := Option.some.inj hdirc
      simp [loose, Metadata.isDir, ← hty, hcore, Core.dir, Body.type] at hclose
    have hself : ¬ Swept key.utf8 out key.utf8 := by
      rintro ⟨c, hc, -, hb⟩
      exact Tree.join_ne (hout.there c hc).1 (hb.antisymm (SepPath.below_join_left hK.1)).symm
    refine (does_removeFiles hfull hw₁ ?_ (fun s hs => ?_) ?_ fun s hs => ?_).imp ?_
    · rw [hbase, View.without_of_not hself]
      exact hp.dir
    · obtain ⟨c, hc, -, rfl⟩ := hloose s hs
      exact ⟨(hout.there c hc).1, (hout.there c hc).2.1⟩
    · rw [hnames]
      exact List.pairwise_map.mpr (hout.nodup.filter _)
    · obtain ⟨c, hc, hclose, rfl⟩ := hloose s hs
      obtain ⟨hname, -, x, hx, hty⟩ := hout.there c hc
      rw [hbase, View.without_of_not (hswept c hc hclose)]
      refine ⟨x, hx, ?_⟩
      rcases hp.entry _ x hname hx with hfile | ⟨-, -, hshard⟩
      · exact hfile
      · rw [hshard.dir] at hx
        obtain rfl := Option.some.inj hx
        simp [loose, Metadata.isDir, ← hty, Core.dir, Body.type] at hclose
    · rintro _ w₂ ⟨ht₂, hw₂⟩
      refine ⟨ht₂.trans ht₁, ?_⟩
      rw [hbase, View.without_without, hnames, hp.swept hw hK hout] at hw₂
      exact hw₂

end

end RrSync

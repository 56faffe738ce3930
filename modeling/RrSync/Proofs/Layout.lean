import RrSync.Proofs.Zones

/-!
# `RrSync.Proofs.Layout`: the tree that a manifest describes

A manifest that mirrors a tree lists what lies in the directories it lists (`child`), and
everything below an object under which nothing is protected (`zone`). From this the facts
that the steps of a run need: what is at the path of a source entry, which directory it is
in, and that the objects a plan drops can be removed in its order (`Droppable`).
-/

set_option autoImplicit false

namespace RrSync

open Lib

/-! ### Parents -/

section
variable {root : Root} {m : Manifest} {checksum : Bool} {e : Entry}

/-- The directory of an object below a root is the root joined with the directory of the path. -/
theorem dirName_pathOf {path : String} (hc : CleanPath path.utf8) :
    dirName (root.pathOf path) = join root.base.utf8 (dirName path.utf8) :=
  SepPath.dirName_join not_nameOk_nil hc

/-- The empty path is the root itself. -/
theorem pathOf_empty : root.pathOf "" = root.base.utf8 := SepPath.join_nil_right

/-- The directory of an entry is the root or a directory entry of the manifest. -/
theorem Manifest.Valid.dirName_pathOf (hm : m.Valid checksum) (root : Root) (he : e ∈ m.entries) :
    dirName (root.pathOf e.path) = root.pathOf "" ∨
      ∃ d ∈ m.entries, d.kind = .directory ∧ Below e.path.utf8 d.path.utf8 ∧ d ≠ e ∧
        root.pathOf d.path = dirName (root.pathOf e.path) := by
  rw [RrSync.dirName_pathOf (hm.clean he), pathOf_empty]
  by_cases hsl : slash ∈ e.path.utf8
  · obtain ⟨d, hd, hdp, hk⟩ := hm.parent e he hsl
    refine Or.inr ⟨d, hd, hk, hdp ▸ SepPath.below_dirName hsl, ?_, by rw [← hdp]; rfl⟩
    rintro rfl
    exact SepPath.dirName_ne (hm.path_ne_nil he) hdp.symm
  · have h0 : dirName e.path.utf8 = [] :=
      (SepPath.dirName_eq_nil not_nameOk_nil (hm.clean he)).mpr hsl
    rw [h0]
    exact Or.inl SepPath.join_nil_right

/-- No name in the path of an entry is reserved, unless the entry is protected. -/
theorem Manifest.Valid.unreserved (hm : m.Valid checksum) (he : e ∈ m.entries)
    (hk : e.kind ≠ .guarded) {a : Path} (hb : Below e.path.utf8 a) :
    reserved (baseName a) = false := by
  have h1 := mt (hm.entry e he).reserved hk
  rw [Bool.not_eq_true, List.any_eq_false] at h1
  simpa using h1 _ hb.baseName_mem

/-- No component of a listed path is reserved. -/
theorem Manifest.Valid.visible (hm : m.Valid checksum) (he : e ∈ m.entries)
    (hk : e.kind ≠ .guarded) : Visible e.path.utf8 := fun _ hb _ => hm.unreserved he hk hb

/-- Paths that a root accepts: those of a valid manifest whose joined paths are short. -/
theorem Manifest.Valid.takes (hm : m.Valid checksum) (he : e ∈ m.entries)
    (hshort : (root.pathOf e.path).length ≤ maxPath) : root.Takes e.path :=
  ⟨(hm.entry e he).path, hshort⟩

/-- At the top of the disk a path stays as it is. -/
theorem opened_pathOf (path : String) : Root.opened.pathOf path = path.utf8 :=
  SepPath.join_nil_left

/-- A path that passes `validate` is not too long. -/
theorem length_of_validate {path : String} (h : validate path = .ok ()) :
    path.utf8.length ≤ maxPath := by
  simp only [validate, ite_throw_eq_ok, Bool.or_eq_true, not_or, decide_eq_true_eq, not_lt] at h
  exact h.1.1.1.1.2

end

/-! ### Children -/

/-- Above an object there are directories. -/
theorem Tree.isDir_above {t : Tree} {q a : Path} {n : Node} (hn : t.get q = some n)
    (hb : Below q a) (hne : q ≠ a) : t.IsDir a := by
  have hb' : Below (dirName q) a := hb.dirName hne
  refine hb'.induction (P := t.IsDir) (fun p hp hd => ?_)
    (Tree.isDir_dirName (List.ne_nil_of_mem (hb.sep_mem hne)) hn)
  obtain ⟨m, hm, -⟩ := hd
  exact Tree.isDir_dirName (List.ne_nil_of_mem hp) hm

section
variable [Sha256] {root : Root} {m : Manifest} {checksum : Bool} {t : Tree} {x : Entry}
  {q : Path} {n : Node}

/-- What lies in a directory that the manifest lists is listed too. -/
theorem Mirrors.child (hmir : Mirrors checksum root m t) (hm : m.Valid checksum)
    (hx : x ∈ m.entries) (hk : x.kind ≠ .guarded) (hq : q ≠ [])
    (hd : dirName q = root.pathOf x.path) (hn : t.get q = some n) :
    ∃ y ∈ m.entries, root.pathOf y.path = q ∧ dirName y.path.utf8 = x.path.utf8 ∧
      slash ∈ y.path.utf8 := by
  have hc := Tree.cleanPath hq hn
  have hname : NameOk (baseName q) := SepPath.Clean.baseName hc
  have hjoin : join root.base.utf8 (join x.path.utf8 (baseName q)) = q := by
    have h1 := hc.join_dirName
    rw [hd] at h1
    exact SepPath.join_assoc.symm.trans h1
  have hdir : dirName (join x.path.utf8 (baseName q)) = x.path.utf8 := dirName_join_name hname
  -- What is above the child is a listed entry or above one, so none of it is reserved.
  have hvis : Visible (join x.path.utf8 (baseName q)) := by
    intro a hb hne
    have h1 := hb.dirName (Ne.symm hne)
    rw [show SepPath.dirName slash (join x.path.utf8 (baseName q)) = x.path.utf8 from hdir] at h1
    exact hm.unreserved hx hk h1
  have hne : join x.path.utf8 (baseName q) ≠ [] := fun h0 => hname.1 (SepPath.join_eq_nil.mp h0).2
  obtain ⟨y, hy, hyp⟩ := hmir.object _ n hne (by rw [hjoin]; exact hn) hvis
  refine ⟨y, hy, by rw [← hjoin, ← hyp]; rfl, by rw [hyp, hdir], ?_⟩
  rw [hyp, show join x.path.utf8 (baseName q) = x.path.utf8 ++ slash :: baseName q from
    SepPath.join_of_ne (hm.path_ne_nil hx) hname.1]
  simp

/-- Everything below an object under which nothing is protected is listed. -/
theorem Mirrors.zone (hmir : Mirrors checksum root m t) (hm : m.Valid checksum)
    (hx : x ∈ m.entries) (hno : ∀ y ∈ m.entries, Below y.path.utf8 x.path.utf8 →
      y.kind ≠ .guarded) (hb : Below q (root.pathOf x.path)) (hn : t.get q = some n) :
    ∃ y ∈ m.entries, root.pathOf y.path = q ∧ Below y.path.utf8 x.path.utf8 := by
  induction hl : q.length using Nat.strongRecOn generalizing q n with
  | ind k ih =>
    by_cases hqx : q = root.pathOf x.path
    · exact ⟨x, hx, hqx.symm, SepPath.Below.refl⟩
    · have hq : q ≠ [] := List.ne_nil_of_mem (hb.sep_mem hqx)
      obtain ⟨d, hd, -⟩ := Tree.isDir_dirName hq hn
      obtain ⟨z, hz, hzp, hzx⟩ := ih (dirName q).length (hl ▸ SepPath.length_dirName_lt hq)
        (hb.dirName hqx) hd rfl
      obtain ⟨y, hy, hyp, hyd, hsl⟩ := hmir.child hm hz (hno z hz hzx) hq hzp.symm hn
      have hyz : Below y.path.utf8 (dirName y.path.utf8) := SepPath.below_dirName hsl
      rw [hyd] at hyz
      exact ⟨y, hy, hyp, hyz.trans hzx⟩

end

/-! ### Removing a list of objects -/

/-- The view without the objects of the entries. -/
def dropAll (root : Root) (u : View) (xs : List Entry) : View := fun q =>
  if ∃ x ∈ xs, root.pathOf x.path = q then none else u q

/-- The objects can be removed one after the other: children come before parents, and the
directories among them have nothing else in them. -/
structure Droppable (root : Root) (u : View) (xs : List Entry) : Prop where
  takes : ∀ x ∈ xs, root.Takes x.path
  there : ∀ x ∈ xs, ∃ c, u (root.pathOf x.path) = some c ∧ (x.kind = .directory ↔ c = Core.dir)
  parent : ∀ x ∈ xs, u (dirName (root.pathOf x.path)) = some Core.dir
  closed : ∀ x ∈ xs, ∀ q, q ≠ [] → dirName q = root.pathOf x.path → u q ≠ none →
    ∃ y ∈ xs, root.pathOf y.path = q
  order : xs.Pairwise fun a b => b.path.utf8 < a.path.utf8

section
variable {root : Root} {u : View} {xs pre post : List Entry} {x : Entry} {w : Disk}
  {J : View → Prop}

/-- Without removals nothing is dropped. -/
theorem dropAll_nil : dropAll root u [] = u := by
  funext q
  exact if_neg (by simp)

/-- The last removal drops one more object. -/
theorem dropAll_snoc : dropAll root u (pre ++ [x])
    = Function.update (dropAll root u pre) (root.pathOf x.path) none := by
  funext q
  unfold dropAll
  by_cases hq : q = root.pathOf x.path
  · subst hq
    rw [Function.update_self]
    exact if_pos ⟨x, by simp, rfl⟩
  · rw [Function.update_of_ne hq]
    refine if_congr ?_ rfl rfl
    constructor
    · rintro ⟨y, hy, rfl⟩
      rcases List.mem_append.mp hy with hy | hy
      · exact ⟨y, hy, rfl⟩
      · rw [List.mem_singleton.mp hy] at hq
        exact absurd rfl hq
    · rintro ⟨y, hy, rfl⟩
      exact ⟨y, List.mem_append_left _ hy, rfl⟩

/-- A path that no removal names is kept. -/
theorem dropAll_of_forall_ne {q : Path} (h : ∀ x ∈ xs, root.pathOf x.path ≠ q) :
    dropAll root u xs q = u q := if_neg fun ⟨x, hx, he⟩ => h x hx he

/-- The removal of the next object. -/
theorem does_removeNext (hd : Droppable root u xs) (hxs : xs = pre ++ x :: post)
    (hw : w.Shows (dropAll root u pre)) (htemp : w.temp.map Temp.dir ≠ some (root.pathOf x.path))
    (hJ : ∀ ys, ys <+: xs → J (dropAll root u ys)) :
    Does J (root.remove x.path (x.kind = .directory)) w fun _ w' =>
      w'.Shows (dropAll root u (pre ++ [x])) ∧ w'.temp = w.temp := by
  have hx : x ∈ xs := by simp [hxs]
  have hc := (hd.takes x hx).clean
  have hord := hd.order
  rw [hxs] at hord
  obtain ⟨-, hpost, hpre⟩ := List.pairwise_append.mp hord
  -- Neither the object nor its directory has been removed before it.
  have hself : ∀ y ∈ pre, root.pathOf y.path ≠ root.pathOf x.path := by
    intro y hy he
    have := hpre y hy x (by simp)
    rw [pathOf_injective he] at this
    exact List.lt_irrefl _ this
  have hparent : ∀ y ∈ pre, root.pathOf y.path ≠ dirName (root.pathOf x.path) := by
    intro y hy he
    have hlt := hpre y hy x (by simp)
    have hx0 : x.path.utf8 ≠ [] := (cleanPath_of_validate (hd.takes x hx).valid).ne_nil
    have hy0 : y.path.utf8 ≠ [] :=
      (cleanPath_of_validate (hd.takes y (by simp [hxs, hy])).valid).ne_nil
    have hb : Below (root.pathOf x.path) (root.pathOf y.path) :=
      SepPath.Below.of_dirName_ne_nil (he ▸ SepPath.Below.refl)
        (fun h0 => hy0 (SepPath.join_eq_nil.mp h0).2)
    have hb' := (SepPath.below_join hx0 hy0).mp hb
    by_cases heq : x.path.utf8 = y.path.utf8
    · rw [heq] at hlt
      exact List.lt_irrefl _ hlt
    · exact List.lt_irrefl _ (List.lt_trans hlt (hb'.lt heq))
  have hleaf : ∀ q, q ≠ [] → dirName q = root.pathOf x.path → dropAll root u pre q = none := by
    intro q hq hdq
    by_cases hu : u q = none
    · unfold dropAll
      split
      · rfl
      · exact hu
    · obtain ⟨y, hy, rfl⟩ := hd.closed x hx q hq hdq hu
      have hy' : y ∈ pre := by
        rw [hxs] at hy
        rcases List.mem_append.mp hy with hy | hy
        · exact hy
        · have hyc := (hd.takes y (by rw [hxs]; exact List.mem_append_right _ hy)).valid
          have hyx : x.path.utf8 < y.path.utf8 := by
            have hy0 := (cleanPath_of_validate hyc).ne_nil
            have hx0 := (cleanPath_of_validate (hd.takes x hx).valid).ne_nil
            have hb : Below (root.pathOf y.path) (root.pathOf x.path) :=
              SepPath.Below.of_dirName_ne_nil (hdq ▸ SepPath.Below.refl) hc.ne_nil
            refine ((SepPath.below_join hy0 hx0).mp hb).lt fun he => ?_
            rw [String.utf8_injective he] at hdq
            exact SepPath.dirName_ne hc.ne_nil hdq
          rcases List.mem_cons.mp hy with rfl | hy
          · exact absurd hyx (List.lt_irrefl _)
          · have := (List.pairwise_cons.mp hpost).1 y hy
            exact absurd (List.lt_trans hyx this) (List.lt_irrefl _)
      exact if_pos ⟨y, hy', rfl⟩
  obtain ⟨c, hcu, hkind⟩ := hd.there x hx
  have hcur : dropAll root u pre (root.pathOf x.path) = some c :=
    (dropAll_of_forall_ne hself).trans hcu
  have hrem : Removable (dropAll root u pre) (root.pathOf x.path) :=
    ⟨hc.ne_nil, (dropAll_of_forall_ne hparent).trans (hd.parent x hx), hleaf⟩
  rw [dropAll_snoc]
  refine does_remove (hd.takes x hx) hw hrem hcur ?_ htemp ?_ ?_
  · rw [decide_eq_true_eq]
    exact hkind
  · exact hJ pre (hxs ▸ List.prefix_append _ _)
  · rw [← dropAll_snoc]
    exact hJ _ ⟨post, by simp [hxs]⟩

end

end RrSync

import RrSync.Proofs.CacheCalls

/-!
# `RrSync.Proofs.Folders`: one directory of the disk

The calls of a program that works in one directory of the top level are `FsCall.Own`. Their
replies and what they do depend only on what is in that directory (`exec_twin`), and they change
nothing that is in another one (`exec_under`). `Tree.under` is what is in a directory, in the
order in which the file system lists it.
-/

set_option autoImplicit false

namespace RrSync

open Lib

/-! ### Lists of nodes -/

/-- Erasing what the filter keeps, before or after it. -/
theorem filter_eraseP {α : Type} {P q : α → Bool} {l : List α} :
    (∀ x, q x = true → P x = true) → (l.eraseP q).filter P = (l.filter P).eraseP q := by
  intro h
  induction l with
  | nil => rfl
  | cons x l ih =>
    by_cases hq : q x = true
    · rw [List.eraseP_cons_of_pos hq, List.filter_cons_of_pos (h x hq),
        List.eraseP_cons_of_pos hq]
    · rw [List.eraseP_cons_of_neg hq]
      by_cases hp : P x = true
      · rw [List.filter_cons_of_pos hp, List.filter_cons_of_pos hp, List.eraseP_cons_of_neg hq, ih]
      · rw [List.filter_cons_of_neg hp, List.filter_cons_of_neg hp, ih]

/-- Erasing what the filter drops makes no difference to it. -/
theorem filter_eraseP_of_not {α : Type} {P q : α → Bool} {l : List α} :
    (∀ x, q x = true → P x = false) → (l.eraseP q).filter P = l.filter P := by
  intro h
  induction l with
  | nil => rfl
  | cons x l ih =>
    by_cases hq : q x = true
    · rw [List.eraseP_cons_of_pos hq, List.filter_cons_of_neg (by simp [h x hq])]
    · rw [List.eraseP_cons_of_neg hq, List.filter_cons, List.filter_cons, ih]

/-- A key that the filter keeps is looked up in the filtered list. -/
theorem dlookup_filter {α : Type} [DecidableEq α] {β : α → Type} {P : α → Bool} {p : α}
    (hp : P p = true) (l : List (Sigma β)) :
    (l.filter fun s => P s.1).dlookup p = l.dlookup p := by
  induction l with
  | nil => rfl
  | cons s l ih =>
    by_cases hs : p = s.1
    · subst hs
      rw [List.filter_cons_of_pos (by exact hp), List.dlookup_cons_eq, List.dlookup_cons_eq]
    · rw [List.filter_cons, List.dlookup_cons_ne _ _ hs]
      split
      · rw [List.dlookup_cons_ne _ _ hs, ih]
      · exact ih

/-! ### What is in a directory -/

namespace Tree

/-- The objects in the directory `d`, and the directory itself. -/
def under (t : Tree) (d : Path) : List (Sigma fun _ : Path => Node) :=
  t.nodes.entries.filter fun s => decide (Below s.1 d)

variable {t t' : Tree} {K p : Path}

/-- Two trees with the same content of a directory have the same object at each of its paths. -/
theorem get_congr (h : t.under K = t'.under K) (hp : Below p K) : t.get p = t'.get p := by
  have key : ∀ t : Tree, t.get p = (t.under K).dlookup p := fun t =>
    (dlookup_filter (P := fun q => decide (Below q K)) (decide_eq_true hp) t.nodes.entries).symm
  rw [key, key, h]

/-- A removal in a directory, seen in the list of what is below it. -/
theorem under_remove {hl : p ≠ [] ∧ t.Leaf p} : (t.remove p hl).under K
    = if Below p K then (t.under K).kerase p else t.under K := by
  show ((t.nodes.entries.kerase p).filter fun s => decide (Below s.1 K)) = _
  by_cases hp : Below p K
  · rw [if_pos hp]
    refine filter_eraseP fun x hx => ?_
    rw [decide_eq_true_eq] at hx ⊢
    exact hx ▸ hp
  · rw [if_neg hp]
    refine filter_eraseP_of_not fun x hx => ?_
    rw [decide_eq_true_eq] at hx
    simpa [← hx] using hp

/-- The list of a directory after an object has been put at `p`. -/
theorem filter_insert (t : Tree) (n : Node) :
    (t.nodes.insert p n).entries.filter (fun s => decide (Below s.1 K))
      = if Below p K then ⟨p, n⟩ :: (t.under K).kerase p else t.under K := by
  show ((⟨p, n⟩ :: t.nodes.entries.kerase p : List _).filter fun s => decide (Below s.1 K)) = _
  by_cases hp : Below p K
  · rw [List.filter_cons_of_pos (by simpa using hp), if_pos hp]
    refine congrArg _ (filter_eraseP fun x hx => ?_)
    rw [decide_eq_true_eq] at hx ⊢
    exact hx ▸ hp
  · rw [List.filter_cons_of_neg (by simpa using hp), if_neg hp]
    refine filter_eraseP_of_not fun x hx => ?_
    rw [decide_eq_true_eq] at hx
    simpa [← hx] using hp

/-- A change of an object, seen in the same list. -/
theorem under_put {n : Node} {hf : t.Fits p n} : (t.put p n hf).under K
    = if Below p K then ⟨p, n⟩ :: (t.under K).kerase p else t.under K := filter_insert t n

/-- A change of times, seen in the same list. -/
theorem under_stamp {time : Time} {tag : Nat} : (t.stamp p time tag).under K
    = (t.get p).elim (t.under K) fun n => if Below p K
        then ⟨p, ⟨n.body, time, tag⟩⟩ :: (t.under K).kerase p else t.under K := by
  have hget : ∀ o, t.nodes.lookup p = o → t.get p = o := fun _ h => h
  unfold stamp
  split
  · next h =>
    rw [hget _ h]
    rfl
  · next n h =>
    rw [hget _ h]
    exact filter_insert t _

/-- A change outside of a directory. -/
theorem under_stamp_of_not {time : Time} {tag : Nat} (hp : ¬ Below p K) :
    (t.stamp p time tag).under K = t.under K := by
  rw [under_stamp]
  cases t.get p with
  | none => rfl
  | some n => exact if_neg hp

/-- A change of times depends on the content of the directory only. -/
theorem under_stamp_congr {time : Time} {tag : Nat} (h : t.under K = t'.under K) :
    (t.stamp p time tag).under K = (t'.stamp p time tag).under K := by
  by_cases hp : Below p K
  · rw [under_stamp, under_stamp, get_congr h hp, h]
  · rw [under_stamp_of_not hp, under_stamp_of_not hp, h]

/-! ### What depends only on a directory -/

/-- Whether a path is a directory depends on the content of the directory it is in. -/
theorem isDir_congr (h : t.under K = t'.under K) (hp : p = [] ∨ Below p K) :
    t.IsDir p ↔ t'.IsDir p := by
  rcases hp with rfl | hp
  · exact iff_of_true isDir_root isDir_root
  · unfold IsDir
    rw [get_congr h hp]

/-- The parent of an object in a directory of the top level. -/
theorem below_dirName (hK : NameOk K) (hp : Below p K) :
    dirName p = [] ∨ Below (dirName p) K := by
  by_cases he : p = K
  · subst he
    refine Or.inl ((SepPath.dirName_eq_nil not_nameOk_nil ?_).mpr hK.2.1)
    exact (SepPath.clean_of_notMem hK.2.1).mpr hK
  · exact Or.inr (hp.dirName he)

/-- So does the errno for a path where nothing is. -/
theorem missing_congr (hK : NameOk K) (h : t.under K = t'.under K) (k : Nat) (hp : Below p K) :
    t.missing k p = t'.missing k p := by
  induction k generalizing p with
  | zero => rfl
  | succ k ih =>
    unfold missing
    rcases below_dirName hK hp with hd | hd
    · -- The open directory is a directory in both trees.
      obtain ⟨n, hn, hb⟩ := t.isDir_root
      obtain ⟨n', hn', hb'⟩ := t'.isDir_root
      simp only [hd, hn, hn', hb, hb']
    · rw [get_congr h hd]
      cases t'.get (dirName p) with
      | none => exact ih hd
      | some n => rfl

/-- So does the lookup of a path. -/
theorem find_congr (hK : NameOk K) (h : t.under K = t'.under K) (hp : Below p K) :
    t.find p = t'.find p := by
  unfold find
  rw [get_congr h hp, missing_congr hK h _ hp]

/-- So does opening a directory. -/
theorem openDir_congr (hK : NameOk K) (h : t.under K = t'.under K) (hp : p = [] ∨ Below p K) :
    t.openDir p = t'.openDir p := by
  rcases hp with rfl | hp
  · rw [(openDir_ok (u := ())).mpr isDir_root, (openDir_ok (u := ())).mpr isDir_root]
  · unfold openDir
    rw [find_congr hK h hp]

/-- So does being a leaf. -/
theorem leaf_congr (hK : NameOk K) (h : t.under K = t'.under K) (hp : Below p K) :
    t.Leaf p ↔ t'.Leaf p := by
  have hbelow : ∀ q, dirName q = p → Below q K := by
    intro q hd
    have hb : Below (dirName q) K := hd ▸ hp
    exact hb.of_dirName_ne_nil hK.1
  simp only [leaf_iff]
  constructor
  · intro hl q n hq hn hd
    exact hl q n hq ((get_congr h (hbelow q hd)).trans hn) hd
  · intro hl q n hq hn hd
    exact hl q n hq ((get_congr h (hbelow q hd)).symm.trans hn) hd

/-- So does the room for a new object. -/
theorem fits_congr {n : Node} (hK : NameOk K) (h : t.under K = t'.under K) (hp : Below p K) :
    t.Fits p n ↔ t'.Fits p n :=
  and_congr_right fun _ => and_congr (isDir_congr h (below_dirName hK hp))
    (or_congr_right (leaf_congr hK h hp))

/-- An entry of a directory depends on the object only. -/
theorem entry_congr {d q : Path} (h : t.get q = t'.get q) : t.entry d q = t'.entry d q := by
  unfold entry
  by_cases hq : q ≠ [] ∧ dirName q = d
  · rw [dif_pos hq, dif_pos hq]
    split
    · next n hn =>
      split
      · next n' hn' =>
        obtain rfl : n = n' := Option.some.inj ((hn.symm.trans h).trans hn')
        rfl
      · next hn' => cases (hn.symm.trans h).trans hn'
    · next hn =>
      split
      · next n' hn' => cases (hn.symm.trans h).trans hn'
      · rfl
  · rw [dif_neg hq, dif_neg hq]

/-- What is listed of a directory depends on its content only. -/
theorem entries_congr (hK : NameOk K) (h : t.under K = t'.under K) (hp : Below p K) :
    t.entries p = t'.entries p := by
  -- What lies in `p` is in `K`, so the other nodes have no entry.
  have key : ∀ t : Tree, t.entries p = ((t.under K).map Sigma.fst).filterMap (t.entry p) := by
    intro t
    show (t.nodes.entries.map Sigma.fst).filterMap (t.entry p) = _
    rw [List.filterMap_map, List.filterMap_map, under, List.filterMap_filter]
    refine List.filterMap_congr fun s _ => ?_
    by_cases hs : Below s.1 K
    · simp [hs]
    · have hd : ¬ (s.1 ≠ [] ∧ dirName s.1 = p) := fun hd => hs <| by
        have hb : Below (dirName s.1) K := hd.2 ▸ hp
        exact hb.of_dirName_ne_nil hK.1
      simp [hs, entry, hd]
  rw [key, key, h]
  refine List.filterMap_congr fun q hq => entry_congr (get_congr h ?_)
  obtain ⟨s, hs, rfl⟩ := List.mem_map.mp hq
  exact of_decide_eq_true (List.mem_filter.mp hs).2

end Tree

/-! ### Calls in a directory -/

/-- The call looks and changes nothing but in the directory `K`, or makes it or removes it. It
stages a file only where `staging` says so. -/
def FsCall.Own (staging : Bool) (K : Path) : FsCall → Prop
  | .stat p | .openFile p | .readDir p | .openLock p | .dropTemp p => Below p K
  | .createTemp p => Below p K ∧ staging = true
  | .openDir p => p = [] ∨ Below p K
  | .mkdir d n | .unlink d n | .rmdir d n | .rename d n => Below (join d n) K ∧ NameOk n
  | .write _ | .setTempTime _ | .syncTemp | .seconds | .sync _ | .flock _ _ => True
  | .utimens _ _ | .mark _ => False

namespace Disk

/-- The disks have the same objects in the directory `K`, and agree on all that is not in the
tree. -/
structure Twin (K : Path) (w w' : Disk) : Prop where
  under : w.tree.under K = w'.tree.under K
  temp : w.temp = w'.temp
  tick : w.tick = w'.tick
  env : w.env = w'.env

/-- Two outcomes of a change are the same error, or the same value and twin disks. -/
def Same (K : Path) {α : Type} : Except Errno (α × Disk) → Except Errno (α × Disk) → Prop
  | .ok (a, v), .ok (a', v') => a = a' ∧ Twin K v v'
  | .error e, .error e' => e = e'
  | _, _ => False

variable {K d n : Path} {w w' : Disk} {α β : Type}

/-- Twins have the same time. -/
theorem Twin.now (h : Twin K w w') : w.now = w'.now := by
  unfold Disk.now
  rw [h.env, h.tick]

/-- Twins stay twins with the same temporary file. -/
theorem Twin.setTemp (h : Twin K w w') (temp : Option Temp) :
    Twin K { w with temp := temp } { w' with temp := temp } := ⟨h.under, rfl, h.tick, h.env⟩

/-- Twins stay twins when a directory gets a new time. -/
theorem Twin.touchDir (h : Twin K w w') {t t' : Tree} (ht : t.under K = t'.under K) :
    Twin K (w.touchDir t d) (w'.touchDir t' d) := by
  unfold Disk.touchDir
  rw [h.now, h.tick]
  exact ⟨Tree.under_stamp_congr ht, h.temp, rfl, h.env⟩

/-- Two computations in sequence, each the same on twins. -/
theorem same_bind {x x' : Except Errno β} {f f' : β → Except Errno (α × Disk)} (hx : x = x')
    (hf : ∀ b, x = .ok b → Same K (f b) (f' b)) : Same K (x >>= f) (x' >>= f') := by
  subst hx
  cases x with
  | ok b => exact hf b rfl
  | error e => rfl

/-- The same check on twins. -/
theorem same_check {c c' : Prop} [Decidable c] [Decidable c'] {e : Errno} {m m' : Except Errno (α × Disk)}
    {f f' : PUnit → Except Errno (α × Disk)} (hc : c ↔ c') (hm : Same K m m') :
    Same K (if c then throw e >>= f else m) (if c' then throw e >>= f' else m') := by
  by_cases h : c
  · rw [if_pos h, if_pos (hc.mp h)]
    rfl
  · rw [if_neg h, if_neg (mt hc.mpr h)]
    exact hm

/-- The same check where what follows needs its proof. -/
theorem same_dite {c c' : Prop} [Decidable c] [Decidable c'] {e : Errno}
    {m : c → Except Errno (α × Disk)} {m' : c' → Except Errno (α × Disk)} (hc : c ↔ c')
    (hm : ∀ h h', Same K (m h) (m' h')) :
    Same K (if h : c then m h else throw e) (if h : c' then m' h else throw e) := by
  by_cases h : c
  · rw [dif_pos h, dif_pos (hc.mp h)]
    exact hm _ _
  · rw [dif_neg h, dif_neg (mt hc.mpr h)]
    rfl

/-- A call that may fail does the same on twins: the environment decides for both alike. -/
theorem Twin.attempt (h : Twin K w w') {f f' : Disk → Except Errno (α × Disk)}
    (hf : ∀ v v', Twin K v v' → Same K (f v) (f' v')) :
    (w.attempt f).1 = (w'.attempt f').1 ∧ Twin K (w.attempt f).2 (w'.attempt f').2 := by
  have h' : Twin K { w with tick := w.tick + 1 } { w' with tick := w'.tick + 1 } :=
    ⟨h.under, h.temp, congrArg (· + 1) h.tick, h.env⟩
  have hs := hf _ _ h'
  -- Both disks fail at the same calls.
  have hfault : w.env.fault w.tick = w'.env.fault w'.tick := by rw [h.env, h.tick]
  unfold Disk.attempt
  simp only [hfault]
  by_cases hw : w'.env.fault w'.tick = true
  · rw [if_pos hw, if_pos hw]
    exact ⟨rfl, h'⟩
  · rw [if_neg hw, if_neg hw]
    generalize f { w with tick := w.tick + 1 } = x at hs ⊢
    generalize f' { w' with tick := w'.tick + 1 } = x' at hs ⊢
    rcases x with e | ⟨a, v⟩
    · rcases x' with e' | ⟨a', v'⟩
      · exact ⟨congrArg Except.error hs, h'⟩
      · exact hs.elim
    · rcases x' with e' | ⟨a', v'⟩
      · exact hs.elim
      · exact ⟨congrArg Except.ok hs.1, hs.2⟩

end Disk

section
variable {K : Path} {w w' : Disk} {d n p : Path} {b : Bool}

open Disk RrSync.Tree

/-- The directory of an object in `K`. -/
theorem below_of_join (hK : NameOk K) (hn : NameOk n) (hp : Below (join d n) K) :
    d = [] ∨ Below d K := by
  have h := below_dirName hK hp
  rwa [dirName_join_name hn] at h

/-- `mkdirat` does the same on twins. -/
theorem same_mkdir (hK : NameOk K) (hn : NameOk n) (hp : Below (join d n) K) (h : Twin K w w') :
    Same K (Disk.mkdir d n w) (Disk.mkdir d n w') := by
  have hd := below_of_join hK hn hp
  unfold Disk.mkdir
  refine same_bind (openDir_congr hK h.under hd) fun _ _ => ?_
  simp only [h.now, h.tick]
  refine same_check (by rw [get_congr h.under hp]) ?_
  refine same_dite (fits_congr hK h.under hp) fun hf hf' => ⟨rfl, h.touchDir ?_⟩
  rw [under_put, under_put, h.under]

/-- `unlinkat` does the same on twins. -/
theorem same_unlink (hK : NameOk K) (hn : NameOk n) (hp : Below (join d n) K) (h : Twin K w w') :
    Same K (Disk.unlink d n w) (Disk.unlink d n w') := by
  have hd := below_of_join hK hn hp
  unfold Disk.unlink
  refine same_bind (openDir_congr hK h.under hd) fun _ _ => ?_
  refine same_bind (find_congr hK h.under hp) fun node _ => same_check Iff.rfl ?_
  refine same_dite (and_congr_right fun _ => leaf_congr hK h.under hp) fun hl hl' =>
    ⟨rfl, h.touchDir ?_⟩
  rw [under_remove, under_remove, h.under]

/-- `unlinkat` with `REMOVEDIR` does the same on twins. -/
theorem same_rmdir (hK : NameOk K) (hn : NameOk n) (hp : Below (join d n) K) (h : Twin K w w') :
    Same K (Disk.rmdir d n w) (Disk.rmdir d n w') := by
  have hd := below_of_join hK hn hp
  unfold Disk.rmdir
  refine same_bind (openDir_congr hK h.under hd) fun _ _ => ?_
  refine same_bind (find_congr hK h.under hp) fun node _ => same_check Iff.rfl ?_
  refine same_check (by rw [h.temp]) ?_
  refine same_dite (and_congr_right fun _ => leaf_congr hK h.under hp) fun hl hl' =>
    ⟨rfl, h.touchDir ?_⟩
  rw [under_remove, under_remove, h.under]

/-- A temporary file is created on both twins or on neither. -/
theorem same_createTemp (hK : NameOk K) (hd : Below d K) (h : Twin K w w') :
    Same K (Disk.createTemp d w) (Disk.createTemp d w') := by
  unfold Disk.createTemp
  refine same_bind (openDir_congr hK h.under (Or.inr hd)) fun _ _ => ⟨rfl, ?_⟩
  rw [h.now]
  exact (h.touchDir h.under).setTemp _

/-- `renameat` does the same on twins. -/
theorem same_rename (hK : NameOk K) (hn : NameOk n) (hp : Below (join d n) K) (h : Twin K w w') :
    Same K (Disk.rename d n w) (Disk.rename d n w') := by
  have hd := below_of_join hK hn hp
  unfold Disk.rename
  rw [← h.temp]
  cases w.temp with
  | none => rfl
  | some temp =>
    refine same_bind (openDir_congr hK h.under hd) fun _ _ => same_check Iff.rfl ?_
    simp only [h.tick]
    refine same_check (isDir_congr h.under (Or.inr hp)) ?_
    refine same_dite (fits_congr hK h.under hp) fun hf hf' => ⟨rfl, ?_⟩
    refine (h.touchDir ?_).setTemp none
    rw [under_put, under_put, h.under]

/-- A lock is opened, made or refused on both twins. -/
theorem same_openLock (hK : NameOk K) (hp : Below p K) (h : Twin K w w') :
    Same K (Disk.openLock p w) (Disk.openLock p w') := by
  unfold Disk.openLock
  rw [get_congr h.under hp, missing_congr hK h.under _ hp]
  cases w'.tree.get p with
  | some node =>
    show Same K (if node.body = .symlink then throw .symlinkLoop
        else if node.body = .directory then throw .isDir else pure (node.metadata, w))
      (if node.body = .symlink then throw .symlinkLoop
        else if node.body = .directory then throw .isDir else pure (node.metadata, w'))
    -- The object in the lock's place is the same on both, and decides in the same way.
    by_cases hlink : node.body = .symlink
    · rw [if_pos hlink, if_pos hlink]
      rfl
    · rw [if_neg hlink, if_neg hlink]
      by_cases hdir : node.body = .directory
      · rw [if_pos hdir, if_pos hdir]
        rfl
      · rw [if_neg hdir, if_neg hdir]
        exact ⟨rfl, h⟩
  | none =>
    simp only [h.now, h.tick]
    refine same_dite (fits_congr hK h.under hp) fun hf hf' => ⟨rfl, h.touchDir ?_⟩
    rw [under_put, under_put, h.under]

/-- Twin disks answer a call in the directory alike, and stay twins. -/
theorem exec_twin {c : FsCall} (hK : NameOk K) (hc : c.Own b K) (h : Twin K w w') :
    (exec c w).1 = (exec c w').1 ∧ Twin K (exec c w).2 (exec c w').2 := by
  cases c with
  | stat p => exact ⟨congrArg (Except.map Node.metadata) (find_congr hK h.under hc), h⟩
  | openDir p => exact ⟨openDir_congr hK h.under hc, h⟩
  | openFile p =>
    refine ⟨?_, h⟩
    simp only [exec, find_congr hK h.under hc]
    rfl
  | readDir p =>
    refine ⟨?_, h⟩
    simp only [exec, openDir_congr hK h.under (Or.inr hc), entries_congr hK h.under hc]
    rfl
  | mkdir d n => exact h.attempt fun v v' hv => same_mkdir hK hc.2 hc.1 hv
  | unlink d n => exact h.attempt fun v v' hv => same_unlink hK hc.2 hc.1 hv
  | rmdir d n => exact h.attempt fun v v' hv => same_rmdir hK hc.2 hc.1 hv
  | sync | syncTemp | flock => exact h.attempt fun v v' hv => ⟨rfl, hv⟩
  | createTemp d => exact h.attempt fun v v' hv => same_createTemp hK hc.1 hv
  | write data =>
    refine h.attempt fun v v' hv => ?_
    unfold Disk.write
    rw [← hv.temp, hv.now]
    cases v.temp with
    | none => rfl
    | some temp => exact ⟨rfl, hv.setTemp _⟩
  | setTempTime time =>
    refine h.attempt fun v v' hv => ?_
    unfold Disk.setTempTime
    rw [← hv.temp]
    cases v.temp with
    | none => rfl
    | some temp => exact ⟨rfl, hv.setTemp _⟩
  | rename d n => exact h.attempt fun v v' hv => same_rename hK hc.2 hc.1 hv
  | dropTemp d =>
    refine ⟨rfl, ?_⟩
    show Twin K (w.dropTemp d) (w'.dropTemp d)
    unfold Disk.dropTemp
    rw [← h.temp]
    cases w.temp with
    | none => exact h
    | some temp =>
      have ht := h.touchDir (d := d) h.under
      exact ⟨ht.under, rfl, congrArg (· + 1) h.tick, h.env⟩
  | openLock p => exact h.attempt fun v v' hv => same_openLock hK hc hv
  -- both clocks show the same, since as many calls were made
  | seconds =>
    refine ⟨?_, h.under, h.temp, congrArg (· + 1) h.tick, h.env⟩
    show w.env.seconds w.tick = w'.env.seconds w'.tick
    rw [h.env, h.tick]
  | utimens | mark => exact hc.elim

/-! ### What another directory keeps -/

/-- Two directories of the top level have nothing in common. -/
theorem not_below_both {L : Path} (hK : NameOk K) (hL : NameOk L) (hne : K ≠ L) (h : Below p K) :
    ¬ Below p L := by
  intro h'
  rcases h.comparable h' with hb | hb
  · exact hK.2.1 (hb.sep_mem hne)
  · exact hL.2.1 (hb.sep_mem hne.symm)

/-- The root lies in no named directory. -/
theorem not_below_root {L : Path} (hL : NameOk L) : ¬ Below [] L := fun h =>
  hL.1 (SepPath.below_nil h)

/-- The time of a directory is not part of what is below another one. -/
theorem under_touchDir {L : Path} {t t' : Tree} (ht : t'.under L = t.under L) (hd : ¬ Below d L) :
    (w.touchDir t' d).tree.under L = t.under L := (under_stamp_of_not hd).trans ht

/-- A call in one directory changes nothing in another one. -/
theorem exec_under {c : FsCall} {L : Path} (hK : NameOk K) (hL : NameOk L) (hne : K ≠ L)
    (hc : c.Own b K) : (exec c w).2.tree.under L = w.tree.under L := by
  -- the parent of what the call changes is the root or lies in `K`, so it is not in `L`
  have hdir : ∀ d, d = [] ∨ Below d K → ¬ Below d L := by
    rintro d (rfl | hd)
    · exact not_below_root hL
    · exact not_below_both hK hL hne hd
  cases c with
  | stat | openDir | openFile | readDir | seconds => rfl
  | utimens | mark => exact hc.elim
  | sync | syncTemp | flock =>
    refine attempt_tree (P := fun t => t.under L = w.tree.under L) rfl fun a w' h => ?_
    cases h
    rfl
  | write data =>
    refine attempt_tree (P := fun t => t.under L = w.tree.under L) rfl fun a w' h => ?_
    obtain ⟨temp, -, rfl⟩ := Disk.write_ok.mp h
    rfl
  | setTempTime time =>
    refine attempt_tree (P := fun t => t.under L = w.tree.under L) rfl fun a w' h => ?_
    obtain ⟨temp, -, rfl⟩ := Disk.setTempTime_ok.mp h
    rfl
  | mkdir d n =>
    refine attempt_tree (P := fun t => t.under L = w.tree.under L) rfl fun a w' h => ?_
    obtain ⟨-, -, hf, rfl⟩ := Disk.mkdir_ok.mp h
    refine under_touchDir ?_ (hdir d (below_of_join hK hc.2 hc.1))
    rw [under_put, if_neg (not_below_both hK hL hne hc.1)]
  | unlink d n =>
    refine attempt_tree (P := fun t => t.under L = w.tree.under L) rfl fun a w' h => ?_
    obtain ⟨-, -, hl, rfl⟩ := Disk.unlink_ok.mp h
    refine under_touchDir ?_ (hdir d (below_of_join hK hc.2 hc.1))
    rw [under_remove, if_neg (not_below_both hK hL hne hc.1)]
  | rmdir d n =>
    refine attempt_tree (P := fun t => t.under L = w.tree.under L) rfl fun a w' h => ?_
    obtain ⟨-, -, -, hl, rfl⟩ := Disk.rmdir_ok.mp h
    refine under_touchDir ?_ (hdir d (below_of_join hK hc.2 hc.1))
    rw [under_remove, if_neg (not_below_both hK hL hne hc.1)]
  | createTemp d =>
    refine attempt_tree (P := fun t => t.under L = w.tree.under L) rfl fun a w' h => ?_
    obtain ⟨-, rfl⟩ := Disk.createTemp_ok.mp h
    exact under_touchDir rfl (hdir d (Or.inr hc.1))
  | rename d n =>
    refine attempt_tree (P := fun t => t.under L = w.tree.under L) rfl fun a w' h => ?_
    obtain ⟨temp, -, -, -, -, hf, rfl⟩ := Disk.rename_ok.mp h
    refine under_touchDir ?_ (hdir d (below_of_join hK hc.2 hc.1))
    rw [under_put, if_neg (not_below_both hK hL hne hc.1)]
  | dropTemp d =>
    show (w.dropTemp d).tree.under L = w.tree.under L
    unfold Disk.dropTemp
    split
    · rfl
    · exact under_touchDir rfl (hdir d (Or.inr hc))
  | openLock p =>
    refine attempt_tree (P := fun t => t.under L = w.tree.under L) rfl fun a w' h => ?_
    rcases Disk.openLock_ok.mp h with ⟨n, -, -, -, rfl⟩ | ⟨-, -, hf, rfl⟩
    · rfl
    · refine under_touchDir ?_ (hdir _ (below_dirName hK hc))
      rw [under_put, if_neg (not_below_both hK hL hne hc)]

/-- Without staging, no staged file appears. -/
theorem exec_temp {c : FsCall} (hc : c.Own false K) (hw : w.temp = none) :
    (exec c w).2.temp = none := by
  -- only a call that succeeds can stage a file, and a call of this kind does not
  have key : ∀ {α : Type} {f : Disk → Except Errno (α × Disk)},
      (∀ a w', f { w with tick := w.tick + 1 } = .ok (a, w') → w'.temp = none) →
        (w.attempt f).2.temp = none := by
    intro α f hf
    unfold Disk.attempt
    simp only []
    split
    · exact hw
    · split
      · next a w' h => exact hf a w' h
      · exact hw
  cases c with
  | stat | openDir | openFile | readDir | seconds => exact hw
  | utimens | mark => exact hc.elim
  | createTemp d => cases hc.2
  | sync | syncTemp | flock =>
    refine key fun a w' h => ?_
    cases h
    exact hw
  | write data =>
    refine key fun a w' h => ?_
    obtain ⟨temp, ht, rfl⟩ := Disk.write_ok.mp h
    cases hw.symm.trans ht
  | setTempTime time =>
    refine key fun a w' h => ?_
    obtain ⟨temp, ht, rfl⟩ := Disk.setTempTime_ok.mp h
    cases hw.symm.trans ht
  | mkdir d n =>
    refine key fun a w' h => ?_
    obtain ⟨-, -, -, rfl⟩ := Disk.mkdir_ok.mp h
    exact hw
  | unlink d n =>
    refine key fun a w' h => ?_
    obtain ⟨-, -, -, rfl⟩ := Disk.unlink_ok.mp h
    exact hw
  | rmdir d n =>
    refine key fun a w' h => ?_
    obtain ⟨-, -, -, -, rfl⟩ := Disk.rmdir_ok.mp h
    exact hw
  | rename d n =>
    refine key fun a w' h => ?_
    obtain ⟨temp, -, -, -, -, -, rfl⟩ := Disk.rename_ok.mp h
    rfl
  | dropTemp d =>
    show (w.dropTemp d).temp = none
    unfold Disk.dropTemp
    split
    · exact hw
    · rfl
  | openLock p =>
    refine key fun a w' h => ?_
    rcases Disk.openLock_ok.mp h with ⟨n, -, -, -, rfl⟩ | ⟨-, -, hf, rfl⟩ <;> exact hw

/-- The program leaves no staged file behind. -/
def Tidy {α ε : Type} (m : Prog FsSig ε α) : Prop :=
  ∀ w, w.temp = none → (m.run exec w).2.temp = none

/-- A program of calls in a directory that stages nothing leaves nothing staged. -/
theorem tidy_of_own {α ε : Type} {m : Prog FsSig ε α}
    (hm : Prog.Issues (S := FsSig) (FsCall.Own false K) m) : Tidy m := fun _ hw =>
  (hm.spec (I := fun v : Disk => v.temp = none) (fun _ _ hc hv => exec_temp hc hv) hw).run

/-- Two tidy programs in sequence. -/
theorem tidy_bind {α β ε : Type} {m : Prog FsSig ε α} {f : α → Prog FsSig ε β} (hm : Tidy m)
    (hf : ∀ a, Tidy (f a)) : Tidy (m >>= f) := by
  intro w hw
  rw [Prog.run_bind]
  have h1 := hm w hw
  rcases hr : m.run exec w with ⟨e | a, v⟩
  · rw [hr] at h1
    exact h1
  · rw [hr] at h1
    exact hf a v h1

/-- A program that works in one directory, seen from another one. -/
theorem under_of_own {α ε : Type} {m : Prog FsSig ε α} {L : Path} (hK : NameOk K)
    (hL : NameOk L) (hne : K ≠ L) (hm : Prog.Issues (S := FsSig) (FsCall.Own b K) m)
    (hw : m.Moment exec w w') : w'.tree.under L = w.tree.under L :=
  (hm.spec (I := fun v => v.tree.under L = w.tree.under L)
    (fun _ _ hc hv => (exec_under hK hL hne hc).trans hv) rfl).moment rfl hw

end

/-! ### The operations of a directory -/

section
variable {root : Root} {path : String} {K : Path} {b : Bool}

/-- The names that are handed to the kernel are in the directory of the root. -/
theorem below_own (hbase : root.base.utf8 = K) (hK : NameOk K) (path : String) :
    Below (root.pathOf path) K := by
  unfold Root.pathOf
  rw [hbase]
  exact SepPath.below_join_left hK.1

/-- What `full` accepts of a root lies in the directory of the root. -/
theorem below_full (hbase : root.base.utf8 = K) (hK : NameOk K) {s : String}
    (h : root.full path = .ok s) : Below s.utf8 K :=
  Root.full_utf8 h ▸ below_own hbase hK path

/-- `open_file` works in the directory of its root. -/
theorem own_openFile (hbase : root.base.utf8 = K) (hK : NameOk K) :
    Calls (FsCall.Own b K) (root.openFile path) :=
  calls_full fun s h => calls_sys (c := .openFile s.utf8) (below_full hbase hK h) fun _ =>
    Prog.issues_bind (calls_ok _) fun _ => calls_check_bind trivial

/-- `children` works in the directory of its root. -/
theorem own_children (hbase : root.base.utf8 = K) (hK : NameOk K) :
    Calls (FsCall.Own b K) (root.children path) :=
  calls_full fun s h => calls_sys (c := .readDir s.utf8) (below_full hbase hK h) fun _ =>
    Prog.issues_bind (calls_ok _) fun _ => Prog.issues_bind trivial fun _ => trivial

/-- `lock_state` works in the directory of its root. -/
theorem own_lockState (hp : Below (root.pathOf path) K) {shared : Bool} :
    Calls (FsCall.Own b K) (root.lockState path shared) := by
  refine calls_full fun s h => ?_
  rw [← Root.full_utf8 h] at hp
  exact calls_sys (c := .openLock s.utf8) hp fun _ => Prog.issues_bind (calls_ok _) fun _ =>
    calls_check_bind (calls_sys (c := .flock _ _) trivial fun _ => calls_ok _)

/-- The directories on the way are `K` or in it. -/
theorem own_mkdirFrom {parent : Path} {names : List Path} (hparent : parent = [] ∨ Below parent K)
    (hnames : ∀ n ∈ names, NameOk n)
    (hfirst : ∀ n ∈ names.head?, Below (join parent n) K) :
    Calls (FsCall.Own b K) (Root.mkdirFrom parent names) := by
  induction names generalizing parent with
  | nil => trivial
  | cons name names ih =>
    have hb : Below (join parent name) K := hfirst name (by simp)
    have hn := hnames name List.mem_cons_self
    have hrest : Calls (FsCall.Own b K) (Root.mkdirFrom (join parent name) names) := by
      refine ih (Or.inr hb) (fun n h => hnames n (List.mem_cons_of_mem _ h)) fun n hn' => ?_
      have hne : join parent name ≠ [] := fun h => hn.1 (SepPath.join_eq_nil.mp h).2
      exact (SepPath.below_join_left hne).trans hb
    refine calls_sys (c := .openDir parent) hparent fun _ => Prog.issues_bind (calls_ok _) fun _ => ?_
    refine calls_sys (c := .mkdir parent name) ⟨hb, hn⟩ fun made => ?_
    -- after a component was made or found, the rest is made below it
    have hopen : Calls (FsCall.Own b K) (do
        ok (← sys (.openDir (join parent name)))
        Root.mkdirFrom (join parent name) names) :=
      calls_sys (c := .openDir _) (Or.inr hb) fun _ =>
        Prog.issues_bind (calls_ok _) fun _ => hrest
    split
    · exact calls_sys (c := .sync parent) trivial fun _ => Prog.issues_bind (calls_ok _) fun _ => hopen
    · exact hopen
    · trivial

/-- `mkdir` works in the directory of its root. -/
theorem own_mkdir (hK : NameOk K) (hp : Below (root.pathOf path) K) :
    Calls (FsCall.Own b K) (root.mkdir path) := by
  refine calls_full fun s h => ?_
  have hs := Root.full_rooted h
  refine own_mkdirFrom (Or.inl rfl) (fun n hn => nameOk_of_mem_names hs hn) fun n hn => ?_
  -- The first name on the way is the directory.
  have hfirst : ∃ rest, (s.utf8.splitOn slash).filter (fun c => c ≠ []) = K :: rest := by
    rw [Root.full_utf8 h]
    rcases hp with he | ⟨t, ht⟩
    · refine ⟨[], ?_⟩
      rw [he, List.splitOn_eq_singleton hK.2.1]
      simp [hK.1]
    · refine ⟨(t.splitOn slash).filter fun c => c ≠ [], ?_⟩
      rw [← ht, List.append_assoc, List.singleton_append, SepPath.splitOn_append_sep hK.2.1,
        List.filter_cons_of_pos (by simpa using hK.1)]
  obtain ⟨rest, hrest⟩ := hfirst
  rw [hrest] at hn
  cases hn
  rw [join, SepPath.join_nil_left]
  exact SepPath.Below.refl

/-- `parent` opens the directory of the path, which is `K`, in `K` or above it. -/
theorem own_parent (hK : NameOk K) (hp : Below (root.pathOf path) K) :
    Calls (FsCall.Own b K) (root.parent path) := by
  refine calls_validate fun _ => calls_full fun s h => ?_
  have hs := Root.full_utf8 h
  exact calls_sys (c := .openDir (dirName s.utf8)) (Tree.below_dirName hK (hs ▸ hp)) fun _ =>
    Prog.issues_bind (calls_ok _) fun _ => trivial

/-- `remove` works in the directory of its root. -/
theorem own_remove {directory : Bool} (hK : NameOk K) (hp : Below (root.pathOf path) K) :
    Calls (FsCall.Own b K) (root.remove path directory) := by
  refine Prog.issues_bind_returns (own_parent hK hp) (calls_parent (E := .any)).2 ?_
  rintro _ ⟨hc, rfl⟩
  have hname : NameOk (baseName (root.pathOf path)) := SepPath.Clean.baseName hc
  have hj : Below (join (dirName (root.pathOf path)) (baseName (root.pathOf path))) K := by
    rwa [hc.join_dirName]
  refine Prog.issues_bind ?_ fun _ => calls_sys (c := .sync _) trivial fun _ => calls_ok _
  unfold Root.unlinkat
  split
  · exact calls_sys (c := .rmdir _ _) ⟨hj, hname⟩ fun _ => calls_ok _
  · exact calls_sys (c := .unlink _ _) ⟨hj, hname⟩ fun _ => calls_ok _

/-- `remove_files` works in the directory of its root: the names have no slash. -/
theorem own_removeFiles {names : List String} (hbase : root.base.utf8 = K) (hK : NameOk K) :
    Calls (FsCall.Own b K) (root.removeFiles path names) := by
  refine Prog.issues_bind_returns (Prog.issues_forM fun name _ => ?_)
    (Prog.returns_forM fun name _ => returns_checkName) fun _ hnames => ?_
  · exact calls_validate fun _ => calls_check trivial
  · refine calls_full fun s h => ?_
    have hb := below_full hbase hK h
    refine calls_sys (c := .openDir s.utf8) (Or.inr hb) fun _ => Prog.issues_bind (calls_ok _) fun _ => ?_
    refine Prog.issues_bind (Prog.issues_attempt (Prog.issues_forM fun name hn => ?_)) fun r => ?_
    · have hne : s.utf8 ≠ [] := by
        intro h0
        exact not_below_root hK (h0 ▸ hb)
      exact calls_sys (c := .unlink s.utf8 name.utf8)
        ⟨(SepPath.below_join_left hne).trans hb, hnames name hn⟩ fun _ => calls_ok _
    -- the batch is synced whether or not all names went away
    · refine Prog.issues_bind (Prog.issues_attempt (calls_sys (c := .sync _) trivial fun _ =>
        calls_ok _)) fun r' => ?_
      cases r with
      | ok _ => cases r' <;> trivial
      | error _ => trivial

end

end RrSync

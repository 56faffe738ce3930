import RrSync.Proofs.Removal

/-!
# `RrSync.Proofs.Expiry`: what `expire` removes and keeps

On a disk on which no call fails, `expire` goes through the transfers other than the current
one. A turn works in one transfer directory (`own_expireEntry`), so each turn finds its
directory as the first listing has found it, and what the turns do adds up to
`expire_exact`. That a transfer with something unexpected in it stops the loop and loses
nothing (`spec_expire_unexpected`) needs no assumption about the calls at all.
-/

set_option autoImplicit false

namespace RrSync

open Lib

-- Else a path is evaluated as far as its number allows whenever a program is matched.
attribute [local irreducible] hex8 chunkString

/-! ### A transfer that passes `payload_bytes` -/

/-- All names in the directory are as short as file systems have them. -/
def Tree.ShortNames (t : Tree) (K : Path) : Prop :=
  ∀ q node, t.get q = some node → Below q K → (baseName q).length ≤ 255

section
variable {w : Disk} {v : View} {K d : Path}

/-- A directory that can be listed shows only names that are UTF-8. -/
theorem View.named_of_listing (hw : w.Shows v) (hshort : w.tree.ShortNames K) (hd : Below d K)
    (hne : d ≠ []) {out : List (String × Metadata)} (hout : w.tree.listing d = .ok out) :
    v.Named d := by
  obtain ⟨-, hlisted, -⟩ := Tree.children_of_listing hout
  -- Every object of the directory was listed, so its name is a string.
  have hlist : ∀ n, NameOk n → (v (join d n)).isSome → ∃ c ∈ out, c.1.utf8 = n := by
    intro n hn hsome
    rw [← hw.isSome] at hsome
    obtain ⟨node, hnode⟩ := Option.isSome_iff_exists.mp hsome
    obtain ⟨c, hc, hcn, -⟩ := hlisted n node hn hnode
    exact ⟨c, hc, hcn⟩
  refine ⟨fun n hn hsome => ?_, fun ns hnodup hns => ?_⟩
  · obtain ⟨c, -, hcn⟩ := hlist n hn hsome
    rw [← hw.isSome] at hsome
    obtain ⟨node, hnode⟩ := Option.isSome_iff_exists.mp hsome
    have hlen := hshort _ node hnode ((SepPath.below_join_left hne).trans hd)
    rw [baseName_join_name hn] at hlen
    exact ⟨⟨c.1, hcn⟩, hlen⟩
  -- Different names are different entries of the list, which is within the limit.
  · have hsub : ns ⊆ out.map fun c => c.1.utf8 := by
      intro n hn
      obtain ⟨c, hc, rfl⟩ := hlist n (hns n hn).1 (hns n hn).2
      exact List.mem_map_of_mem hc
    have hle := (List.subperm_of_subset hnodup hsub).length_le
    rw [List.length_map] at hle
    exact hle.trans (Tree.listing_length hout)

/-- What passes `payload_bytes` can be removed. -/
theorem View.payload_of_stowed (hw : w.Shows v) (hK : NameOk K) (hdir : w.tree.IsDir K)
    (hshort : w.tree.ShortNames K) {b : Nat} (hst : w.tree.stowed K = .ok b) : v.Payload K := by
  simp only [Tree.stowed, bind_eq_ok] at hst
  obtain ⟨out, hout, hfold⟩ := hst
  obtain ⟨-, hlisted, -⟩ := Tree.children_of_listing hout
  refine ⟨hw.isDir.mp hdir, View.named_of_listing hw hshort SepPath.Below.refl hK.1 hout, ?_⟩
  intro n x hn hx
  obtain ⟨node, hnode, rfl⟩ := hw.get hx
  obtain ⟨c, hc, rfl, hmeta⟩ := hlisted n node hn hnode
  obtain ⟨bytes, bytes', hturn⟩ := foldlM_turns hfold c hc
  rcases stowedEntry_ok hturn with hfile | ⟨hcdir, hshard, files, hfiles, hall⟩
  · left
    rw [hmeta] at hfile
    exact isFile_metadata.mp hfile
  · right
    have hbelow : Below (join K c.1.utf8) K := SepPath.below_join_left hK.1
    -- The names of shards are digits.
    have hname : ∀ name : String, shardName name = false → c.1.utf8 ≠ name.utf8 := by
      intro name hnot he
      rw [String.utf8_injective he, hnot] at hshard
      cases hshard
    refine ⟨hname "lock" (by decide), hname "activity" (by decide), ?_, ?_, ?_⟩
    · rw [hmeta] at hcdir
      rw [hx, Node.core_eq_dir.mpr (isDir_metadata.mp hcdir)]
    · exact View.named_of_listing hw hshort hbelow (join_name_ne_nil hn) hfiles
    · intro m y hm hy
      obtain ⟨node', hnode', rfl⟩ := hw.get hy
      obtain ⟨-, hlisted', -⟩ := Tree.children_of_listing hfiles
      obtain ⟨f, hf, -, hfmeta⟩ := hlisted' m node' hm hnode'
      have hfile := hall f hf
      rw [hfmeta] at hfile
      exact isFile_metadata.mp hfile

end

/-! ### The lock -/

/-- What opening the lock of the transfer directory `K` can do: make the lock, and stamp the
directory. -/
def Tree.Relocked (t t' : Tree) (K : Path) : Prop := ∀ q, t'.get q = t.get q ∨
  q = K ∧ Restamped (t.get q) (t'.get q) ∨
  q = Tree.lockOf K ∧ t.get q = none ∧ ∃ m, t'.get q = some m ∧ m.body = .file []

section
variable {t t' : Tree} {K : Path}

/-- A lock that is made changes nothing but itself and the time of its directory. -/
theorem Tree.Relocked.same (h : t.Relocked t' K) {q : Path} (hK : q ≠ K) (hl : q ≠ lockOf K) :
    t'.get q = t.get q := by
  rcases h q with h | ⟨h, -⟩ | ⟨h, -⟩
  · exact h
  · exact absurd h hK
  · exact absurd h hl

/-- The transfer stays a directory. -/
theorem Tree.Relocked.isDir (h : t.Relocked t' K) (hd : t.IsDir K) : t'.IsDir K := by
  obtain ⟨n, hn, hb⟩ := hd
  rcases h K with h | ⟨-, m, m', hm, hm', hbody⟩ | ⟨hl, -⟩
  · exact ⟨n, h.trans hn, hb⟩
  · obtain rfl := Option.some.inj (hn.symm.trans hm)
    exact ⟨m', hm', hbody.trans hb⟩
  · exact absurd hl (Tree.join_ne Tree.lock_name).symm

/-- A lock that was there is still there. -/
theorem Tree.Relocked.lock (h : t.Relocked t' K) {n : Node} (hn : t.get (lockOf K) = some n) :
    t'.get (lockOf K) = some n := by
  rcases h (lockOf K) with h | ⟨hl, -⟩ | ⟨-, hnone, -⟩
  · exact h.trans hn
  · exact absurd hl (Tree.join_ne Tree.lock_name)
  · rw [hnone] at hn
    cases hn

/-- When the old lock was a file, so is the new one, and conversely. -/
theorem Tree.Relocked.lock_file (h : t.Relocked t' K)
    (hold : ∀ n, t.get (lockOf K) = some n → n.body.type = .file) :
    ∀ n, t'.get (lockOf K) = some n → n.body.type = .file := by
  intro n hn
  rcases h (lockOf K) with h | ⟨hl, -⟩ | ⟨-, -, m, hm, hb⟩
  · exact hold n (h ▸ hn)
  · exact absurd hl (Tree.join_ne Tree.lock_name)
  · obtain rfl := Option.some.inj (hn.symm.trans hm)
    rw [hb]
    rfl

/-- Its record stays. -/
theorem Tree.Relocked.record (h : t.Relocked t' K) : t'.get (recordOf K) = t.get (recordOf K) :=
  h.same (Tree.join_ne (by decide)) fun he =>
    absurd (SepPath.join_injective K he) (by decide)

/-- Locks are not shards. -/
theorem Tree.lock_of_stowed {b : Nat} (hst : t.stowed K = .ok b) {n : Node} {name : String}
    (hname : NameOk name.utf8) (hshard : shardName name = false)
    (hn : t.get (join K name.utf8) = some n) : n.body.type = .file := by
  simp only [stowed, bind_eq_ok] at hst
  obtain ⟨out, hout, hfold⟩ := hst
  obtain ⟨c, hc, hcn, hmeta⟩ := (children_of_listing hout).listed _ n hname hn
  obtain rfl := String.utf8_injective hcn
  obtain ⟨_, _, hturn⟩ := foldlM_turns hfold c hc
  rcases stowedEntry_ok hturn with hfile | ⟨-, h, -⟩
  · rw [hmeta] at hfile
    exact isFile_metadata.mp hfile
  · rw [hshard] at h
    cases h

/-- It holds as much as before. -/
theorem Tree.Relocked.stowed (h : t.Relocked t' K) (hroom : t.Room K) {b : Nat}
    (hst : t.stowed K = .ok b) : t'.stowed K = .ok b := by
  have hold : ∀ n, t.get (lockOf K) = some n → n.body.type = .file := fun n hn =>
    lock_of_stowed hst lock_name (by decide) hn
  have hsame : ∀ q, q ≠ K → q ≠ lockOf K → t'.get q = t.get q := fun q hK hl => h.same hK hl
  exact stowed_relock hsame (fun out hout => relock_listing hsame hroom hout) (h.lock_file hold)
    hold hst

/-- A lock does not make up for what `payload_bytes` does not accept. -/
theorem Tree.Relocked.not_stowed (h : t.Relocked t' K) {b : Nat} (hst : t'.stowed K = .ok b) :
    t.stowed K = .ok b := by
  have hnew : ∀ n, t'.get (lockOf K) = some n → n.body.type = .file := fun n hn =>
    lock_of_stowed hst lock_name (by decide) hn
  have hold : ∀ n, t.get (lockOf K) = some n → n.body.type = .file := fun n hn =>
    hnew n (h.lock hn)
  have hsame : ∀ q, q ≠ K → q ≠ lockOf K → t.get q = t'.get q := fun q hK hl =>
    (h.same hK hl).symm
  refine stowed_relock hsame (fun out hout => ?_) hold hnew hst
  by_cases hlock : (t'.get (lockOf K)).isSome
  · exact relock_listing hsame (Or.inl hlock) hout
  · -- Without a lock there is no new lock either.
    have hnone : t'.get (lockOf K) = none := by simpa using hlock
    refine ⟨out, listing_same hout fun n hn => ?_⟩
    by_cases hl : n = "lock".utf8
    · subst hl
      show t.get (lockOf K) = t'.get (lockOf K)
      cases ht : t.get (lockOf K) with
      | none => exact hnone.symm
      | some m => exact (h.lock ht).symm
    · exact relock_child hsame hn hl

end

/-- The calls of `lock_state`. -/
def FsCall.Locks (p : Path) : FsCall → Prop
  | .openLock q => q = p
  | .flock _ _ => True
  | _ => False

/-- `lock_state` only opens or makes the lock. -/
theorem locks_lockState {root : Root} {path : String} {shared : Bool} :
    Calls (FsCall.Locks (root.pathOf path)) (root.lockState path shared) :=
  calls_full fun s h => calls_sys (c := .openLock s.utf8) (Root.full_utf8 h) fun _ =>
    Prog.issues_bind (calls_ok _) fun _ => calls_check_bind
      (calls_sys (c := .flock _ _) trivial fun _ => calls_ok _)

/-- Opening the lock of a transfer, whatever the calls return. -/
theorem relocked_lockState {w w' : Disk} {key : String} {hk : keyName key = true}
    (hw : ((transferRoot key hk).lockState "lock" false).Moment exec w w') :
    w.tree.Relocked w'.tree key.utf8 := by
  have hlock : NameOk "lock".utf8 := by decide
  refine frame_of_issues (R := fun q old new => new = old ∨
    q = key.utf8 ∧ Restamped old new ∨
    q = Tree.lockOf key.utf8 ∧ old = none ∧ ∃ m, new = some m ∧ m.body = .file [])
    locks_lockState (fun _ _ => Or.inl rfl) ?_ ?_ hw
  -- The effects follow each other: the lock is made once, and the directory may be stamped again.
  · intro q x y z hxy hyz
    rcases hxy with rfl | ⟨hq, n, n', rfl, rfl, hb⟩ | ⟨hq, rfl, m, rfl, hb⟩
    · exact hyz
    · rcases hyz with rfl | ⟨-, m, m', hm, rfl, hb'⟩ | ⟨-, hnone, -⟩
      · exact Or.inr (Or.inl ⟨hq, n, n', rfl, rfl, hb⟩)
      · obtain rfl := Option.some.inj hm
        exact Or.inr (Or.inl ⟨hq, n, m', rfl, rfl, hb'.trans hb⟩)
      · cases hnone
    · rcases hyz with rfl | ⟨hK, -⟩ | ⟨-, hnone, -⟩
      · exact Or.inr (Or.inr ⟨hq, rfl, m, rfl, hb⟩)
      · exact absurd (hq.symm.trans hK) (Tree.join_ne Tree.lock_name)
      · cases hnone
  -- Only the call that opens the lock has an effect.
  · intro c hc q old new hmay
    cases c with
    | openLock p =>
      obtain rfl : p = (transferRoot key hk).pathOf "lock" := hc
      rcases hmay with ⟨hq, h⟩ | ⟨hq, h⟩
      · rw [dirName_name hlock] at hq
        exact Or.inr (Or.inl ⟨hq, h⟩)
      · exact Or.inr (Or.inr ⟨hq, h⟩)
    | flock => exact hmay.elim
    | _ => exact hc.elim

/-! ### One turn -/

/-- The transfer has a well-formed record that is old enough. A record of the future is not. -/
def Tree.Expires (t : Tree) (K : Path) (retention now : Nat) : Prop :=
  ∃ last, t.record? K = some last ∧ last ≤ now ∧ retention ≤ now - last

/-- The transfer directory is kept: the files and shards in it are as they were, and there is a
record. -/
structure Tree.Retained (t t' : Tree) (K : Path) (now : Nat) : Prop where
  dir : t'.IsDir K
  payload : ∀ q, InPayload K q → t'.view q = t.view q
  record : (t.record? K).isSome → t'.view (recordOf K) = t.view (recordOf K)
  marked : t.record? K = none →
    ∃ time, t'.view (recordOf K) = some (Core.file (activityRecord now) time)

/-- What `expire` does to a transfer. -/
structure Tree.Reviewed (t t' : Tree) (K : Path) (retention now : Nat) : Prop where
  expired : t.Expires K retention now → ∀ q, Below q K → t'.get q = none
  retained : ¬ t.Expires K retention now → t.Retained t' K now

/-- What `expire` needs of a transfer: it passes `payload_bytes`, and there is room for a lock in
it. -/
structure Tree.Reviewable (t : Tree) (K : Path) : Prop where
  dir : t.IsDir K
  stowed : ∃ b, t.stowed K = .ok b
  room : t.Room K
  short : t.ShortNames K

section
variable {w : Disk} {v : View} {key : String} {hk : keyName key = true}

/-- Removing a file next to the shards. -/
theorem does_removeName {name : String} (hn : NameOk name.utf8) (hlen : name.utf8.length ≤ 255)
    (hw : w.Shows v) (ht : w.temp = none) (hd : v key.utf8 = some Core.dir) {c : Core}
    (hc : v (join key.utf8 name.utf8) = some c) (hfile : c.1.type = .file) :
    Goes ((transferRoot key hk).remove name false) w fun _ w' => w'.temp = none ∧
      w'.Shows (v.without (· = join key.utf8 name.utf8)) := by
  have hne : c ≠ Core.dir := fun h => by
    rw [h] at hfile
    cases hfile
  have hr : Removable v ((transferRoot key hk).pathOf name) := by
    refine ⟨join_name_ne_nil hn, ?_, fun q => hw.leaf_of_file hc hne (join_name_ne_nil hn)⟩
    rw [dirName_name hn]
    exact hd
  refine (does_remove (takes_name hn hlen) hw hr hc (by simp [hne]) (by rw [ht]; simp) trivial
    trivial).imp ?_
  rintro _ w' ⟨hw', ht'⟩
  rw [View.update_none] at hw'
  exact ⟨ht'.trans ht, hw'⟩

/-- What a transfer has lost when only its directory is left: the payload, the record and the
lock. -/
def Emptied (K q : Path) : Prop :=
  (InPayload K q ∨ q = Tree.recordOf K) ∨ q = Tree.lockOf K

/-- All of it was in the directory. -/
theorem Emptied.below {K q : Path} (hK : K ≠ []) (h : Emptied K q) : Below q K ∧ q ≠ K := by
  rcases h with (h | rfl) | rfl
  · exact ⟨h.1, h.2.1⟩
  · exact ⟨SepPath.below_join_left hK, Tree.join_ne (by decide)⟩
  · exact ⟨SepPath.below_join_left hK, Tree.join_ne Tree.lock_name⟩

/-- A transfer that was emptied has nothing in its directory. -/
theorem View.emptied_none {K : Path} (hw : w.Shows v) {lock record : Core}
    (hlock : v (Tree.lockOf K) = some lock) (hlf : lock.1.type = .file)
    (hrecord : v (Tree.recordOf K) = some record) (hrf : record.1.type = .file) {q : Path}
    (hb : Below q K) (hq : q ≠ K) : v.without (Emptied K) q = none := by
  by_cases hgone : Emptied K q
  · exact View.without_of hgone
  · rw [View.without_of_not hgone]
    obtain ⟨hpayload, hl⟩ := not_or.mp hgone
    obtain ⟨hpayload, hr⟩ := not_or.mp hpayload
    -- What is neither payload nor one of the two files is below one of them, and they are no directories.
    by_cases hlb : Below q (Tree.lockOf K)
    · exact hw.none_below_file hlock (fun h => by rw [h] at hlf; cases hlf) hlb hl
    by_cases hrb : Below q (Tree.recordOf K)
    · exact hw.none_below_file hrecord (fun h => by rw [h] at hrf; cases hrf) hrb hr
    exact absurd ⟨hb, hq, hlb, hrb⟩ hpayload

/-- The end of the turn for a transfer that has expired. -/
theorem does_removeTransfer (hp : v.Payload key.utf8) (hw : w.Shows v) (ht : w.temp = none)
    {lock record : Core} (hlock : v (Tree.lockOf key.utf8) = some lock) (hlf : lock.1.type = .file)
    (hrecord : v (Tree.recordOf key.utf8) = some record) (hrf : record.1.type = .file) :
    Goes (do
      removePayload (transferRoot key hk)
      (transferRoot key hk).remove "activity" false
      (transferRoot key hk).remove "lock" false
      Root.opened.remove key true) w fun _ w' => w'.temp = none ∧
        w'.Shows (v.without fun q => Below q key.utf8) := by
  have hK := keyName_nameOk hk
  have hact : NameOk "activity".utf8 := by decide
  have hlname : NameOk "lock".utf8 := by decide
  have hkept : ∀ {n : Path}, n = "lock".utf8 ∨ n = "activity".utf8 →
      ¬ InPayload key.utf8 (join key.utf8 n) := by
    intro n hor h
    obtain ⟨h1, h2⟩ := lock_of_inPayload h
    exact hor.elim h1 h2
  have hself : ¬ InPayload key.utf8 key.utf8 := fun h => h.2.1 rfl
  have hne : Tree.lockOf key.utf8 ≠ Tree.recordOf key.utf8 := fun h =>
    absurd (SepPath.join_injective _ h) (by decide)
  refine Prog.Succeeds.bind (does_removePayload hp hw ht) ?_
  rintro _ w₁ ⟨ht₁, hw₁⟩
  -- The record goes before the lock.
  refine Prog.Succeeds.bind (does_removeName hact (by decide) hw₁ ht₁
    ((View.without_of_not hself).trans hp.dir)
    ((View.without_of_not (hkept (Or.inr rfl))).trans hrecord) hrf) ?_
  rintro _ w₂ ⟨ht₂, hw₂⟩
  rw [View.without_without] at hw₂
  refine Prog.Succeeds.bind (does_removeName hlname (by decide) hw₂ ht₂
    ((View.without_of_not (not_or.mpr ⟨hself, (Tree.join_ne hact).symm⟩)).trans hp.dir)
    ((View.without_of_not (not_or.mpr ⟨hkept (Or.inl rfl), hne⟩)).trans hlock) hlf) ?_
  rintro _ w₃ ⟨ht₃, hw₃⟩
  rw [View.without_without] at hw₃
  replace hw₃ : w₃.Shows (v.without (Emptied key.utf8)) := hw₃
  -- Now the directory is empty.
  have hempty : ∀ q, Below q key.utf8 → q ≠ key.utf8 → v.without (Emptied key.utf8) q = none :=
    fun q hb hq => View.emptied_none hw hlock hlf hrecord hrf hb hq
  have hdir : v.without (Emptied key.utf8) key.utf8 = some Core.dir :=
    (View.without_of_not fun h => (h.below hK.1).2 rfl).trans hp.dir
  have htakes : Root.opened.Takes key := Store.takes_opened hK (by rw [keyName_length hk]; omega)
  have hr : Removable (v.without (Emptied key.utf8)) (Root.opened.pathOf key) := by
    rw [opened_pathOf]
    refine removable_of_empty hK.1 ?_ hempty
    rw [Store.dirName_key hk]
    exact hw₃.isDir_nil
  refine (does_remove htakes hw₃ hr (by rw [opened_pathOf]; exact hdir) (by simp)
    (by rw [ht₃]; simp) trivial trivial).imp ?_
  rintro _ w₄ ⟨hw₄, ht₄⟩
  rw [opened_pathOf, View.update_empty hempty,
    View.without_absorb fun _ h => (h.below hK.1).1] at hw₄
  exact ⟨ht₄.trans ht₃, hw₄⟩

/-- The lock has a short name. -/
theorem Tree.ShortNames.relocked {t t' : Tree} {K : Path} (h : t.ShortNames K)
    (hr : t.Relocked t' K) : t'.ShortNames K := by
  intro q node hq hb
  rcases hr q with he | ⟨-, n, n', hn, hn', -⟩ | ⟨rfl, -⟩
  · exact h q node (he ▸ hq) hb
  · exact h q n hn hb
  · rw [lockOf, baseName_join_name lock_name]
    decide

/-- The same object has the same view. -/
theorem Tree.view_eq {t t' : Tree} {q : Path} (h : t'.get q = t.get q) : t'.view q = t.view q :=
  congrArg _ h

/-- What the turn for a transfer finds when it has opened the lock: the lock is a file in the directory,
and nothing else in the directory has changed. -/
structure Locked (key : String) (w w₁ : Disk) (lock : Core) : Prop where
  shows : w₁.Shows (Function.update w.tree.view (Tree.lockOf key.utf8) (some lock))
  temp : w₁.temp = none
  file : lock.1.type = .file
  relocked : w.tree.Relocked w₁.tree key.utf8

/-- A free lock is taken, and made when it was not there. -/
theorem does_lock (hcalm : ∀ k, w.env.fault k = false) (ht : w.temp = none)
    (hr : w.tree.Reviewable key.utf8) :
    Goes ((transferRoot key hk).lockState "lock" false) w fun _ w₁ => ∃ lock, Locked key w w₁ lock := by
  have hw : w.Shows w.tree.view := ⟨hcalm, rfl⟩
  have hlname : NameOk "lock".utf8 := by decide
  obtain ⟨b, hst⟩ := hr.stowed
  have hdir : w.tree.view (dirName ((transferRoot key hk).pathOf "lock")) = some Core.dir := by
    rw [dirName_name hlname]
    exact hw.isDir.mp hr.dir
  have hfile : ∀ x, w.tree.view ((transferRoot key hk).pathOf "lock") = some x → x.1.type = .file := by
    intro x hx
    obtain ⟨n, hn, rfl⟩ := hw.get hx
    exact Tree.lock_of_stowed hst hlname (by decide) hn
  have hlock := (@does_lockState _ _ (transferRoot key hk) _ false (takes_name hlname (by decide)) hw
    hdir hfile).moment fun w' hw' => relocked_lockState hw'
  refine hlock.imp ?_
  rintro _ w₁ ⟨⟨ht₁, lock, -, hfile, hw₁⟩, hre⟩
  exact ⟨lock, hw₁, ht₁.trans ht, hfile, hre⟩

namespace Locked

variable {w₁ : Disk} {lock : Core} {retention now last : Nat}

/-- The locked transfer is a directory. -/
theorem isDir (h : Locked key w w₁ lock) (hr : w.tree.Reviewable key.utf8) : w₁.tree.IsDir key.utf8 :=
  h.relocked.isDir hr.dir

/-- The lock has no part in the size of the payload. -/
theorem stowed (h : Locked key w w₁ lock) (hr : w.tree.Reviewable key.utf8) :
    ∃ b, w₁.tree.stowed key.utf8 = .ok b := by
  obtain ⟨b, hst⟩ := hr.stowed
  exact ⟨b, h.relocked.stowed hr.room hst⟩

/-- It passes `payload_bytes`, with its lock. -/
theorem payload (h : Locked key w w₁ lock) (hk : keyName key = true)
    (hr : w.tree.Reviewable key.utf8) :
    View.Payload (Function.update w.tree.view (Tree.lockOf key.utf8) (some lock)) key.utf8 := by
  obtain ⟨b, hst⟩ := h.stowed hr
  exact View.payload_of_stowed h.shows (keyName_nameOk hk) (h.isDir hr) (hr.short.relocked h.relocked)
    hst

/-- The lock is not in the payload. -/
theorem view_payload (h : Locked key w w₁ lock) {q : Path} (hq : InPayload key.utf8 q) :
    w₁.tree.view q = w.tree.view q := by
  have hne : q ≠ Tree.lockOf key.utf8 := fun he => hq.2.2.1 (he ▸ SepPath.Below.refl)
  exact Tree.view_eq (h.relocked.same hq.2.1 hne)

/-- Its record is as before. -/
theorem record (h : Locked key w w₁ lock) : w₁.tree.record? key.utf8 = w.tree.record? key.utf8 := by
  unfold Tree.record?
  rw [h.relocked.record]

/-- What is there as a record is a file. -/
theorem record_file (h : Locked key w w₁ lock) (hr : w.tree.Reviewable key.utf8) {n : Node}
    (hn : w₁.tree.get (Tree.recordOf key.utf8) = some n) : n.body.type = .file := by
  obtain ⟨b, hst⟩ := h.stowed hr
  exact Tree.lock_of_stowed hst (by decide) (by decide) hn

/-- A transfer without a record gets one. -/
theorem does_mark [Sha256] (h : Locked key w w₁ lock) (hr : w.tree.Reviewable key.utf8)
    (hlast : w.tree.record? key.utf8 = none) :
    Goes (writeActivity (transferRoot key hk) now) w₁ fun _ w' => w'.temp = none ∧
      (∀ k, w'.env.fault k = false) ∧ w.tree.Reviewed w'.tree key.utf8 retention now := by
  have hact : NameOk "activity".utf8 := by decide
  have hp := h.payload hk hr
  -- Without a record of the activity nothing expires.
  have hno : ¬ w.tree.Expires key.utf8 retention now := by
    rintro ⟨last, hsome, -⟩
    rw [hlast] at hsome
    cases hsome
  have hnotdir : Function.update w.tree.view (Tree.lockOf key.utf8) (some lock)
      ((transferRoot key hk).pathOf "activity") ≠ some Core.dir := by
    intro hdir
    obtain ⟨n, hn, hcore⟩ := h.shows.get hdir
    have hfile := h.record_file hr hn
    rw [Node.core_eq_dir.mp hcore] at hfile
    cases hfile
  refine (does_writeActivity h.shows hp.dir hnotdir).imp ?_
  rintro _ w₂ ⟨ht₂, time, hw₂⟩
  refine ⟨ht₂, hw₂.calm, fun hexp => absurd hexp hno, fun _ => ⟨?_, fun q hq => ?_, ?_, fun _ => ?_⟩⟩
  · rw [hw₂.isDir, Function.update_of_ne (Store.transferRoot_path_ne hact).symm]
    exact hp.dir
  -- The record is no part of the payload.
  · have hne : q ≠ (transferRoot key hk).pathOf "activity" := by
      rintro rfl
      exact hq.2.2.2 SepPath.Below.refl
    rw [hw₂.view, Function.update_of_ne hne, ← h.shows.view]
    exact h.view_payload hq
  · rw [hlast]
    intro hsome
    cases hsome
  · refine ⟨time, ?_⟩
    rw [hw₂.view]
    exact Function.update_self ..

/-- A transfer with a record that is not old enough is kept. -/
theorem reviewed (h : Locked key w w₁ lock) (hr : w.tree.Reviewable key.utf8)
    (hlast : w.tree.record? key.utf8 = some last) (hyoung : now < last ∨ now - last < retention) :
    w.tree.Reviewed w₁.tree key.utf8 retention now := by
  have hno : ¬ w.tree.Expires key.utf8 retention now := by
    rintro ⟨x, hx, h1, h2⟩
    obtain rfl := Option.some.inj (hlast.symm.trans hx)
    omega
  refine ⟨fun hexp => absurd hexp hno, fun _ => ⟨h.isDir hr, fun q hq => h.view_payload hq, ?_, ?_⟩⟩
  · intro _
    exact Tree.view_eq h.relocked.record
  · intro hnone
    rw [hlast] at hnone
    cases hnone

/-- A transfer with a record that is old enough is removed. -/
theorem does_expired (h : Locked key w w₁ lock) (hr : w.tree.Reviewable key.utf8)
    (hlast : w.tree.record? key.utf8 = some last) (hold : last ≤ now ∧ retention ≤ now - last) :
    Goes (do
      removePayload (transferRoot key hk)
      (transferRoot key hk).remove "activity" false
      (transferRoot key hk).remove "lock" false
      Root.opened.remove key true) w₁ fun _ w' => w'.temp = none ∧
        (∀ k, w'.env.fault k = false) ∧ w.tree.Reviewed w'.tree key.utf8 retention now := by
  have hexp : w.tree.Expires key.utf8 retention now := ⟨last, hlast, hold.1, hold.2⟩
  -- The record that was read is a file, which can be removed like the lock.
  obtain ⟨n, hn⟩ : ∃ n, w₁.tree.get (Tree.recordOf key.utf8) = some n := by
    rw [h.relocked.record]
    unfold Tree.record? at hlast
    obtain ⟨n, hn, -⟩ := Option.bind_eq_some_iff.mp hlast
    exact ⟨n, hn⟩
  have hrecord : Function.update w.tree.view (Tree.lockOf key.utf8) (some lock)
      (Tree.recordOf key.utf8) = some n.core := by
    rw [← h.shows.view]
    exact congrArg _ hn
  have hlock : Function.update w.tree.view (Tree.lockOf key.utf8) (some lock)
      (Tree.lockOf key.utf8) = some lock := Function.update_self ..
  refine (does_removeTransfer (h.payload hk hr) h.shows h.temp hlock h.file hrecord
    (h.record_file hr hn)).imp ?_
  rintro _ w₂ ⟨ht₂, hw₂⟩
  refine ⟨ht₂, hw₂.calm, fun _ q hq => ?_, fun hne => absurd hexp hne⟩
  exact hw₂.get_none (View.without_of (P := fun q => Below q key.utf8) hq)

end Locked

/-- One turn of `expire`, for a transfer other than the current one. -/
theorem does_expireEntry [Sha256] {c : String × Metadata} {current : String} {retention now : Nat}
    (hk : keyName c.1 = true) (hcur : c.1 ≠ current) (hdir : c.2.isDir = true)
    (hcalm : ∀ k, w.env.fault k = false) (ht : w.temp = none) (hr : w.tree.Reviewable c.1.utf8) :
    Goes (expireEntry .opened current retention now c) w fun _ w' => w'.temp = none ∧
      (∀ k, w'.env.fault k = false) ∧ w.tree.Reviewed w'.tree c.1.utf8 retention now := by
  have hskip : ¬ (c.1 = "cache.lock" || c.1 = current) = true := by
    have hne : c.1 ≠ "cache.lock" := fun h => by
      rw [h] at hk
      exact absurd hk (by decide)
    simp [hne, hcur]
  have hgood : ¬ (!keyName c.1 || !c.2.isDir) = true := by simp [hk, hdir]
  unfold expireEntry
  rw [if_neg hskip, if_neg hgood]
  refine Prog.Succeeds.bind (Q := fun root w' => transferRoot c.1 hk = root ∧ w = w')
    (Prog.succeeds_lift (subtree_key hk) ⟨rfl, rfl⟩) ?_
  rintro _ _ ⟨rfl, rfl⟩
  refine Prog.Succeeds.bind (does_lock hcalm ht hr) ?_
  rintro _ w₁ ⟨lock, hlocked⟩
  -- Reading the sizes and the record changes nothing.
  obtain ⟨b, hst⟩ := hlocked.stowed hr
  refine Prog.Succeeds.bind (goes_reads calls_payloadBytes
    ((run_payloadBytes (hlocked.isDir hr)).trans hst)) ?_
  rintro _ _ ⟨rfl, rfl⟩
  refine Prog.Succeeds.bind (goes_reads calls_readActivity ((run_readActivity (hlocked.isDir hr)
    fun n hn => hlocked.record_file hr hn).trans (congrArg _ hlocked.record))) ?_
  rintro _ _ ⟨rfl, rfl⟩
  cases hlast : w.tree.record? c.1.utf8 with
  | none => exact hlocked.does_mark hr hlast
  | some last =>
    by_cases hyoung : (now < last || now - last < retention) = true
    · show Goes (if (now < last || now - last < retention) = true then pure () else _) w₁ _
      rw [if_pos hyoung]
      simp only [Bool.or_eq_true, decide_eq_true_eq] at hyoung
      exact Prog.succeeds_pure ⟨hlocked.temp, hlocked.shows.calm, hlocked.reviewed hr hlast hyoung⟩
    · show Goes (if (now < last || now - last < retention) = true then pure () else _) w₁ _
      rw [if_neg hyoung]
      simp only [Bool.or_eq_true, decide_eq_true_eq] at hyoung
      exact hlocked.does_expired hr hlast (by omega)

end

/-! ### The loop -/

section
variable {w : Disk} {t t' u u' : Tree} {K : Path} {current : String} {retention now : Nat}

/-- Whether a transfer can be reviewed depends on its own content. -/
theorem Tree.Reviewable.congr (h : t.Reviewable K) (hK : NameOk K) (he : t.under K = u.under K) :
    u.Reviewable K := by
  have hget : ∀ q, Below q K → t.get q = u.get q := fun q hb => get_congr he hb
  refine ⟨?_, ?_, ?_, fun q node hq hb => h.short q node ((hget q hb).trans hq) hb⟩
  · obtain ⟨n, hn, hb⟩ := h.dir
    exact ⟨n, (hget K SepPath.Below.refl).symm.trans hn, hb⟩
  · obtain ⟨b, hb⟩ := h.stowed
    exact ⟨b, (stowed_congr hK he).symm.trans hb⟩
  · unfold Room
    rw [← hget (lockOf K) (SepPath.below_join_left hK.1), ← listing_congr hK he SepPath.Below.refl]
    exact h.room

/-- What has become of a transfer is known from the objects in its directory. -/
theorem Tree.Reviewed.congr (h : t.Reviewed t' K retention now) (hK : NameOk K)
    (he : t.under K = u.under K) (he' : t'.under K = u'.under K) :
    u.Reviewed u' K retention now := by
  -- All that the review speaks of lies at or below the directory of the transfer.
  have hrec : t.record? K = u.record? K := record_congr hK he
  have hview : ∀ q, Below q K → t.view q = u.view q := fun q hb => view_eq (get_congr he hb)
  have hview' : ∀ q, Below q K → t'.view q = u'.view q := fun q hb => view_eq (get_congr he' hb)
  have hrecord : Below (recordOf K) K := SepPath.below_join_left hK.1
  have hexp : u.Expires K retention now ↔ t.Expires K retention now := by
    unfold Expires
    rw [hrec]
  refine ⟨fun hx q hb => ?_, fun hx => ?_⟩
  · exact (get_congr he' hb).symm.trans (h.expired (hexp.mp hx) q hb)
  · obtain ⟨hdir, hpay, hold, hnew⟩ := h.retained (mt hexp.mpr hx)
    refine ⟨?_, fun q hq => ?_, fun hs => ?_, fun hn => ?_⟩
    · rw [Tree.isDir_iff, ← hview' K SepPath.Below.refl]
      exact Tree.isDir_iff.mp hdir
    · rw [← hview' q hq.1, ← hview q hq.1]
      exact hpay q hq
    · rw [← hview' _ hrecord, ← hview _ hrecord]
      exact hold (hrec ▸ hs)
    · rw [← hview' _ hrecord]
      exact hnew (hrec.trans hn)

/-- A turn of the loop works in the directory of its transfer. -/
theorem own_expireEntry [Sha256] {c : String × Metadata} (hK : NameOk c.1.utf8) :
    Calls (FsCall.Own true c.1.utf8) (expireEntry .opened current retention now c) := by
  refine calls_ite trivial ?_
  by_cases hk : keyName c.1 = true
  · refine calls_check_bind ?_
    rw [subtree_key hk]
    show Calls _ ((transferRoot c.1 hk).lockState "lock" false >>= _)
    have hbase : (transferRoot c.1 hk).base.utf8 = c.1.utf8 := rfl
    refine Prog.issues_bind (own_lockState (below_own hbase hK _)) fun _ =>
      Prog.issues_bind (own_payloadBytes hbase hK) fun _ =>
      Prog.issues_bind (own_readActivity hbase hK) fun last => ?_
    -- Without a record one is written. With one the transfer is removed when its time is over.
    cases last with
    | none => exact own_writeActivity hbase hK
    | some last =>
      refine calls_ite trivial (Prog.issues_bind (own_removePayload hbase hK) fun _ =>
        Prog.issues_bind (own_remove hK (below_own hbase hK _)) fun _ =>
        Prog.issues_bind (own_remove hK (below_own hbase hK _)) fun _ => own_remove hK ?_)
      rw [opened_pathOf]
      exact SepPath.Below.refl
  · have hbad : (!keyName c.1 || !c.2.isDir) = true := by simp [hk]
    rw [if_pos hbad]
    trivial

/-- What `expire` needs of the cache directory: it can be listed, and holds the lock of the cache
and transfers. The current transfer may be anything. -/
structure Tree.CacheDir (t : Tree) (current : String) : Prop where
  listed : ∃ out, t.listing [] = .ok out
  entry : ∀ name : String, NameOk name.utf8 → (t.get name.utf8).isSome →
    name = "cache.lock" ∨ name = current ∨ keyName name = true ∧ t.Reviewable name.utf8

/-- The path of the cache directory itself. -/
theorem full_opened : Root.opened.full "" = .ok (Root.opened.joined "") :=
  Root.full_base (by decide)

/-- The cache directory is listed without a change. -/
theorem goes_listing {out : List (String × Metadata)} (hout : w.tree.listing [] = .ok out) :
    Goes (Root.opened.children "") w fun out' w' => out = out' ∧ w = w' := by
  refine goes_reads calls_children ?_
  have hroot : w.tree.openDir (Root.opened.pathOf "") = .ok () := by
    rw [opened_pathOf]
    exact Tree.openDir_ok.mpr Tree.isDir_root
  rw [run_children full_opened, hroot, opened_pathOf]
  exact hout

/-- What holds when the turns for `pre` are over: those transfers are reviewed, and the others are as
they were. -/
structure Turned (w : Disk) (current : String) (retention now : Nat)
    (pre : List (String × Metadata)) (w' : Disk) : Prop where
  temp : w'.temp = none
  calm : ∀ k, w'.env.fault k = false
  done : ∀ c ∈ pre, c.1 ≠ "cache.lock" → c.1 ≠ current →
    w.tree.Reviewed w'.tree c.1.utf8 retention now
  other : ∀ L, NameOk L → (∀ c ∈ pre, c.1 ≠ "cache.lock" → c.1 ≠ current → c.1.utf8 ≠ L) →
    w'.tree.under L = w.tree.under L

section
variable {pre : List (String × Metadata)} {c : String × Metadata} {w₁ w₂ : Disk}

/-- The lock of the cache and the current transfer have no turn. -/
theorem Turned.skip (h : Turned w current retention now pre w₁)
    (hno : c.1 = "cache.lock" ∨ c.1 = current) :
    Turned w current retention now (pre ++ [c]) w₁ := by
  refine ⟨h.temp, h.calm, fun x hx h1 h2 => ?_, fun L hL hne => ?_⟩
  · rcases List.mem_append.mp hx with hx | hx
    · exact h.done x hx h1 h2
    · obtain rfl := List.mem_singleton.mp hx
      exact absurd hno (not_or.mpr ⟨h1, h2⟩)
  · exact h.other L hL fun x hx => hne x (List.mem_append_left _ hx)

/-- A turn works in its own transfer: it finds that one as it was, and leaves the others. -/
theorem Turned.turn (h : Turned w current retention now pre w₁)
    (hnames : ∀ x ∈ pre, NameOk x.1.utf8) (hname : NameOk c.1.utf8)
    (hbefore : ∀ x ∈ pre, x.1.utf8 ≠ c.1.utf8) (hyes : c.1 ≠ "cache.lock" ∧ c.1 ≠ current)
    (ht : w₂.temp = none) (hcalm : ∀ k, w₂.env.fault k = false)
    (hreviewed : w₁.tree.Reviewed w₂.tree c.1.utf8 retention now)
    (hframe : ∀ L, NameOk L → c.1.utf8 ≠ L → w₂.tree.under L = w₁.tree.under L) :
    Turned w current retention now (pre ++ [c]) w₂ := by
  refine ⟨ht, hcalm, fun x hx h1 h2 => ?_, fun L hL hne => ?_⟩
  · rcases List.mem_append.mp hx with hx | hx
    · exact (h.done x hx h1 h2).congr (hnames x hx) rfl
        (hframe _ (hnames x hx) (hbefore x hx).symm).symm
    · obtain rfl := List.mem_singleton.mp hx
      exact hreviewed.congr hname (h.other _ hname fun y hy _ _ => hbefore y hy) rfl
  · exact (hframe L hL (hne c (by simp) hyes.1 hyes.2)).trans
      (h.other L hL fun x hx => hne x (List.mem_append_left _ hx))

/-- The turn for one entry of the cache directory. -/
theorem Turned.step [Sha256] (h : Turned w current retention now pre w₁)
    (hnames : ∀ x ∈ pre, NameOk x.1.utf8) (hname : NameOk c.1.utf8)
    (hbefore : ∀ x ∈ pre, x.1.utf8 ≠ c.1.utf8)
    (htransfer : c.1 ≠ "cache.lock" → c.1 ≠ current →
      keyName c.1 = true ∧ c.2.isDir = true ∧ w.tree.Reviewable c.1.utf8) :
    Goes (expireEntry .opened current retention now c) w₁ fun _ w₂ =>
      Turned w current retention now (pre ++ [c]) w₂ := by
  by_cases hskip : (c.1 = "cache.lock" || c.1 = current) = true
  · unfold expireEntry
    rw [if_pos hskip]
    exact Prog.succeeds_pure (h.skip (by simpa using hskip))
  · have hyes : c.1 ≠ "cache.lock" ∧ c.1 ≠ current := by simpa using hskip
    obtain ⟨hk, hdir, hr⟩ := htransfer hyes.1 hyes.2
    have hunder := h.other c.1.utf8 hname fun x hx _ _ => hbefore x hx
    have hturn := (@does_expireEntry _ _ c _ retention now hk hyes.2 hdir h.calm h.temp
      (hr.congr hname hunder.symm)).moment
      (J := fun w₂ => ∀ L, NameOk L → c.1.utf8 ≠ L → w₂.tree.under L = w₁.tree.under L)
      fun w₂ hw₂ L hL hne => under_of_own hname hL hne (own_expireEntry hname) hw₂
    refine hturn.imp ?_
    rintro _ w₂ ⟨⟨ht, hcalm, hreviewed⟩, hframe⟩
    exact h.turn hnames hname hbefore hyes ht hcalm hreviewed hframe

end

/-- The whole loop reviews every transfer but the current one, and leaves that one and the lock
alone. -/
theorem does_expire [Sha256] (hcalm : ∀ k, w.env.fault k = false) (ht : w.temp = none)
    (hc : w.tree.CacheDir current) :
    Goes (expire .opened current retention now) w fun _ w' => w'.temp = none ∧
      (∀ k, w'.env.fault k = false) ∧
      (∀ name : String, keyName name = true → name ≠ current → w.tree.IsDir name.utf8 →
        w.tree.Reviewed w'.tree name.utf8 retention now) ∧
      ∀ L, NameOk L → L = current.utf8 ∨ L = "cache.lock".utf8 →
        w'.tree.under L = w.tree.under L := by
  obtain ⟨out, hout⟩ := hc.listed
  obtain ⟨hthere, hlisted, hnodup⟩ := Tree.children_of_listing hout
  have hnil : ∀ n, join [] n = n := fun _ => SepPath.join_nil_left
  have htransfer : ∀ c ∈ out, c.1 ≠ "cache.lock" → c.1 ≠ current →
      keyName c.1 = true ∧ c.2.isDir = true ∧ w.tree.Reviewable c.1.utf8 := by
    intro c hcm h1 h2
    obtain ⟨hname, node, hnode, hmeta⟩ := hthere c hcm
    rw [hnil] at hnode
    rcases hc.entry c.1 hname (by rw [hnode]; rfl) with h | h | ⟨hk, hr⟩
    · exact absurd h h1
    · exact absurd h h2
    · obtain ⟨m, hm, hb⟩ := hr.dir
      obtain rfl := Option.some.inj (hm.symm.trans hnode)
      exact ⟨hk, hmeta ▸ isDir_metadata.mpr hb, hr⟩
  unfold expire
  refine Prog.Succeeds.bind (goes_listing hout) ?_
  rintro _ _ ⟨rfl, rfl⟩
  refine Prog.succeeds_forM (Turned w current retention now)
    ⟨ht, hcalm, fun c hcm => absurd hcm List.not_mem_nil, fun _ _ _ => rfl⟩ ?_ ?_
  · rintro pre c post w₁ hpre h
    have hcm : c ∈ out := by simp [hpre]
    have hnames : ∀ x ∈ pre, NameOk x.1.utf8 := fun x hx => (hthere x (by simp [hpre, hx])).1
    -- No name is listed twice.
    have hbefore : ∀ x ∈ pre, x.1.utf8 ≠ c.1.utf8 := by
      rw [hpre] at hnodup
      intro x hx he
      exact (List.pairwise_append.mp hnodup).2.2 x hx c List.mem_cons_self
        (String.utf8_injective he)
    exact h.step hnames (hthere c hcm).1 hbefore (htransfer c hcm)
  · intro w' h
    refine ⟨h.temp, h.calm, fun name hk hcur hd => ?_, fun L hL hor => h.other L hL ?_⟩
    · obtain ⟨node, hnode, -⟩ := hd
      obtain ⟨c, hcm, hcn, -⟩ := hlisted name.utf8 node (keyName_nameOk hk) (by rwa [hnil])
      obtain rfl := String.utf8_injective hcn
      refine h.done c hcm (fun heq => ?_) hcur
      rw [heq] at hk
      exact absurd hk (by decide)
    · rintro c - h1 h2 rfl
      rcases hor with heq | heq
      · exact h2 (String.utf8_injective heq)
      · exact h1 (String.utf8_injective heq)

end

/-! ### Something unexpected -/

/-- Every object of the directory is still there. Only the times of `K` itself may be new. -/
def Tree.Keeps (t t' : Tree) (K : Path) : Prop := ∀ q node, Below q K → t.get q = some node →
  ∃ node', t'.get q = some node' ∧ node'.body = node.body ∧ (q ≠ K → node' = node)

section
variable {w : Disk} {t t' : Tree} {K : Path} {current : String} {retention now : Nat}

/-- A lock that is made loses nothing. -/
theorem Tree.Relocked.keeps (h : t.Relocked t' K) : t.Keeps t' K := by
  intro q node hb hq
  rcases h q with he | ⟨hK, n, n', hn, hn', hbody⟩ | ⟨-, hnone, -⟩
  · exact ⟨node, he.trans hq, rfl, fun _ => rfl⟩
  · obtain rfl := Option.some.inj (hq.symm.trans hn)
    exact ⟨n', hn', hbody, fun hne => absurd hK hne⟩
  · rw [hnone] at hq
    cases hq

/-- What a directory keeps depends on its own content. -/
theorem Tree.Keeps.of_under {u : Tree} (he : u.under K = t.under K) (h : t.Keeps t' K) :
    u.Keeps t' K := fun q node hb hq => h q node hb ((get_congr he hb).symm.trans hq)

/-- A directory that did not change keeps everything. -/
theorem Tree.keeps_of_under (h : t'.under K = t.under K) : t.Keeps t' K := fun _ node hb hq =>
  ⟨node, (get_congr h hb).trans hq, rfl, fun _ => rfl⟩

/-- The turn for a transfer that does not pass `payload_bytes` opens the lock and fails. -/
theorem spec_expireEntry [Sha256] {c : String × Metadata} (hk : keyName c.1 = true)
    (hcur : c.1 ≠ current) (hdir : w.tree.IsDir c.1.utf8)
    (hst : ∀ b, w.tree.stowed c.1.utf8 ≠ .ok b) :
    Prog.Spec exec (fun w' => w.tree.Keeps w'.tree c.1.utf8)
      (expireEntry .opened current retention now c) w fun r w' => (∃ e, r = .error e) ∧
        w.tree.Keeps w'.tree c.1.utf8 := by
  have hkeeps : w.tree.Keeps w.tree c.1.utf8 := Tree.keeps_of_under rfl
  have hskip : ¬ (c.1 = "cache.lock" || c.1 = current) = true := by
    have hne : c.1 ≠ "cache.lock" := fun h => by
      rw [h] at hk
      exact absurd hk (by decide)
    simp [hne, hcur]
  unfold expireEntry
  rw [if_neg hskip]
  by_cases hgood : (!keyName c.1 || !c.2.isDir) = true
  · rw [if_pos hgood]
    exact ⟨⟨_, rfl⟩, hkeeps⟩
  rw [if_neg hgood, subtree_key hk]
  have hlock : Prog.Spec exec (fun w' => w.tree.Relocked w'.tree c.1.utf8)
      ((transferRoot c.1 hk).lockState "lock" false) w
      fun _ w' => w.tree.Relocked w'.tree c.1.utf8 :=
    Prog.spec_of_run (fun _ hw' => relocked_lockState hw')
      (relocked_lockState (Prog.moment_run _ _ _))
  show Prog.Spec _ _ ((transferRoot c.1 hk).lockState "lock" false >>= _) w _
  rw [Prog.spec_bind]
  refine hlock.mono (fun _ h => h.keeps) ?_
  rintro (e | u) w₁ hre
  · exact ⟨⟨_, rfl⟩, hre.keeps⟩
  · rw [Prog.andThen_ok, Prog.spec_bind]
    refine (quiet_of_reads calls_payloadBytes).spec hre.keeps ?_
    rw [run_payloadBytes (hre.isDir hdir)]
    -- The lock has not made the transfer acceptable.
    cases hx : w₁.tree.stowed c.1.utf8 with
    | error e => exact ⟨⟨_, rfl⟩, hre.keeps⟩
    | ok b => exact absurd (hre.not_stowed hx) (hst b)

/-- A transfer with something unexpected in it stops `expire`, and keeps what it has. -/
theorem spec_expire_unexpected [Sha256] {key : String} (hk : keyName key = true)
    (hcur : key ≠ current) (hdir : w.tree.IsDir key.utf8)
    (hst : ∀ b, w.tree.stowed key.utf8 ≠ .ok b) :
    Prog.Spec exec (fun w' => w.tree.Keeps w'.tree key.utf8)
      (expire .opened current retention now) w fun r w' => (∃ e, r = .error e) ∧
        w.tree.Keeps w'.tree key.utf8 := by
  have hK := keyName_nameOk hk
  have hkeeps : w.tree.Keeps w.tree key.utf8 := Tree.keeps_of_under rfl
  unfold expire
  rw [Prog.spec_bind]
  refine (quiet_of_reads calls_children).spec hkeeps ?_
  cases hout : ((Root.opened.children "").run exec w).1 with
  | error e => exact ⟨⟨_, rfl⟩, hkeeps⟩
  | ok out =>
  rw [Prog.andThen_ok]
  obtain ⟨-, -, hthere, hlisted, hnodup⟩ := children_ok hout
  rw [opened_pathOf] at hthere hlisted
  obtain ⟨node, hnode, hbody⟩ := hdir
  obtain ⟨x, hx, hxn, -⟩ := hlisted key.utf8 node hK
    ((congrArg w.tree.get SepPath.join_nil_left).trans hnode)
  obtain rfl := String.utf8_injective hxn
  -- Until the turn of the transfer nothing in it changes.
  refine Prog.spec_forM (fun pre w' => w'.tree.under x.1.utf8 = w.tree.under x.1.utf8 ∧
    ∀ c ∈ pre, c.1 ≠ x.1) ⟨rfl, fun c hc => absurd hc List.not_mem_nil⟩ ?_ ?_
  · rintro pre c post w₁ hpre ⟨hunder, hbefore⟩
    by_cases hc : c.1 = x.1
    · rw [← hc] at hk hcur hst hunder hnode ⊢
      have hdir₁ : w₁.tree.IsDir c.1.utf8 :=
        ⟨node, (Tree.get_congr hunder SepPath.Below.refl).trans hnode, hbody⟩
      have hst₁ : ∀ b, w₁.tree.stowed c.1.utf8 ≠ .ok b := fun b hb =>
        hst b ((Tree.stowed_congr (keyName_nameOk hk) hunder).symm.trans hb)
      refine (spec_expireEntry hk hcur hdir₁ hst₁).mono
        (fun _ h => Tree.Keeps.of_under hunder.symm h) ?_
      rintro _ w₂ ⟨⟨e, rfl⟩, h⟩
      exact ⟨⟨e, rfl⟩, Tree.Keeps.of_under hunder.symm h⟩
    · have hname := (hthere c (by simp [hpre])).1
      have hne : c.1.utf8 ≠ x.1.utf8 := fun he => hc (String.utf8_injective he)
      have hframe : ∀ w₂, (expireEntry .opened current retention now c).Moment exec w₁ w₂ →
          w₂.tree.under x.1.utf8 = w.tree.under x.1.utf8 := fun w₂ hw₂ =>
        (under_of_own hname hK hne (own_expireEntry hname) hw₂).trans hunder
      refine Prog.spec_of_run (fun w₂ hw₂ => Tree.keeps_of_under (hframe w₂ hw₂)) ?_
      have hend := hframe _ (Prog.moment_run _ _ _)
      cases ((expireEntry .opened current retention now c).run exec w₁).1 with
      | error e => exact ⟨⟨e, rfl⟩, Tree.keeps_of_under hend⟩
      | ok u =>
        refine ⟨hend, fun y hy => ?_⟩
        rcases List.mem_append.mp hy with hy | hy
        · exact hbefore y hy
        · obtain rfl := List.mem_singleton.mp hy
          exact hc
  · rintro w₁ ⟨-, hbefore⟩
    exact absurd rfl (hbefore x hx)

end

/-! ### The result -/

/-- On a disk on which no call fails, `expire` removes exactly the transfers that have expired,
and keeps the files of the others. Of the current transfer and the lock of the cache it changes
nothing. A transfer with something unexpected in it stops it, whatever the calls return, and keeps
what it has. -/
theorem expire_exact [Sha256] (w : Disk) (current : String) (retention now : Nat) :
    ((∀ k, w.env.fault k = false) → w.temp = none → w.tree.CacheDir current →
      ∃ w', (expire .opened current retention now).run exec w = (.ok ⟨⟩, w') ∧
        (∀ key : String, keyName key = true → key ≠ current → w.tree.IsDir key.utf8 →
          w.tree.Reviewed w'.tree key.utf8 retention now) ∧
        ∀ L, NameOk L → L = current.utf8 ∨ L = "cache.lock".utf8 →
          w'.tree.under L = w.tree.under L) ∧
    ∀ key : String, keyName key = true → key ≠ current → w.tree.IsDir key.utf8 →
      (∀ b, w.tree.stowed key.utf8 ≠ .ok b) →
      ∃ e w', (expire .opened current retention now).run exec w = (.error e, w') ∧
        w.tree.Keeps w'.tree key.utf8 := by
  refine ⟨fun hcalm ht hc => ?_, fun key hk hcur hdir hst => ?_⟩
  · obtain ⟨⟨⟩, w', hrun, -, -, hreviewed, hother⟩ := (does_expire hcalm ht hc).run
    exact ⟨w', hrun, hreviewed, hother⟩
  · obtain ⟨⟨e, he⟩, hkeeps⟩ :=
      (@spec_expire_unexpected _ _ retention now _ _ hk hcur hdir hst).run
    exact ⟨e, _, Prod.ext he rfl, hkeeps⟩

/-- The name of a transfer. -/
def smallTransfer : String := "0000000000000000000000000000000000000000000000000000000000000000"

/-- It is one. -/
theorem keyName_small : keyName smallTransfer = true := by decide

/-- A cache with one transfer and nothing in it. -/
def freshDisk : Disk := (exec (.mkdir [] smallTransfer.utf8) .empty).2

/-- The transfer has the record of second 0. -/
def expiredDisk : Disk :=
  ((@writeActivity emptySha (transferRoot smallTransfer keyName_small) 0).run exec freshDisk).2

/-- The transfer has a directory in it that is no shard. -/
def spoiledDisk : Disk := (exec (.mkdir smallTransfer.utf8 "x".utf8) freshDisk).2

/-- The names of a tree are known from its nodes. -/
theorem Tree.shortNames_of_keys {t : Tree} {K : Path}
    (h : ∀ q ∈ t.nodes.keys, (baseName q).length ≤ 255) : t.ShortNames K := fun q _ hq _ =>
  h q (mem_keys.mpr ⟨_, hq⟩)

/-- What a listing has, from its names. -/
theorem Tree.listing_of_names {t : Tree} {d : Path} {names : List String}
    (h : (t.listing d).map (List.map Prod.fst) = .ok names) :
    ∃ out, t.listing d = .ok out ∧ out.map Prod.fst = names := by
  cases hl : t.listing d with
  | error e =>
    rw [hl] at h
    cases h
  | ok out =>
    rw [hl] at h
    exact ⟨out, rfl, Except.ok.inj h⟩

/-- A run without a value ends in an error. -/
theorem run_error_of_toOption {m : FsM PUnit} {w : Disk}
    (h : (m.run exec w).1.toOption = none) : ∃ e w', m.run exec w = (.error e, w') := by
  cases hm : (m.run exec w).1 with
  | error e => exact ⟨e, _, Prod.ext hm rfl⟩
  | ok u =>
    rw [hm] at h
    cases h

/-- A run with a value returns it. -/
theorem run_ok_of_toOption {m : FsM PUnit} {w : Disk} {u : PUnit}
    (h : (m.run exec w).1.toOption = some u) : ∃ w', m.run exec w = (.ok u, w') := by
  cases hm : (m.run exec w).1 with
  | error e =>
    rw [hm] at h
    cases h
  | ok u' => exact ⟨_, Prod.ext hm rfl⟩

/-- The small cache directory is one. -/
theorem expiredDisk_cacheDir : expiredDisk.tree.CacheDir "" := by
  obtain ⟨out, hout, hnames⟩ := @Tree.listing_of_names expiredDisk.tree [] [smallTransfer] (by decide +kernel)
  refine ⟨⟨out, hout⟩, fun name hname hsome => ?_⟩
  obtain ⟨node, hnode⟩ := Option.isSome_iff_exists.mp hsome
  obtain ⟨c, hc, hcn, -⟩ := (Tree.children_of_listing hout).listed name.utf8 node hname
    ((congrArg expiredDisk.tree.get SepPath.join_nil_left).trans hnode)
  -- There is only one object in the cache directory.
  have hmem : c.1 ∈ [smallTransfer] := hnames ▸ List.mem_map_of_mem hc
  obtain rfl : name = smallTransfer :=
    (String.utf8_injective hcn).symm.trans (List.mem_singleton.mp hmem)
  refine Or.inr (Or.inr ⟨keyName_small, ?_, ⟨0, by decide +kernel⟩, ?_, ?_⟩)
  · decide +kernel
  · right
    intro children hchildren
    obtain ⟨out', hout', hnames'⟩ := @Tree.listing_of_names expiredDisk.tree
      smallTransfer.utf8 ["activity"] (by decide +kernel)
    obtain rfl := Except.ok.inj (hchildren.symm.trans hout')
    have hlen := congrArg List.length hnames'
    rw [List.length_map] at hlen
    rw [hlen]
    decide
  · exact Tree.shortNames_of_keys (by decide +kernel)

/-- An old transfer goes away; with something strange in it, it stays as it is. -/
theorem expire_exact_small : ∃ w',
    (@expire emptySha .opened "" 1 1).run exec expiredDisk = (.ok ⟨⟩, w') ∧
      w'.tree.get smallTransfer.utf8 = none ∧
      ∃ e w', (@expire emptySha .opened "" 1 1).run exec spoiledDisk = (.error e, w') ∧
        spoiledDisk.tree.Keeps w'.tree smallTransfer.utf8 := by
  obtain ⟨w', hrun, hreviewed, -⟩ := (@expire_exact emptySha expiredDisk "" 1 1).1 (fun _ => rfl)
    rfl expiredDisk_cacheDir
  have hdir : expiredDisk.tree.IsDir smallTransfer.utf8 :=
    by decide +kernel
  refine ⟨w', hrun, ?_, ?_⟩
  · exact (hreviewed smallTransfer keyName_small (by decide) hdir).expired
      ⟨0, by decide +kernel, by decide, by decide⟩ _ SepPath.Below.refl
  · refine (@expire_exact emptySha spoiledDisk "" 1 1).2 smallTransfer keyName_small (by decide)
      (by decide +kernel) fun b hb => ?_
    have herr : (spoiledDisk.tree.stowed smallTransfer.utf8).toOption = none := by decide +kernel
    rw [hb] at herr
    cases herr

/-- A file that is no transfer stops `expire` although no transfer is at fault, and the current
transfer gets no record. -/
theorem expire_stray : (∃ w : Disk, (∀ k, w.env.fault k = false) ∧ w.temp = none ∧
      (∀ key : String, keyName key = true → ¬ w.tree.IsDir key.utf8) ∧
      ∃ e w', (@expire emptySha .opened "" 1 1).run exec w = (.error e, w')) ∧
    freshDisk.tree.record? smallTransfer.utf8 = none ∧
    ∃ w', (@expire emptySha .opened smallTransfer 1 1).run exec freshDisk = (.ok ⟨⟩, w') ∧
      w'.tree.IsDir smallTransfer.utf8 ∧ w'.tree.record? smallTransfer.utf8 = none := by
  refine ⟨⟨(exec (.openLock "x".utf8) .empty).2, fun _ => rfl, rfl, fun key hk hdir => ?_, ?_⟩,
    by decide +kernel, ?_⟩
  -- All paths of this disk are shorter than a key.
  · obtain ⟨node, hnode, hb⟩ := hdir
    have hmem := Tree.mem_keys.mpr ⟨node, hnode⟩
    have hshort : ∀ q ∈ (exec (.openLock "x".utf8) .empty).2.tree.nodes.keys, q.length ≤ 1 := by
      decide +kernel
    have hlen := hshort _ hmem
    rw [keyName_length hk] at hlen
    omega
  · exact run_error_of_toOption (by decide +kernel)
  · obtain ⟨w', hrun⟩ : ∃ w', (@expire emptySha .opened smallTransfer 1 1).run exec freshDisk
        = (.ok ⟨⟩, w') := run_ok_of_toOption (by decide +kernel)
    have hw' : w' = ((@expire emptySha .opened smallTransfer 1 1).run exec freshDisk).2 := by
      rw [hrun]
    exact ⟨w', hrun, hw' ▸ by decide +kernel, hw' ▸ by decide +kernel⟩

end RrSync

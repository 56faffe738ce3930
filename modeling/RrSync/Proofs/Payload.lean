import RrSync.Proofs.Apart
import RrSync.Proofs.Serving

/-!
# `RrSync.Proofs.Payload`: what `payload_bytes` accepts

`payloadBytes` only looks, so its result is a function of the tree (`run_payloadBytes`).
`Stowed` is what it accepts: locks, records and staged files, and shards with chunks of their
own number and staged files.
-/

set_option autoImplicit false

namespace RrSync

open Lib

-- Else a path is evaluated as far as its number allows whenever a program is matched.
attribute [local irreducible] hex8 chunkString

/-! ### The listing of a directory -/

/-- What is collected is within the limit. -/
theorem collect_length {xs : List ({n : Path // NameOk n} × Metadata)}
    {out r : List (String × Metadata)} (hout : out.length ≤ maxEntries)
    (h : Root.collect xs out = .ok r) : r.length ≤ maxEntries := by
  induction xs generalizing out with
  | nil =>
    obtain rfl := pure_eq_ok.mp h
    exact hout
  | cons x xs ih =>
    unfold Root.collect at h
    split at h
    · cases h
    · simp only [ite_throw_eq_ok] at h
      exact ih (Nat.not_lt.mp h.1) h.2

namespace Tree

variable {t t' : Tree} {d K : Path}

/-- What `children` lists of a directory. -/
def listing (t : Tree) (d : Path) : Except Error (List (String × Metadata)) := do
  let out ← Root.collect (t.entries d) []
  pure (out.insertionSort fun a b => a.1.utf8 ≤ b.1.utf8)

/-- A listing has the children of the directory. -/
theorem children_of_listing {out : List (String × Metadata)} (h : t.listing d = .ok out) :
    Children t d out := by
  simp only [listing, bind_eq_ok, pure_eq_ok] at h
  obtain ⟨ys, hys, rfl⟩ := h
  obtain ⟨zs, rfl, hzs⟩ := collect_ok hys
  exact children_of_collect hzs

/-- It is in the order of the bytes. -/
theorem listing_sorted {out : List (String × Metadata)} (h : t.listing d = .ok out) :
    out.Pairwise fun a b => a.1.utf8 ≤ b.1.utf8 := by
  simp only [listing, bind_eq_ok, pure_eq_ok] at h
  obtain ⟨ys, -, rfl⟩ := h
  exact List.pairwise_insertionSort _ _

/-- It is not too long. -/
theorem listing_length {out : List (String × Metadata)} (h : t.listing d = .ok out) :
    out.length ≤ maxEntries := by
  simp only [listing, bind_eq_ok, pure_eq_ok] at h
  obtain ⟨ys, hys, rfl⟩ := h
  rw [List.length_insertionSort]
  exact collect_length (Nat.zero_le _) hys

/-- A directory with few objects, all with UTF-8 names, can be listed. -/
theorem listing_of_few (hnames : ∀ n, NameOk n → (t.get (join d n)).isSome →
      ∃ s : String, s.utf8 = n)
    (hfew : ∀ ns : List Path, ns.Nodup → (∀ n ∈ ns, NameOk n ∧ (t.get (join d n)).isSome) →
      ns.length ≤ maxEntries) : ∃ out, t.listing d = .ok out := by
  have hthere : ∀ x ∈ t.entries d, (t.get (join d x.1.1)).isSome := by
    intro x hx
    obtain ⟨node, hnode, -⟩ := mem_entries.mp hx
    rw [hnode]
    rfl
  have hlen := hfew ((t.entries d).map fun x => x.1.1) (List.pairwise_map.mpr entries_nodup)
    fun n hn => by
      obtain ⟨x, hx, rfl⟩ := List.mem_map.mp hn
      exact ⟨x.1.2, hthere x hx⟩
  rw [List.length_map] at hlen
  obtain ⟨r, hr⟩ := collect_succeeds [] (fun x hx => hnames _ x.1.2 (hthere x hx)) (by simpa using hlen)
  refine ⟨r.insertionSort fun a b => a.1.utf8 ≤ b.1.utf8, ?_⟩
  unfold listing
  rw [hr]
  rfl

/-- A list in the order of the names is known from its members. -/
theorem eq_of_sorted {out out' : List (String × Metadata)}
    (hs : out.Pairwise fun a b => a.1.utf8 ≤ b.1.utf8)
    (hs' : out'.Pairwise fun a b => a.1.utf8 ≤ b.1.utf8)
    (hn : out.Pairwise fun a b => a.1 ≠ b.1) (hn' : out'.Pairwise fun a b => a.1 ≠ b.1)
    (h : ∀ c, c ∈ out ↔ c ∈ out') : out = out' := by
  have hperm : out.Perm out' := (List.perm_ext_iff_of_nodup
    (hn.imp fun hne heq => hne (congrArg Prod.fst heq))
    (hn'.imp fun hne heq => hne (congrArg Prod.fst heq))).mpr h
  refine hperm.eq_of_pairwise (fun a b ha hb hab hba => ?_) hs hs'
  have hname : a.1 = b.1 := String.utf8_injective (List.le_antisymm hab hba)
  by_contra hne
  obtain ⟨i, hi, rfl⟩ := List.getElem_of_mem ha
  obtain ⟨j, hj, rfl⟩ := List.getElem_of_mem ((h b).mpr hb)
  have hij : i ≠ j := fun he => hne (by subst he; rfl)
  rcases Nat.lt_or_gt_of_ne hij with hlt | hlt
  · exact List.pairwise_iff_getElem.mp hn i j hi hj hlt hname
  · exact List.pairwise_iff_getElem.mp hn j i hj hi hlt hname.symm

/-- Two directories that agree on the names with `P` are listed alike as far as these go. -/
theorem listing_agree {d' : Path} {out out' : List (String × Metadata)} {P : String → Bool}
    (h : t.listing d = .ok out) (h' : t'.listing d' = .ok out')
    (hsame : ∀ name : String, P name = true → NameOk name.utf8 →
      t'.get (join d' name.utf8) = t.get (join d name.utf8)) :
    out'.filter (fun c => P c.1) = out.filter fun c => P c.1 := by
  obtain ⟨hthere, hlisted, hnodup⟩ := children_of_listing h
  obtain ⟨hthere', hlisted', hnodup'⟩ := children_of_listing h'
  refine eq_of_sorted ((listing_sorted h').filter _) ((listing_sorted h).filter _)
    (hnodup'.filter _) (hnodup.filter _) fun c => ?_
  rw [List.mem_filter, List.mem_filter]
  refine and_congr_left fun hP => ⟨fun hc => ?_, fun hc => ?_⟩
  · obtain ⟨hname, node, hnode, hmeta⟩ := hthere' c hc
    rw [hsame _ hP hname] at hnode
    obtain ⟨x, hx, hx1, hx2⟩ := hlisted _ node hname hnode
    rwa [Prod.ext (String.utf8_injective hx1.symm) (hmeta.symm.trans hx2.symm)]
  · obtain ⟨hname, node, hnode, hmeta⟩ := hthere c hc
    rw [← hsame _ hP hname] at hnode
    obtain ⟨x, hx, hx1, hx2⟩ := hlisted' _ node hname hnode
    rwa [Prod.ext (String.utf8_injective hx1.symm) (hmeta.symm.trans hx2.symm)]

/-- One object of a transfer directory, with the bytes before it. -/
def stowedEntry (t : Tree) (K : Path) (bytes : Nat) (child : String × Metadata) :
    Except Error Nat :=
  if child.2.isFile && (child.1 = "lock" || child.1 = "activity") then pure bytes
  else if child.2.isFile && staging child.1 then pure (bytes + child.2.len)
  else if !child.2.isDir || !shardName child.1 then
    throw (.config "unexpected object in chunk cache")
  else do
    let shard ← fromHex child.1.utf8
    (← t.listing (join K child.1.utf8)).foldlM (shardBytes shard) bytes

/-- The bytes of a transfer directory, as `payload_bytes` counts them. -/
def stowed (t : Tree) (K : Path) : Except Error Nat := do
  (← t.listing K).foldlM (t.stowedEntry K) 0

end Tree

section
variable {w : Disk} {key : String} {hk : keyName key = true} {path : String}

/-- `children` in a transfer returns the listing. -/
theorem run_listing (hp : path = "" ∨ (transferRoot key hk).Takes path)
    (hd : w.tree.IsDir ((transferRoot key hk).pathOf path)) :
    (((transferRoot key hk).children path).run exec w).1
      = w.tree.listing ((transferRoot key hk).pathOf path) := by
  obtain ⟨s, hs⟩ : ∃ s, (transferRoot key hk).full path = .ok s := by
    rcases hp with rfl | hp
    · exact ⟨_, Root.full_base (Nat.le_trans (Nat.le_of_eq (keyName_length hk)) (by decide))⟩
    · exact ⟨_, hp.full⟩
  rw [run_children hs, (Tree.openDir_ok (u := ())).mpr hd]
  rfl

/-- The empty path is the transfer itself. -/
theorem pathOf_transfer_empty : (transferRoot key hk).pathOf "" = key.utf8 := SepPath.join_nil_right

/-- Two loops with the same turns. -/
theorem foldlM_congr {α β ε : Type} {xs : List α} {f g : β → α → Except ε β} (b : β)
    (h : ∀ x ∈ xs, ∀ b, f b x = g b x) : xs.foldlM f b = xs.foldlM g b := by
  induction xs generalizing b with
  | nil => rfl
  | cons x xs ih =>
    rw [List.foldlM_cons, List.foldlM_cons, h x List.mem_cons_self]
    exact congrArg _ (funext fun b => ih b fun y hy => h y (List.mem_cons_of_mem _ hy))

/-- One object of a transfer is only read. -/
theorem quiet_payloadEntry {root : Root} {bytes : Nat} {child : String × Metadata} :
    Prog.Quiet exec (payloadEntry root bytes child) := by
  refine quiet_of_reads (calls_ite trivial (calls_ite trivial (calls_check_bind
    (calls_lift fun _ _ => Prog.issues_bind calls_children fun _ =>
      Prog.issues_foldlM fun _ _ _ => ?_))))
  rw [Prog.lift_def]
  trivial

/-- A directory of the tree is a directory for its metadata, and conversely. -/
theorem isDir_metadata {n : Node} : n.metadata.isDir = true ↔ n.body = .directory := by
  rcases n with ⟨_ | _ | _ | _, _, _⟩ <;> simp [Node.metadata, Metadata.isDir, Body.type]

/-- The metadata of a regular file. -/
theorem isFile_metadata {n : Node} : n.metadata.isFile = true ↔ n.body.type = .file := by
  rcases n with ⟨_ | _ | _ | _, _, _⟩ <;> simp [Node.metadata, Metadata.isFile, Body.type]

/-- One object of a transfer directory. -/
theorem run_payloadEntry {bytes : Nat} {child : String × Metadata} {node : Node}
    (hname : NameOk child.1.utf8) (hnode : w.tree.get (join key.utf8 child.1.utf8) = some node)
    (hmeta : node.metadata = child.2) :
    ((payloadEntry (transferRoot key hk) bytes child).run exec w).1
      = w.tree.stowedEntry key.utf8 bytes child := by
  unfold payloadEntry Tree.stowedEntry
  -- The lock and the record of the activity, what was being staged, and the directories of the
  -- chunks.
  by_cases h1 : (child.2.isFile && (child.1 = "lock" || child.1 = "activity")) = true
  · rw [if_pos h1, if_pos h1]
    rfl
  rw [if_neg h1, if_neg h1]
  by_cases h2 : (child.2.isFile && staging child.1) = true
  · rw [if_pos h2, if_pos h2]
    rfl
  rw [if_neg h2, if_neg h2]
  by_cases h3 : (!child.2.isDir || !shardName child.1) = true
  · rw [if_pos h3, if_pos h3]
    rfl
  rw [if_neg h3, if_neg h3]
  rw [Bool.or_eq_true, not_or, Bool.not_eq_true', Bool.not_eq_false, Bool.not_eq_true',
    Bool.not_eq_false] at h3
  obtain ⟨hdir, hshard⟩ := h3
  rw [← hmeta, isDir_metadata] at hdir
  cases fromHex child.1.utf8 with
  | error e => rfl
  | ok shard =>
    -- The name of a shard is short enough to be opened.
    have hlen : child.1.utf8.length = 8 := by
      simp only [shardName, Bool.and_eq_true, decide_eq_true_eq] at hshard
      exact hshard.1
    have hl := run_listing (w := w) (Or.inr (@takes_name key hk _ hname (by omega))) ⟨node, hnode, hdir⟩
    show ((do (← (transferRoot key hk).children child.1).foldlM _ bytes : FsM Nat).run exec w).1 = _
    rw [(quiet_of_reads calls_children).run_bind_fst, hl]
    show _ = (w.tree.listing (join key.utf8 child.1.utf8) >>= fun out =>
      out.foldlM (shardBytes shard) bytes)
    refine congrArg _ (funext fun out => ?_)
    rw [Prog.run_foldlM_fst fun _ _ _ => Prog.quiet_lift _]
    rfl

/-- What `payload_bytes` makes of a transfer directory. -/
theorem run_payloadBytes (hd : w.tree.IsDir key.utf8) :
    ((payloadBytes (transferRoot key hk)).run exec w).1 = w.tree.stowed key.utf8 := by
  unfold payloadBytes
  rw [(quiet_of_reads calls_children).run_bind_fst, run_listing (Or.inl rfl)
    (by rwa [pathOf_transfer_empty]), pathOf_transfer_empty]
  unfold Tree.stowed
  cases hl : w.tree.listing key.utf8 with
  | error e => rfl
  | ok out =>
    show ((out.foldlM (payloadEntry (transferRoot key hk)) 0).run exec w).1
      = out.foldlM (w.tree.stowedEntry key.utf8) 0
    rw [Prog.run_foldlM_fst fun _ _ _ => quiet_payloadEntry]
    refine foldlM_congr 0 fun child hc bytes => ?_
    obtain ⟨hname, node, hnode, hmeta⟩ := (Tree.children_of_listing hl).there child hc
    exact run_payloadEntry hname hnode hmeta

end

/-! ### What is accepted -/

section
variable {α β ε : Type} {xs : List α} {f : β → α → Except ε β}

/-- When a loop succeeds, each of its turns does. -/
theorem foldlM_turns {b b' : β} (h : xs.foldlM f b = .ok b') :
    ∀ x ∈ xs, ∃ c c', f c x = .ok c' := by
  induction xs generalizing b with
  | nil => exact fun _ hx => absurd hx List.not_mem_nil
  | cons x xs ih =>
    rw [List.foldlM_cons, bind_eq_ok] at h
    obtain ⟨c, hc, h⟩ := h
    exact List.forall_mem_cons.mpr ⟨⟨b, c, hc⟩, ih h⟩

/-- The turns that do nothing can be left out. -/
theorem foldlM_skip {P : α → Bool} (b : β) (h : ∀ x ∈ xs, P x = false → ∀ b, f b x = pure b) :
    xs.foldlM f b = (xs.filter P).foldlM f b := by
  induction xs generalizing b with
  | nil => rfl
  | cons x xs ih =>
    have hxs := fun b => ih b fun y hy => h y (List.mem_cons_of_mem _ hy)
    cases hx : P x with
    | false =>
      rw [List.filter_cons_of_neg (by simp [hx]), List.foldlM_cons, h x List.mem_cons_self hx]
      exact hxs b
    | true =>
      rw [List.filter_cons_of_pos hx, List.foldlM_cons, List.foldlM_cons]
      exact congrArg _ (funext hxs)

end

/-- What is counted in a shard is a file. -/
theorem shardBytes_isFile {shard bytes b : Nat} {child : String × Metadata}
    (h : shardBytes shard bytes child = .ok b) : child.2.isFile = true := by
  cases hf : child.2.isFile with
  | true => rfl
  | false =>
    have hbad : ∀ valid : Bool, (!child.2.isFile || !(valid || staging child.1)) = true := by
      simp [hf]
    unfold shardBytes at h
    by_cases hc : chunkName child.1 = true
    · rw [if_pos hc] at h
      cases hi : fromHex (child.1.utf8.take 8) with
      | error e =>
        rw [hi] at h
        cases h
      | ok i =>
        rw [hi] at h
        exact absurd (hbad _) (ite_throw_bind_eq_ok.mp h).1
    · rw [if_neg hc] at h
      exact absurd (hbad _) (ite_throw_bind_eq_ok.mp h).1

/-- What is accepted in a transfer directory. -/
theorem stowedEntry_ok {t : Tree} {K : Path} {bytes b : Nat} {child : String × Metadata}
    (h : t.stowedEntry K bytes child = .ok b) : child.2.isFile = true ∨
      child.2.isDir = true ∧ shardName child.1 = true ∧
        ∃ out, t.listing (join K child.1.utf8) = .ok out ∧ ∀ x ∈ out, x.2.isFile = true := by
  -- A file is counted or passed over. What is no file must be a shard.
  cases hf : child.2.isFile with
  | true => exact Or.inl rfl
  | false =>
    right
    unfold Tree.stowedEntry at h
    simp only [hf, Bool.false_and, Bool.false_eq_true, if_false] at h
    by_cases hd : (!child.2.isDir || !shardName child.1) = true
    · rw [if_pos hd] at h
      cases h
    · rw [if_neg hd] at h
      rw [Bool.or_eq_true, not_or, Bool.not_eq_true', Bool.not_eq_false, Bool.not_eq_true',
        Bool.not_eq_false] at hd
      simp only [bind_eq_ok] at h
      obtain ⟨shard, -, out, hout, h⟩ := h
      refine ⟨hd.1, hd.2, out, hout, fun x hx => ?_⟩
      obtain ⟨_, _, hturn⟩ := foldlM_turns h x hx
      exact shardBytes_isFile hturn

/-- A loop whose turns are known to succeed from another one. -/
theorem foldlM_mono {α β ε : Type} {xs : List α} {f g : β → α → Except ε β} {b b' : β}
    (h : ∀ x ∈ xs, ∀ b b', f b x = .ok b' → g b x = .ok b') (hf : xs.foldlM f b = .ok b') :
    xs.foldlM g b = .ok b' := by
  induction xs generalizing b with
  | nil => exact hf
  | cons x xs ih =>
    rw [List.foldlM_cons, bind_eq_ok] at hf ⊢
    obtain ⟨c, hc, hf⟩ := hf
    exact ⟨c, h x List.mem_cons_self b c hc, ih (fun y hy => h y (List.mem_cons_of_mem _ hy)) hf⟩

namespace Tree

variable {t t' : Tree} {d K : Path}

/-- A listing depends on the content of the directory. -/
theorem listing_congr (hK : NameOk K) (h : t.under K = t'.under K) (hd : Below d K) :
    t.listing d = t'.listing d := by
  unfold listing
  rw [entries_congr hK h hd]

/-- What a transfer directory holds is known from the objects in it. -/
theorem stowed_congr (hK : NameOk K) (h : t.under K = t'.under K) : t.stowed K = t'.stowed K := by
  unfold stowed
  rw [listing_congr hK h SepPath.Below.refl]
  refine congrArg _ (funext fun out => ?_)
  refine foldlM_congr 0 fun c _ bytes => ?_
  unfold stowedEntry
  rw [listing_congr hK h (SepPath.below_join_left hK.1)]

/-- A directory with the same objects has the same listing. -/
theorem listing_same {out : List (String × Metadata)} (h : t.listing d = .ok out)
    (hsame : ∀ n, NameOk n → t'.get (join d n) = t.get (join d n)) : t'.listing d = .ok out := by
  obtain ⟨-, hlisted, -⟩ := children_of_listing h
  -- The same names are listed again, so none is refused and they are not too many.
  have hex : ∃ out', t'.listing d = .ok out' := by
    refine listing_of_few (fun n hn hsome => ?_) fun ns hnodup hns => ?_
    · rw [hsame n hn] at hsome
      obtain ⟨node, hnode⟩ := Option.isSome_iff_exists.mp hsome
      obtain ⟨c, -, hc, -⟩ := hlisted n node hn hnode
      exact ⟨c.1, hc⟩
    · have hsub : ns ⊆ out.map fun c => c.1.utf8 := by
        intro n hn
        obtain ⟨hname, hsome⟩ := hns n hn
        rw [hsame n hname] at hsome
        obtain ⟨node, hnode⟩ := Option.isSome_iff_exists.mp hsome
        obtain ⟨c, hc, rfl, -⟩ := hlisted n node hname hnode
        exact List.mem_map_of_mem hc
      have hle := (List.subperm_of_subset hnodup hsub).length_le
      rw [List.length_map] at hle
      exact hle.trans (listing_length h)
  obtain ⟨out', hout'⟩ := hex
  have hagree := listing_agree (P := fun _ => true) h hout' fun name _ hn => hsame _ hn
  rw [List.filter_true, List.filter_true] at hagree
  rw [hout', hagree]

/-- The path of the lock of a transfer directory. -/
def lockOf (K : Path) : Path := join K "lock".utf8

/-- The lock of a transfer has a name. -/
theorem lock_name : NameOk "lock".utf8 := by decide

/-- Room for a lock: there is one, or there are fewer objects than a listing may have. -/
def Room (t : Tree) (K : Path) : Prop :=
  (t.get (lockOf K)).isSome ∨ ∀ out, t.listing K = .ok out → out.length < maxEntries

/-- The lock is not counted. -/
theorem stowedEntry_lock {bytes : Nat} {child : String × Metadata} (hname : child.1 = "lock")
    (hfile : child.2.isFile = true) : t.stowedEntry K bytes child = pure bytes := by
  simp [stowedEntry, hname, hfile]

/-- An object in a directory is not the directory. -/
theorem join_ne {n : Path} (hn : NameOk n) : join K n ≠ K := fun h =>
  hn.1 (SepPath.join_injective K (h.trans SepPath.join_nil_right.symm))

section
variable (hsame : ∀ q, q ≠ K → q ≠ lockOf K → t'.get q = t.get q)
include hsame

/-- Making the lock changes no other child. -/
theorem relock_child {n : Path} (hn : NameOk n) (hne : n ≠ "lock".utf8) :
    t'.get (join K n) = t.get (join K n) :=
  hsame _ (join_ne hn) fun h => hne (SepPath.join_injective K h)

/-- The directory can still be listed when it has a lock. -/
theorem relock_listing {out : List (String × Metadata)} (hroom : t.Room K)
    (hout : t.listing K = .ok out) : ∃ out', t'.listing K = .ok out' := by
  obtain ⟨-, hlisted, -⟩ := children_of_listing hout
  -- All names but that of the lock were listed before.
  have hold : ∀ n, NameOk n → (t.get (join K n)).isSome → ∃ c ∈ out, c.1.utf8 = n := by
    intro n hn hsome
    obtain ⟨node, hnode⟩ := Option.isSome_iff_exists.mp hsome
    obtain ⟨c, hc, hcn, -⟩ := hlisted n node hn hnode
    exact ⟨c, hc, hcn⟩
  refine listing_of_few (fun n hn hsome => ?_) fun ns hnodup hns => ?_
  · by_cases hl : n = "lock".utf8
    · exact ⟨"lock", hl.symm⟩
    · rw [relock_child hsame hn hl] at hsome
      obtain ⟨c, -, hc⟩ := hold n hn hsome
      exact ⟨c.1, hc⟩
  · have hsub : ns ⊆ "lock".utf8 :: out.map fun c => c.1.utf8 := by
      intro n hn
      by_cases hl : n = "lock".utf8
      · exact hl ▸ List.mem_cons_self
      · obtain ⟨hname, hsome⟩ := hns n hn
        rw [relock_child hsame hname hl] at hsome
        obtain ⟨c, hc, rfl⟩ := hold n hname hsome
        exact List.mem_cons_of_mem _ (List.mem_map_of_mem hc)
    rcases hroom with hsome | hfew
    · -- The lock is among the old names.
      obtain ⟨c, hc, hcn⟩ := hold _ lock_name hsome
      have hsub' : ns ⊆ out.map fun c => c.1.utf8 := fun n hn => by
        rcases List.mem_cons.mp (hsub hn) with rfl | h
        · exact hcn ▸ List.mem_map_of_mem hc
        · exact h
      have hle := (List.subperm_of_subset hnodup hsub').length_le
      rw [List.length_map] at hle
      exact hle.trans (listing_length hout)
    · have hle := (List.subperm_of_subset hnodup hsub).length_le
      rw [List.length_cons, List.length_map] at hle
      have := hfew out hout
      omega

/-- A new lock is not among the payload. -/
theorem stowed_relock {b : Nat}
    (hlist : ∀ out, t.listing K = .ok out → ∃ out', t'.listing K = .ok out')
    (hnew : ∀ n, t'.get (lockOf K) = some n → n.body.type = .file)
    (hold : ∀ n, t.get (lockOf K) = some n → n.body.type = .file)
    (hst : t.stowed K = .ok b) : t'.stowed K = .ok b := by
  -- The lock counts nothing, so the two loops go over the same entries.
  have hskip : ∀ {t : Tree} {out : List (String × Metadata)}, t.listing K = .ok out →
      (∀ n, t.get (lockOf K) = some n → n.body.type = .file) → ∀ c ∈ out,
      decide (c.1 ≠ "lock") = false → ∀ bytes, t.stowedEntry K bytes c = pure bytes := by
    intro t out hout hfile c hc hP bytes
    have hname : c.1 = "lock" := by simpa using hP
    obtain ⟨-, node, hnode, hmeta⟩ := (children_of_listing hout).there c hc
    rw [hname] at hnode
    exact stowedEntry_lock hname (hmeta ▸ isFile_metadata.mpr (hfile node hnode))
  simp only [stowed, bind_eq_ok] at hst ⊢
  obtain ⟨out, hout, hfold⟩ := hst
  obtain ⟨out', hout'⟩ := hlist out hout
  refine ⟨out', hout', ?_⟩
  have hagree := listing_agree (P := fun name => decide (name ≠ "lock")) hout hout'
    fun name hP hn => relock_child hsame hn fun h => by
      rw [decide_eq_true_eq] at hP
      exact hP (String.utf8_injective h)
  rw [foldlM_skip 0 (hskip hout hold)] at hfold
  rw [foldlM_skip 0 (hskip hout' hnew), hagree]
  refine foldlM_mono (fun c hc bytes bytes' hturn => ?_) hfold
  have hname := ((children_of_listing hout).there c (List.mem_of_mem_filter hc)).1
  unfold stowedEntry at hturn ⊢
  split_ifs at hturn ⊢ with h1 h2 h3
  · exact hturn
  · exact hturn
  · simp only [bind_eq_ok] at hturn ⊢
    obtain ⟨shard, hshard, files, hfiles, hturn⟩ := hturn
    refine ⟨shard, hshard, files, listing_same hfiles fun n hn => hsame _ (fun h => ?_) fun h => ?_,
      hturn⟩
    -- No name of a shard leads to the directory itself, or to the lock.
    · have h0 := SepPath.join_injective K
        ((SepPath.join_assoc.symm.trans h).trans SepPath.join_nil_right.symm)
      exact hn.1 (SepPath.join_eq_nil.mp h0).2
    · have hd := congrArg dirName h
      rw [dirName_join_name hn, lockOf, dirName_join_name lock_name] at hd
      exact join_ne hname hd

end

end Tree

/-! ### The activity record -/

/-- The path of the record of a transfer directory. -/
def Tree.recordOf (K : Path) : Path := join K "activity".utf8

/-- The time in a well-formed record. -/
def Node.record? (n : Node) : Option Nat :=
  if n.body.len ≠ 16 then none
  else if n.body.data.take 8 ≠ "RRSYNC01".utf8 then none
  else some (ofBytes (n.body.data.drop 8))

/-- The time in the activity record, when there is a well-formed one. -/
def Tree.record? (t : Tree) (K : Path) : Option Nat := (t.get (recordOf K)).bind Node.record?

/-- The record depends on the content of the transfer. -/
theorem Tree.record_congr {t t' : Tree} {K : Path} (hK : NameOk K) (h : t.under K = t'.under K) :
    t.record? K = t'.record? K := by
  unfold record? recordOf
  rw [get_congr h (SepPath.below_join_left hK.1)]

section
variable {w : Disk} {key : String} {hk : keyName key = true}

/-- What is read of the record, where it is a file or missing. -/
theorem run_readActivity (hd : w.tree.IsDir key.utf8)
    (hfile : ∀ n, w.tree.get (Tree.recordOf key.utf8) = some n → n.body.type = .file) :
    ((readActivity (transferRoot key hk)).run exec w).1 = .ok (w.tree.record? key.utf8) := by
  have hname : NameOk "activity".utf8 := by decide
  have htakes : (transferRoot key hk).Takes "activity" := takes_name hname (by decide)
  unfold readActivity
  rw [(Prog.quiet_attempt (quiet_of_reads calls_openFile)).run_bind_fst, Prog.run_attempt]
  unfold Tree.record?
  -- A missing record is no error.
  cases hg : w.tree.get (Tree.recordOf key.utf8) with
  | none =>
    have hfind : w.tree.find ((transferRoot key hk).pathOf "activity") = .error .noent :=
      Tree.find_noent (join_name_ne_nil hname) (by
        rw [dirName_name hname]
        exact hd) hg
    rw [openFile_noent htakes.full hfind]
    rfl
  | some n =>
    have hopen : (((transferRoot key hk).openFile "activity").run exec w).1
        = .ok (n.metadata, n.body.data) :=
      openFile_ok.mpr ⟨⟨_, htakes.full⟩, n, hg, hfile n hg, rfl⟩
    rw [hopen]
    show ((if n.body.len ≠ 16 then pure none
      else if n.body.data.take 8 ≠ "RRSYNC01".utf8 then pure none
      else pure (some (ofBytes (n.body.data.drop 8))) : FsM (Option Nat)).run exec w).1
        = .ok n.record?
    unfold Node.record?
    split_ifs <;> rfl

end

end RrSync

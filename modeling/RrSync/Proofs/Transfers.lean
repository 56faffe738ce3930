import RrSync.Proofs.Sessions
import RrSync.Proofs.Authority
import Mathlib.Data.List.Perm.Basic

/-!
# `RrSync.Proofs.Transfers`: the transfer of a session

The state of the second server is spread over the session, the transfer and the peer.
`state_consistent` says how they fit together in every state that can be reached.

`accepted_in_order` is about the requests that were answered: they are a START and the
beginning of a `Conversation`, one block of requests for each file of the plan and FINISH.
-/

set_option autoImplicit false

namespace RrSync.V2

open Lib

/-! ### The state -/

/-- How the session, the transfer and the peer of a server fit together. -/
structure Server.Consistent (server : Server) : Prop where
  idle : server.base.session = none →
    server.transfer = none ∧ server.peer = none ∧ server.path = ""
  transfer : ∀ t ∈ server.transfer, ∃ s, server.base.session = some s ∧
    s.options.dryRun = false ∧ s.pending = some t.index ∧ t.index ∈ s.plan.files ∧
    t.index ∉ s.done ∧ (t.payload.isUpload = true ↔ s.push = true) ∧
    (t.nextPage = t.description.chunkCount ∨
      t.nextPage % pageChunks = 0 ∧ t.nextPage ≤ t.description.chunkCount) ∧
    t.pageStart ≤ t.nextPage ∧
    (∀ c ∈ t.payload.marked, t.pageStart ≤ c ∧ c < t.nextPage) ∧
    (∀ c ∈ t.pending, t.pageStart ≤ c ∧ c < t.nextPage ∧
      (t.payload.isUpload = true → c ∈ t.payload.marked)) ∧
    ∀ f ∈ t.received, t.payload.isUpload = true ∧ f.hasMetadata = false ∧
      ∃ c, t.pending = some c ∧ t.description.length c = .ok f.size

/-- The invariant of the server gives what is said of its state: the session, the plan and the
transfer fit together. -/
theorem Server.Coherent.consistent {server : Server} (hs : server.Coherent) :
    server.Consistent := by
  refine ⟨hs.idle, fun t ht => ?_⟩
  cases hsession : server.base.session with
  | none =>
    rw [(hs.idle hsession).1] at ht
    cases ht
  | some s =>
    have htc := hs.transfer t ht s hsession
    obtain ⟨hfile, hfresh⟩ := (hs.base s hsession).1.pending _ htc.file
    refine ⟨s, rfl, htc.real, htc.file, hfile, hfresh, by rw [htc.direction], htc.next, htc.start,
      htc.within, fun c hc => ?_, htc.received⟩
    obtain ⟨h1, h2, h3⟩ := htc.pending c hc
    exact ⟨h1, h2, h3.mpr⟩

/-- The state of the second server is consistent after every sequence of calls. -/
theorem state_consistent [Sha256] (root : Root) (cache : Cache) (w : Disks) (is : List Input) :
    (after step (.new root cache, w) is).1.Consistent :=
  (after_invariant (fun st : Server × Disks => st.1.Coherent) (started_coherent root cache)
    (fun _ i hs => step_coherent hs i) is).consistent

/-! ### How far the transfer of a file has come -/

/-- The chunks of the page that have been transferred, and the marked ones. -/
def Progress (missing cs : List UInt32) : Payload → Prop
  | .upload _ left => left.Nodup ∧ (cs.map UInt32.toNat ++ left).Perm (missing.map UInt32.toNat)
  | .download _ served => served.Nodup ∧ (cs.map UInt32.toNat).Perm served

/-- The request for the chunk that is waited for. -/
inductive Waits (push : Bool) (i : UInt32) : Option Nat → List Exchange → Prop
  | idle : Waits push i none []
  | asked {c : UInt32} {a : Exchange} (asks : Asks i c push a) : Waits push i (some c.toNat) [a]

/-- What has been said about the file of a transfer. -/
inductive Begun (push : Bool) (i : UInt32) (e : Entry) (t : Transfer) : List Exchange → Prop
  | head {x : Exchange} (head : BlockHead i e push t.description.chunkCount x)
      (first : t.nextPage = 0) (idle : t.pending = none) (empty : t.payload.marked = []) :
      Begun push i e t [x]
  | page {x h : Exchange} {w v z : List Exchange} {missing cs : List UInt32}
      (head : BlockHead i e push t.description.chunkCount x)
      (pages : Pages push i t.description.chunkCount t.pageStart w)
      (more : t.pageStart < t.description.chunkCount)
      (next : t.nextPage
        = t.pageStart + min (t.description.chunkCount - t.pageStart) pageChunks)
      (opened : PageHead i t.pageStart (min (t.description.chunkCount - t.pageStart) pageChunks)
        push missing h)
      (turns : Turns push i cs v) (progress : Progress missing cs t.payload)
      (waits : Waits push i t.pending z) : Begun push i e t (x :: w ++ (h :: v ++ z))

section
variable {s : Session} {t : Transfer} {i : UInt32} {e : Entry} {tail v z : List Exchange}
  {missing cs : List UInt32}

/-- Numbers below 2^32 survive the way through `UInt32`. -/
theorem map_toNat_ofNat {xs : List Nat} (h : ∀ x ∈ xs, x < 2 ^ 32) :
    (xs.map UInt32.ofNat).map UInt32.toNat = xs := by
  rw [List.map_map]
  refine (List.map_congr_left fun x hx => ?_).trans (List.map_id xs)
  show (UInt32.ofNat x).toNat = x
  rw [UInt32.toNat_ofNat']
  exact Nat.mod_eq_of_lt (h x hx)

/-- Different machine words are different numbers. -/
theorem toNat_injective : Function.Injective UInt32.toNat := fun _ _ h => UInt32.toNat_inj.mp h

/-- Chunks that are left, with those that have been transferred, are the missing ones. -/
theorem perm_missing {left : List Nat}
    (h : (cs.map UInt32.toNat ++ left).Perm (missing.map UInt32.toNat)) :
    (cs ++ left.map UInt32.ofNat).Perm missing := by
  rw [← List.map_perm_map_iff toNat_injective, List.map_append, map_toNat_ofNat]
  · exact h
  · intro x hx
    obtain ⟨c, -, rfl⟩ := List.mem_map.mp (h.subset (List.mem_append_right _ hx))
    exact c.toNat_lt

/-- The chunks of the page that have not been transferred can be. -/
theorem Progress.complete (ht : t.Coherent s) (h : Progress missing cs t.payload)
    (hv : Turns s.push i cs v) (hz : Waits s.push i t.pending z) {n : Nat}
    (hn : t.nextPage = t.pageStart + n) :
    ∃ cs' v', Turns s.push i (cs ++ cs') (v ++ z ++ v') ∧
      Wanted s.push t.pageStart n missing (cs ++ cs') := by
  have hwithin := ht.within
  have hpending := ht.pending
  rw [← ht.direction] at hv hz ⊢
  generalize t.pending = p at hz hpending
  cases hp : t.payload with
  | upload store left =>
    rw [hp] at h hv hz hpending
    simp only [Payload.isUpload] at hv hz hpending
    obtain ⟨-, hperm⟩ := h
    show ∃ cs' v', Turns true i (cs ++ cs') (v ++ z ++ v') ∧ (cs ++ cs').Perm missing
    cases hz with
    | idle =>
      -- The chunks that are left may follow in any order.
      obtain ⟨v', hv'⟩ := hv.append (left.map UInt32.ofNat)
      exact ⟨_, v', by simpa using hv', perm_missing hperm⟩
    | @asked c a asks =>
      have hc : c.toNat ∈ left := (hpending _ rfl).2.2.mpr trivial
      -- The chunk under way is one of those that are left.
      have hleft : (cs.map UInt32.toNat ++ left).Perm
          ((cs ++ [c]).map UInt32.toNat ++ left.erase c.toNat) := by
        rw [List.map_append, List.append_assoc]
        exact List.Perm.append_left _ (List.perm_cons_erase hc)
      obtain ⟨b, hb⟩ := exists_settles true i c
      obtain ⟨v', hv'⟩ := (hv.snoc asks hb).append ((left.erase c.toNat).map UInt32.ofNat)
      refine ⟨[c] ++ (left.erase c.toNat).map UInt32.ofNat, [b] ++ v', by simpa using hv', ?_⟩
      rw [← List.append_assoc]
      exact perm_missing (hleft.symm.trans hperm)
  | download file served =>
    rw [hp] at h hv hz hpending hwithin
    simp only [Payload.isUpload] at hv hz hpending
    obtain ⟨hnd, hperm⟩ := h
    have hcs : (cs.map UInt32.toNat).Nodup := hperm.nodup_iff.mpr hnd
    -- All chunks so far are of the page.
    have hin : ∀ c ∈ cs, t.pageStart ≤ c.toNat ∧ c.toNat < t.pageStart + n := by
      intro c hc
      rw [← hn]
      exact hwithin _ (hperm.subset (List.mem_map_of_mem hc))
    show ∃ cs' v', Turns false i (cs ++ cs') (v ++ z ++ v') ∧ (cs ++ cs').Nodup ∧
      ∀ c ∈ cs ++ cs', t.pageStart ≤ c.toNat ∧ c.toNat < t.pageStart + n
    cases hz with
    -- A pull may stop asking at any time, so only the chunk under way is needed.
    | idle => exact ⟨[], [], by simpa using hv, by simpa using hcs.of_map, by simpa using hin⟩
    | @asked c a asks =>
      obtain ⟨h1, h2, h3⟩ := hpending _ rfl
      have hc : c ∉ cs := fun hc =>
        absurd (h3.mp (hperm.subset (List.mem_map_of_mem hc))) (by decide)
      obtain ⟨b, hb⟩ := exists_settles false i c
      refine ⟨[c], [b], by simpa using hv.snoc asks hb, ?_, fun d hd => ?_⟩
      · exact List.nodup_append'.mpr ⟨hcs.of_map, List.nodup_singleton c, by simpa using hc⟩
      · rcases List.mem_append.mp hd with hd | hd
        · exact hin d hd
        · obtain rfl := List.mem_singleton.mp hd
          exact ⟨h1, by omega⟩

/-- When the page is complete, so are the pages up to it. -/
theorem Begun.closed (ht : t.Coherent s) (h : Begun s.push i e t tail) (hidle : t.pending = none)
    (hleft : ∀ store left, t.payload = .upload store left → left = []) :
    ∃ x w, BlockHead i e s.push t.description.chunkCount x ∧ tail = x :: w ∧
      Pages s.push i t.description.chunkCount t.nextPage w := by
  cases h with
  | @head x head first =>
    refine ⟨x, [], head, rfl, ?_⟩
    rw [first]
    exact .start
  | @page x h w v z missing cs head pages more next opened turns progress waits =>
    refine ⟨x, w ++ (h :: v), head, ?_, ?_⟩
    · rw [hidle] at waits
      cases waits
      simp
    -- The last page is complete as well.
    · rw [next]
      refine pages.page more (.mk opened turns ?_)
      have hwithin := ht.within
      rw [← ht.direction]
      cases hp : t.payload with
      | upload store left =>
        rw [hp] at progress
        obtain rfl := hleft store left hp
        show cs.Perm missing
        simpa using perm_missing progress.2
      | download file served =>
        rw [hp] at progress hwithin
        have hnd : cs.Nodup := (progress.2.nodup_iff.mpr progress.1).of_map
        refine ⟨hnd, fun c hc => ?_⟩
        rw [← next]
        exact hwithin _ (progress.2.subset (List.mem_map_of_mem hc))

/-- Whatever has been exchanged for a file can be completed to the whole block of its requests. -/
theorem Begun.complete (ht : t.Coherent s) (h : Begun s.push i e t tail) :
    ∃ v, Block s.push i e (tail ++ v) := by
  have hcount := t.description.chunkCount_lt
  cases h with
  | @head x head first idle empty =>
    obtain ⟨v, hv⟩ := Pages.start.block head (Nat.zero_le _) hcount
    exact ⟨v, hv⟩
  | @page x h w v z missing cs head pages more next opened turns progress waits =>
    obtain ⟨cs', v', hturns, hwanted⟩ := progress.complete ht turns waits next
    have hpages := pages.page more (.mk opened hturns hwanted)
    obtain ⟨u, hu⟩ := hpages.block head (by omega) hcount
    exact ⟨v' ++ u, by simpa using hu⟩

end

/-- What has been said in a session. -/
inductive Talk (s : Session) : Option Transfer → List Exchange → Prop
  | between {blocks : List (UInt32 × List Exchange)} (blocks_ok : Blocks s blocks)
      (done : (files blocks).Perm s.done) : Talk s none (said blocks)
  | amid {blocks : List (UInt32 × List Exchange)} {t : Transfer} {i : UInt32} {e : Entry}
      {tail : List Exchange} (blocks_ok : Blocks s blocks) (done : (files blocks).Perm s.done)
      (file : i.toNat = t.index) (entry : s.source.entries[t.index]? = some e)
      (begun : Begun s.push i e t tail) : Talk s (some t) (said blocks ++ tail)

section
variable [Sha256] {s s' : Session} {state state' : Option Transfer} {request : Message}
  {reply : ServerReply} {word : List Exchange} {t t' : Transfer} {i : UInt32} {e : Entry}
  {tail : List Exchange}

omit [Sha256] in
/-- A page is opened after the last one. -/
theorem Begun.page_opened (ht : t.Coherent s) (h : Begun s.push i e t tail)
    (hidle : t.pending = none)
    (hleft : ∀ store left, t.payload = .upload store left → left = []) {d : Description}
    {payload : Payload} {k n : Nat} (hcount : d.chunkCount = t.description.chunkCount)
    (hk : t.nextPage = k) (hmore : k < t.description.chunkCount)
    (hn : n = min (t.description.chunkCount - k) pageChunks) {x : Exchange}
    {missing : List UInt32} (hx : PageHead i k n s.push missing x)
    (hprogress : Progress missing [] payload) :
    Begun s.push i e { t with description := d, payload := payload, pageStart := k,
                              nextPage := t.nextPage + n } (tail ++ [x]) := by
  obtain ⟨y, w, hhead, rfl, hpages⟩ := h.closed ht hidle hleft
  have hwaits : Waits s.push i t.pending [] := by
    rw [hidle]
    exact .idle
  subst hk hn
  rw [← hcount] at hhead hpages hmore hx ⊢
  exact .page hhead hpages hmore rfl hx .nil hprogress hwaits

omit [Sha256] in
/-- A chunk is asked for. -/
theorem Begun.asked (h : Begun s.push i e t tail) (hidle : t.pending = none)
    (hsome : t.payload.marked ≠ [] ∨ t.nextPage ≠ 0) {c : UInt32} {a : Exchange}
    (ha : Asks i c s.push a) :
    Begun s.push i e { t with pending := some c.toNat } (tail ++ [a]) := by
  cases h with
  | head head first idle empty =>
    rcases hsome with h | h
    · exact absurd empty h
    · exact absurd first h
  | @page x h w v z missing cs head pages more next opened turns progress waits =>
    rw [hidle] at waits
    cases waits
    have h := Begun.page (t := { t with pending := some c.toNat }) head pages more next opened turns
      progress (.asked ha)
    simpa using h

omit [Sha256] in
/-- The chunk that was asked for has been transferred. -/
theorem Begun.settled (h : Begun s.push i e t tail) {c : UInt32}
    (hpending : t.pending = some c.toNat) {b : Exchange} (hb : Settles i c s.push b)
    {payload : Payload} {received : Option ReceivedFile}
    (hprogress : ∀ missing cs, Progress missing cs t.payload →
      Progress missing (cs ++ [c]) payload) :
    Begun s.push i e { t with payload := payload, pending := none, received := received }
      (tail ++ [b]) := by
  cases h with
  | head head first idle =>
    rw [hpending] at idle
    cases idle
  | @page x h w v z missing cs head pages more next opened turns progress waits =>
    generalize hp : t.pending = p at waits
    cases waits with
    | idle =>
      rw [hpending] at hp
      cases hp
    -- The chunk under way is the one that is settled.
    | @asked c' a asks =>
      rw [hpending] at hp
      obtain rfl : c = c' := toNat_injective (Option.some.inj hp)
      have h := Begun.page (t := { t with payload := payload, pending := none, received := received })
        head pages more next opened (turns.snoc asks hb) (hprogress _ _ progress) .idle
      simpa using h

omit [Sha256] in
/-- The file of the transfer is done. -/
theorem Talk.closed (ht : t.Coherent s) (h : Talk s (some t) word) (hidle : t.pending = none)
    (hleft : ∀ store left, t.payload = .upload store left → left = [])
    (hcomplete : t.nextPage = t.description.chunkCount) (hi : t.index = i.toNat)
    {y : Exchange} (hy : BlockEnd i s.push y) (hfresh : t.index ∉ s.done) (hsource : s'.source = s.source)
    (hpush : s'.push = s.push) (hdone : s'.done = s.done.insert t.index) :
    Talk s' none (word ++ [y]) := by
  cases h with
  | @amid blocks _ j e tail blocks_ok done file entry begun =>
    obtain rfl : i = j := toNat_injective (hi.symm.trans file.symm)
    -- The block has all its pages, and the last request closes it.
    obtain ⟨x, w, hhead, rfl, hpages⟩ := begun.closed ht hidle hleft
    rw [hcomplete] at hpages
    have hblock := Block.mk hhead hpages hy
    have h : Talk s' none (said (blocks ++ [(i, x :: w ++ [y])])) := by
      refine .between (fun b hb => ?_) ?_
      · rw [hsource, hpush]
        rcases List.mem_append.mp hb with hb | hb
        · exact blocks_ok b hb
        · obtain rfl := List.mem_singleton.mp hb
          exact ⟨e, by rw [← hi]; exact entry, hblock⟩
      · rw [hdone, List.insert_of_not_mem hfresh, hi]
        simp only [files, List.map_append, List.map_cons, List.map_nil] at done ⊢
        exact (List.perm_append_comm).trans (List.Perm.cons _ done)
    simpa [said] using h

omit [Sha256] in
/-- The transfer of a file begins. -/
theorem Talk.opened (h : Talk s state word) (hidle : state = none) {index : UInt32}
    {d : Description} {payload : Payload} {x : Exchange}
    (hentry : s.source.entries[index.toNat]? = some e)
    (hx : BlockHead index e s.push d.chunkCount x) (hempty : payload.marked = []) :
    Talk { s with pending := some index.toNat } (some (newTransfer index.toNat d payload))
      (word ++ [x]) := by
  subst hidle
  cases h with
  | between blocks_ok done => exact .amid blocks_ok done rfl hentry (.head hx rfl rfl hempty)

omit [Sha256] in
/-- The transfer of the file goes on. -/
theorem Talk.goes_on (h : Talk s (some t) word) (hindex : t'.index = t.index)
    (hi : t.index = i.toNat) {x : Exchange}
    (hbegun : ∀ e tail, Begun s.push i e t tail → Begun s.push i e t' (tail ++ [x])) :
    Talk s (some t') (word ++ [x]) := by
  cases h with
  | @amid blocks _ j e tail blocks_ok done file entry begun =>
    obtain rfl : i = j := toNat_injective (hi.symm.trans file.symm)
    rw [List.append_assoc]
    refine .amid blocks_ok done (file.trans hindex.symm) ?_ (hbegun e tail begun)
    rw [hindex]
    exact entry

omit [Sha256] in
/-- A chunk of an upload has been received. -/
theorem Progress.committed {missing cs : List UInt32} {store store' : Store} {left : List Nat}
    {c : UInt32} (h : Progress missing cs (.upload store left)) (hmem : c.toNat ∈ left) :
    Progress missing (cs ++ [c]) (.upload store' (left.filter (· ≠ c.toNat))) := by
  obtain ⟨hnodup, hperm⟩ := h
  have herase : left.filter (· ≠ c.toNat) = left.erase c.toNat := by
    rw [hnodup.erase_eq_filter]
    exact List.filter_congr fun x _ => by by_cases hx : x = c.toNat <;> simp [hx]
  refine ⟨hnodup.filter _, ?_⟩
  rw [herase, List.map_append, List.append_assoc]
  exact (List.Perm.append_left _ (List.perm_cons_erase hmem).symm).trans hperm

omit [Sha256] in
/-- A chunk of a download has been verified. -/
theorem Progress.verified {missing cs : List UInt32} {file : Bytes} {served : List Nat} {c : UInt32}
    (h : Progress missing cs (.download file served)) (hfresh : c.toNat ∉ served) :
    Progress missing (cs ++ [c]) (.download file (served.insert c.toNat)) := by
  obtain ⟨hnodup, hperm⟩ := h
  show (served.insert c.toNat).Nodup ∧ _
  rw [List.insert_of_not_mem hfresh, List.map_append]
  exact ⟨List.nodup_cons.mpr ⟨hfresh, hnodup⟩,
    (List.perm_append_comm).trans (List.Perm.cons _ hperm)⟩

/-! ### One request -/

omit [Sha256] in
/-- HASHES opens a page of an upload. Its missing chunks are numbers of 32 bits, because the file has
no more chunks than that. -/
theorem Talk.hashes (h : Talk s (some t) word) (ht : t.Coherent s) {start : UInt32}
    {page : List Hash} {store : Store} {d : Description} {missing : List Nat}
    (hindex : t.index = i.toNat) (hupload : t.payload = .upload store []) (hidle : t.pending = none)
    (hnext : t.nextPage = start.toNat) (hpage : t.description.setPage start.toNat page = .ok d)
    (hfound : missing.Sublist ((List.range page.length).map (start.toNat + ·))) :
    Talk s (some { t with description := d, payload := .upload store missing,
                          pageStart := start.toNat, nextPage := t.nextPage + page.length })
      (word ++ [(.hashes i start page,
        .message (.missing i start (.ofNat page.length) (missing.map .ofNat)))]) := by
  obtain ⟨hmore, -, hlen, rfl⟩ := Description.setPage_ok.mp hpage
  -- The missing chunks are of the page, each named once.
  have hwithin : ∀ c ∈ missing, start.toNat ≤ c ∧ c < start.toNat + page.length := by
    intro c hc
    obtain ⟨k, hk, rfl⟩ := List.mem_map.mp (hfound.subset hc)
    exact ⟨Nat.le_add_right _ _, Nat.add_lt_add_left (List.mem_range.mp hk) _⟩
  have hsmall : ∀ c ∈ missing, c < 2 ^ 32 := by
    intro c hc
    have h1 := (hwithin c hc).2
    have h2 := t.description.chunkCount_lt
    omega
  have hnodup : missing.Nodup := hfound.nodup
    (List.Nodup.map (fun a b h => Nat.add_left_cancel h) List.nodup_range)
  have hhead : PageHead i start.toNat page.length s.push (missing.map .ofNat)
      (.hashes i start page,
        .message (.missing i start (.ofNat page.length) (missing.map .ofNat))) := by
    rw [ht.pushes hupload]
    refine .hashes rfl rfl fun c hc => ?_
    obtain ⟨k, hk, rfl⟩ := List.mem_map.mp hc
    rw [UInt32.toNat_ofNat', Nat.mod_eq_of_lt (hsmall k hk)]
    exact hwithin k hk
  -- No chunk of the page before is left.
  have hleft : ∀ store' left, t.payload = .upload store' left → left = [] := by
    intro store' left hpayload
    rw [hupload] at hpayload
    cases hpayload
    rfl
  have hprogress : Progress (missing.map .ofNat) [] (.upload store missing) := by
    refine ⟨hnodup, ?_⟩
    rw [map_toNat_ofNat hsmall]
    exact List.Perm.refl _
  refine h.goes_on ?_ hindex fun e tail hb =>
    hb.page_opened ht hidle hleft ?_ hnext hmore hlen hhead hprogress
  · rfl
  · rfl

omit [Sha256] in
/-- HASHES_GET opens a page of a download. -/
theorem Talk.hashesGet (h : Talk s (some t) word) (ht : t.Coherent s) {start : UInt32}
    {page : List Hash} {file : Bytes} {served : List Nat} (hindex : t.index = i.toNat)
    (hdownload : t.payload = .download file served) (hidle : t.pending = none)
    (hnext : t.nextPage = start.toNat) (hpage : t.description.page start.toNat = .ok page) :
    Talk s (some { t with payload := .download file [], pageStart := start.toNat,
                          nextPage := t.nextPage + page.length })
      (word ++ [(.hashesGet i start, .message (.hashes i start page))]) := by
  obtain ⟨hmore, -, hlen⟩ := Description.page_ok hpage
  have hhead : PageHead i start.toNat page.length s.push []
      (.hashesGet i start, .message (.hashes i start page)) := by
    rw [ht.pulls hdownload]
    exact .hashesGet rfl rfl
  -- A pull leaves no chunks to send.
  have hleft : ∀ store left, t.payload = .upload store left → left = [] := by
    intro store left hpayload
    rw [hdownload] at hpayload
    cases hpayload
  have hprogress : Progress [] [] (.download file []) := ⟨List.nodup_nil, List.Perm.refl _⟩
  refine h.goes_on ?_ hindex fun e tail hb =>
    hb.page_opened ht hidle hleft rfl hnext hmore hlen hhead hprogress
  rfl

omit [Sha256] in
/-- CHUNK_BEGIN and CHUNK_GET ask for a chunk of the page. -/
theorem Talk.asked (h : Talk s (some t) word) (hindex : t.index = i.toNat) (hidle : t.pending = none)
    (hsome : t.payload.marked ≠ [] ∨ t.nextPage ≠ 0) {c : UInt32} {a : Exchange}
    (ha : Asks i c s.push a) : Talk s (some { t with pending := some c.toNat }) (word ++ [a]) := by
  refine h.goes_on ?_ hindex fun e tail hb => hb.asked hidle hsome ha
  rfl

omit [Sha256] in
/-- CHUNK_COMMIT ends the transfer of a chunk that was missing. -/
theorem Talk.chunkCommit (h : Talk s (some t) word) (ht : t.Coherent s) {chunk : UInt32}
    {resource : TransferId} {store store' : Store} {missing : List Nat} (hindex : t.index = i.toNat)
    (hupload : t.payload = .upload store missing) (hpending : t.pending = some chunk.toNat) :
    Talk s (some { t with payload := .upload store' (missing.filter (· ≠ chunk.toNat)),
                          pending := none, received := none })
      (word ++ [(.chunkCommit i chunk resource, ok)]) := by
  have hmem : chunk.toNat ∈ missing := by
    have hmarked := (ht.pending _ hpending).2.2
    rw [hupload] at hmarked
    exact hmarked.mpr rfl
  have hsettles : Settles i chunk s.push (.chunkCommit i chunk resource, ok) := by
    rw [ht.pushes hupload]
    exact .chunkCommit resource
  refine h.goes_on ?_ hindex fun e tail hb => hb.settled hpending hsettles fun all cs hp => ?_
  · rfl
  · rw [hupload] at hp
    exact hp.committed hmem

omit [Sha256] in
/-- CHUNK_VERIFIED ends the transfer of a chunk that was not served before. -/
theorem Talk.chunkVerified (h : Talk s (some t) word) (ht : t.Coherent s) {chunk : UInt32}
    {file : Bytes} {served : List Nat} (hindex : t.index = i.toNat)
    (hdownload : t.payload = .download file served) (hpending : t.pending = some chunk.toNat) :
    Talk s (some { t with payload := .download file (served.insert chunk.toNat), pending := none })
      (word ++ [(.chunkVerified i chunk, ok)]) := by
  have hfresh : chunk.toNat ∉ served := by
    have hmarked := (ht.pending _ hpending).2.2
    rw [hdownload] at hmarked
    exact fun hc => Bool.false_ne_true (hmarked.mp hc)
  have hsettles : Settles i chunk s.push (.chunkVerified i chunk, ok) := by
    rw [ht.pulls hdownload]
    exact .chunkVerified
  refine h.goes_on ?_ hindex fun e tail hb => hb.settled hpending hsettles fun all cs hp => ?_
  · rfl
  · rw [hdownload] at hp
    exact hp.verified hfresh

/-- What a request of the owner adds. -/
theorem Talk.serves (hs : s.Coherent) (ht : ∀ t ∈ state, t.Coherent s) (h : Talk s state word)
    (hserves : Serves s state request reply s' state') :
    Talk s' state' (word ++ [(request, reply)]) := by
  cases hserves with
  -- A new file is opened with its description.
  | description push file fresh idle entry described =>
    refine h.opened idle entry ?_ rfl
    rw [push]
    exact .description described.1
  | describe pull planned fresh idle entry scanned described =>
    refine h.opened idle entry ?_ rfl
    rw [pull, ← Description.scan_chunkSize scanned]
    exact .describe described.1
  -- The next page, of a push and of a pull.
  | hashes active file upload idle next page_ok found =>
    subst active
    exact h.hashes (ht _ rfl) file upload idle next page_ok found
  | hashesGet active file_ok download idle next page_ok =>
    subst active
    exact h.hashesGet (ht _ rfl) file_ok download idle next page_ok
  -- A chunk is asked for, or announced.
  | chunkBegin active file upload idle asked =>
    subst active
    refine h.asked file idle (.inl ?_) ?_
    · rw [upload]
      exact List.ne_nil_of_mem asked
    · rw [(ht _ rfl).pushes upload]
      exact .chunkBegin
  | @chunkGet index chunk t file piece served active file_ok download idle fresh first last =>
    subst active
    refine h.asked file_ok idle (.inr (by omega)) ?_
    rw [(ht _ rfl).pulls download]
    exact .chunkGet piece
  -- And it is settled.
  | chunkCommit active file upload pending =>
    subst active
    exact h.chunkCommit (ht _ rfl) file upload pending
  | chunkVerified active file_ok download pending =>
    subst active
    exact h.chunkVerified (ht _ rfl) file_ok download pending
  -- The last request closes the block of the file.
  | @fileCommit index t store active file upload idle complete =>
    subst active
    refine h.closed (ht t rfl) idle ?_ complete file ?_ (hs.pending _ (ht t rfl).file).2 rfl rfl rfl
    · rw [upload]
      rintro _ _ ⟨⟩
      rfl
    · rw [(ht _ rfl).pushes upload]
      exact .fileCommit
  | @fileVerified index t file served active file_ok download idle complete =>
    subst active
    refine h.closed (ht t rfl) idle ?_ complete file_ok ?_ (hs.pending _ (ht t rfl).file).2 rfl rfl
      rfl
    · rw [download]
      rintro _ _ ⟨⟩
    · rw [(ht _ rfl).pulls download]
      exact .fileVerified

omit [Sha256] in
/-- The files that are left after some of them. -/
theorem exists_rest (hs : s.Coherent) {xs : List Nat} (hn : xs.Nodup)
    (hsub : ∀ i ∈ xs, i ∈ s.plan.files) : ∃ rest, (xs ++ rest).Perm s.plan.files ∧
      ∀ j ∈ rest, j < 2 ^ 32 ∧ ∃ e, s.source.entries[j]? = some e ∧ e.size ≤ maxFile := by
  obtain ⟨l, hl, hsublist⟩ := List.subperm_of_subset hn hsub
  obtain ⟨rest, hrest⟩ := hsublist.exists_perm_append
  have hperm : (xs ++ rest).Perm s.plan.files := (hl.symm.append_right rest).trans hrest.symm
  refine ⟨rest, hperm, fun j hj => ?_⟩
  have hfile : j ∈ s.plan.files := hperm.subset (List.mem_append_right _ hj)
  obtain ⟨e, he, htransfers⟩ := (mem_files hs.planned).mp hfile
  have hvalid := (plan_ok.mp hs.planned).1
  have hkind : e.kind = .file := by
    simp only [transfers, Bool.and_eq_true, decide_eq_true_eq] at htransfers
    exact htransfers.1.2
  have hcount := hvalid.count
  have hlt := (List.getElem?_eq_some_iff.mp he).1
  simp only [maxEntries] at hcount
  exact ⟨by omega, e, he, (hvalid.entry e (List.mem_of_getElem? he)).size hkind⟩

omit [Sha256] in
/-- What has been said in a session is the beginning of a conversation. -/
theorem Talk.complete (hs : s.Coherent) (ht : ∀ t ∈ state, t.Coherent s) (h : Talk s state word) :
    ∃ v, Conversation s (word ++ v) := by
  cases h with
  | @between blocks blocks_ok done =>
    cases hreal : s.options.dryRun with
    -- A dry run exchanges no file.
    | true =>
      have hdone := (hs.dry hreal).2.2.2
      rw [hdone] at done
      obtain rfl : blocks = [] := List.map_eq_nil_iff.mp done.eq_nil
      exact ⟨_, .dry hreal⟩
    | false =>
      -- The files that are left get a whole block each.
      obtain ⟨rest, hperm, hsize⟩ := exists_rest hs hs.done.1 hs.done.2
      exact blocks_ok.complete hreal (nodup_files hs.planned)
        ((done.append_right rest).trans hperm) hsize
  | @amid blocks t i e tail blocks_ok done file entry begun =>
    have htc := ht t rfl
    obtain ⟨hfile, hfresh⟩ := hs.pending _ htc.file
    -- First the block that was begun is completed.
    obtain ⟨v, hv⟩ := begun.complete htc
    have hblocks : Blocks s (blocks ++ [(i, tail ++ v)]) := by
      intro b hb
      rcases List.mem_append.mp hb with hb | hb
      · exact blocks_ok b hb
      · obtain rfl := List.mem_singleton.mp hb
        exact ⟨e, by rw [file]; exact entry, hv⟩
    have hnodup : (s.done ++ [t.index]).Nodup :=
      List.nodup_append'.mpr ⟨hs.done.1, List.nodup_singleton _, by simpa using hfresh⟩
    obtain ⟨rest, hperm, hsize⟩ := exists_rest hs hnodup (by
        intro j hj
        rcases List.mem_append.mp hj with hj | hj
        · exact hs.done.2 j hj
        · obtain rfl := List.mem_singleton.mp hj
          exact hfile)
    have hfiles : (files (blocks ++ [(i, tail ++ v)])).Perm (s.done ++ [t.index]) := by
      simp only [files, List.map_append, List.map_cons, List.map_nil, file]
      exact done.append_right _
    obtain ⟨u, hu⟩ := hblocks.complete htc.real (nodup_files hs.planned)
      ((hfiles.append_right rest).trans hperm) hsize
    exact ⟨v ++ u, by simpa [said] using hu⟩

omit [Sha256] in
/-- FINISH is accepted when the conversation is over. -/
theorem Talk.finish (hs : s.Coherent) (h : Talk s none word)
    (hcomplete : s.options.dryRun = false → s.done.length = s.plan.files.length) :
    Conversation s (word ++ [(.common .finish, ok)]) := by
  cases h with
  | @between blocks blocks_ok done =>
    cases hreal : s.options.dryRun with
    | true =>
      have hdone := (hs.dry hreal).2.2.2
      rw [hdone] at done
      obtain rfl : blocks = [] := List.map_eq_nil_iff.mp done.eq_nil
      exact .dry hreal
    | false =>
      have hperm := (List.subperm_of_subset hs.done.1 hs.done.2).perm_of_length_le
        (hcomplete hreal).ge
      exact .full hreal blocks_ok (done.nodup_iff.mpr hs.done.1) (done.trans hperm)

omit [Sha256] in
/-- What has been said does not depend on the rest of the session and of the transfer. -/
theorem Talk.touch (h : Talk s state word) (now : Instant) :
    Talk { s with activity := now } state word := by
  cases h with
  | between blocks_ok done => exact .between blocks_ok done
  | amid blocks_ok done file entry begun => exact .amid blocks_ok done file entry begun

omit [Sha256] in
/-- A delivered file does not change how far the conversation has come. -/
theorem Talk.receive (h : Talk s (some t) word) (file : ReceivedFile) :
    Talk s (some { t with received := some file }) word := by
  cases h with
  | amid blocks_ok done file' entry begun =>
    refine .amid blocks_ok done file' entry ?_
    cases begun with
    | head head first idle empty => exact .head head first idle empty
    | page head pages more next opened turns progress waits =>
      exact .page head pages more next opened turns progress waits

/-- Each request of a transfer that succeeds continues the conversation. -/
theorem kept_talk : Kept Talk where
  start s hs hdone := by
    have hblocks : Blocks s [] := fun _ h => absurd h List.not_mem_nil
    refine .between hblocks ?_
    rw [hdone]
    exact List.Perm.refl _
  serve s s' state state' request reply word hs ht h served := h.serves hs ht served
  touch s state word now h := h.touch now
  receive s t word file h := h.receive file

end

/-! ### The order of the requests -/

/-- A call that answers a request without an error is a START of a free server, or the request
is of the owner of the session. The requests of the owner that were answered so since its
START are then, with this one, the beginning of a conversation. -/
structure InOrder (past : List Occurrence) (e : Occurrence) : Prop where
  start : e.starts = true → e.pre.1.base.session = none
  owner : ∀ connection x, e.answered? = some (connection, x) → e.starts = false →
    ∃ s, e.pre.1.base.session = some s ∧ s.connection = connection ∧
      Recorded past e.pre.1 s ∧
      ∃ rest, Conversation s ((asked (sinceStart past)).map Prod.snd ++ x :: rest)

/-- The conversation depends only on the fixed part of a session. -/
theorem Conversation.of_fixed {s s' : Session} {word : List Exchange} (h : Conversation s word)
    (hfixed : s'.fixed = s.fixed) : Conversation s' word := by
  have hoptions : s'.options = s.options := congrArg (·.options) hfixed
  have hsource : s'.source = s.source := congrArg (·.source) hfixed
  have hpush : s'.push = s.push := congrArg (·.push) hfixed
  have hplan : s'.plan = s.plan := congrArg (·.plan) hfixed
  cases h with
  | dry dry => exact .dry (hoptions ▸ dry)
  | full real blocks_ok once complete =>
    refine .full (hoptions ▸ real) (fun b hb => ?_) once (hplan ▸ complete)
    rw [hsource, hpush]
    exact blocks_ok b hb

/-- The requests that the second server answers without an error follow the order of a
conversation, in every run. -/
theorem accepted_in_order [Sha256] (root : Root) (cache : Cache) (w : Disks) (is : List Input)
    (past : List Occurrence) (e : Occurrence) (fut : List Occurrence)
    (h : events step (.new root cache, w) is = past ++ e :: fut) : InOrder past e := by
  obtain ⟨ht, hnext, he⟩ := session_invariant kept_talk h
  have hturn := step_turns ht.coherent e.input
  rw [he] at hnext ⊢
  generalize e.input = i at hturn hnext
  generalize e.pre = st at ht hturn hnext
  rcases hst : step st i with ⟨o, server', w'⟩
  have hevent : event step st i = ⟨st, i, o, (server', w')⟩ := by
    unfold event
    rw [hst]
  rw [hst] at hturn
  rw [hevent] at hnext ⊢
  -- A call that answers nothing has nothing to show.
  have hsilent (hnone : Occurrence.answered? ⟨st, i, o, (server', w')⟩ = none) :
      InOrder past ⟨st, i, o, (server', w')⟩ := by
    refine ⟨fun hstart => ?_, fun connection x hx => ?_⟩
    · unfold Occurrence.starts at hstart
      rw [hnone] at hstart
      cases hstart
    · rw [hnone] at hx
      cases hx
  cases hturn with
  | @accepted now connection peer permission request reply _ accepts =>
    cases accepts with
    | start accepted =>
      refine ⟨fun _ => ?_, fun _ _ _ hstart => by cases hstart⟩
      cases accepted with
      | start _ _ idle => exact idle
      | serve _ _ _ _ served => cases served
    | @finish s allowed active owner same full idle complete =>
      refine ⟨nofun, ?_⟩
      rintro _ _ ⟨⟩ -
      have hsaid := ht.said s active
      rw [idle] at hsaid
      exact ⟨s, active, owner, ht.recorded s active, [],
        hsaid.finish (ht.coherent.base s active).1 fun hreal => (complete hreal).2⟩
    | @serve s s' _ _ state allowed active owner same full real served =>
      refine ⟨fun hstart => ?_, ?_⟩
      · have hnot := served.not_common
        cases request with
        | common m => exact absurd rfl (hnot m)
        | _ => cases hstart
      rintro _ _ ⟨⟩ -
      obtain ⟨hc, -⟩ := ht.coherent.base s active
      have htalk := ((ht.said s active).touch now).serves (hc.touch now)
        (fun t h => (ht.coherent.transfer t h s active).touch now) served
      obtain ⟨rest, hrest⟩ := htalk.complete (hnext.coherent.base s' rfl).1
        fun t h => hnext.coherent.transfer t h s' rfl
      refine ⟨s, active, owner, ht.recorded s active, rest, ?_⟩
      have hfixed : s.fixed = s'.fixed := served.fixed.symm
      simpa using hrest.of_fixed hfixed
  | refused => exact hsilent rfl
  | ignored => exact hsilent rfl
  | stored => exact hsilent rfl
  | disconnect => exact hsilent rfl
  | touch => exact hsilent rfl
  | expired => exact hsilent rfl
  | kept => exact hsilent rfl

/-- A complete download of the small disk. -/
def smallPull : List Input :=
  [.handle 0 smallConnection smallConnection .read
      (.common (.start false smallOptions "" ⟨[]⟩)),
    .handle 1 smallConnection smallConnection .read (.describe 0 4096),
    .handle 2 smallConnection smallConnection .read (.fileVerified 0),
    .handle 3 smallConnection smallConnection .read (.describe 1 4096),
    .handle 4 smallConnection smallConnection .read (.fileVerified 1),
    .handle 5 smallConnection smallConnection .read (.common .finish)]

/-- A new server that exports a disk with an empty file. -/
def smallServer : Server × Disks :=
  (.new .opened ⟨"export", none⟩, fun v => match v with
    | .tree => smallDisk
    | .cache => .empty)

/-- The events of this run. -/
def smallPulled : List Occurrence := events (@step emptySha) smallServer smallPull

/-- A complete download of the file of two chunks, the last chunk first. -/
def pairDownload : List Input :=
  [.handle 0 smallConnection smallConnection .read
      (.common (.start false smallOptions "" ⟨[]⟩)),
    .handle 1 smallConnection smallConnection .read (.describe 0 4096),
    .handle 2 smallConnection smallConnection .read (.hashesGet 0 0),
    .handle 3 smallConnection smallConnection .read (.chunkGet 0 1),
    .handle 4 smallConnection smallConnection .read (.chunkVerified 0 1),
    .handle 5 smallConnection smallConnection .read (.chunkGet 0 0),
    .handle 6 smallConnection smallConnection .read (.chunkVerified 0 0),
    .handle 7 smallConnection smallConnection .read (.fileVerified 0),
    .handle 8 smallConnection smallConnection .read (.common .finish)]

/-- A new server that exports a disk with a file of two chunks. -/
def pairServer : Server × Disks :=
  (.new .opened ⟨"export", none⟩, fun v => match v with
    | .tree => pairDisk
    | .cache => .empty)

/-- The events of this run. -/
def pairDownloaded : List Occurrence := events (@step pairSha) pairServer pairDownload

/-- The first eight requests of a pull of two chunks are in order, page and chunks included. -/
theorem accepted_in_order_small :
    InOrder (pairDownloaded.take 8) (pairDownloaded.get ⟨8, by decide⟩) :=
  @accepted_in_order pairSha .opened ⟨"export", none⟩ pairServer.2 pairDownload _ _
    (pairDownloaded.drop 9) (by
      show pairDownloaded = _
      rw [List.get_eq_getElem, List.getElem_cons_drop, List.take_append_drop])

/-- Every request of this run is answered. -/
example : (asked pairDownloaded).length = 9 := by decide +kernel

end RrSync.V2

import RrSync.Proofs.Geometry
import RrSync.Proofs.Manifest
import RrSync.Model.EngineV2

/-!
# `RrSync.Spec.Conversation`: the order of the requests of a session

A grammar for what the owner of a session asks after START, and how it is answered. A
`Conversation` has one `Block` for each file of the plan, in any order, and FINISH. The block
of a file has its `Pages`, from the first chunk to the last, and a page the two requests for
each of its chunks.

The lemmas say that what has been begun can be completed, so a conversation can break off
anywhere.
-/

set_option autoImplicit false

namespace RrSync.V2

open Lib

/-- A request and its answer. -/
abbrev Exchange := Message × ServerReply

/-- The request for the chunk `c` of the file `i`, in an upload or in a download. -/
inductive Asks (i c : UInt32) : Bool → Exchange → Prop
  | chunkBegin : Asks i c true (.chunkBegin i c, ok)
  | chunkGet (piece : Bytes) : Asks i c false (.chunkGet i c, .file (.common .ok) piece)

/-- The request that follows when the chunk has been transferred. -/
inductive Settles (i c : UInt32) : Bool → Exchange → Prop
  | chunkCommit (resource : TransferId) : Settles i c true (.chunkCommit i c resource, ok)
  | chunkVerified : Settles i c false (.chunkVerified i c, ok)

/-- The requests for the chunks `cs`, one chunk after another. -/
inductive Turns (push : Bool) (i : UInt32) : List UInt32 → List Exchange → Prop
  | nil : Turns push i [] []
  | snoc {cs : List UInt32} {w : List Exchange} {c : UInt32} {a b : Exchange}
      (turns : Turns push i cs w) (asks : Asks i c push a) (settles : Settles i c push b) :
      Turns push i (cs ++ [c]) (w ++ [a, b])

/-- The request for the page of `n` chunks from `start` on. In an upload the answer names the
chunks that are missing. -/
inductive PageHead (i : UInt32) (start n : Nat) : Bool → List UInt32 → Exchange → Prop
  | hashes {first : UInt32} {page : List Hash} {missing : List UInt32}
      (first_eq : first.toNat = start) (length : page.length = n)
      (within : ∀ c ∈ missing, start ≤ c.toNat ∧ c.toNat < start + n) :
      PageHead i start n true missing
        (.hashes i first page, .message (.missing i first (.ofNat n) missing))
  | hashesGet {first : UInt32} {page : List Hash} (first_eq : first.toNat = start)
      (length : page.length = n) :
      PageHead i start n false [] (.hashesGet i first, .message (.hashes i first page))

/-- The chunks `cs` of a page are transferred: in an upload each missing one, once; in a
download any of the page, each at most once. -/
def Wanted (push : Bool) (start n : Nat) (missing cs : List UInt32) : Prop :=
  if push then cs.Perm missing
  else cs.Nodup ∧ ∀ c ∈ cs, start ≤ c.toNat ∧ c.toNat < start + n

/-- One page: its head, the turns of the chunks it wants, and nothing else. -/
inductive Page (push : Bool) (i : UInt32) (start n : Nat) : List Exchange → Prop
  | mk {x : Exchange} {w : List Exchange} {missing cs : List UInt32}
      (head : PageHead i start n push missing x) (turns : Turns push i cs w)
      (wanted : Wanted push start n missing cs) : Page push i start n (x :: w)

/-- The pages from the first chunk up to a later one, of `count` chunks: they start at 0,
128, 256 and so on. -/
inductive Pages (push : Bool) (i : UInt32) (count : Nat) : Nat → List Exchange → Prop
  | start : Pages push i count 0 []
  | page {k : Nat} {w v : List Exchange} (before : Pages push i count k w) (more : k < count)
      (page : Page push i k (min (count - k) pageChunks) v) :
      Pages push i count (k + min (count - k) pageChunks) (w ++ v)

/-- The request that begins the transfer of the file `i`, which has `count` chunks. -/
inductive BlockHead (i : UInt32) (e : Entry) : Bool → Nat → Exchange → Prop
  | description {d : Description} (size : e.size = d.size) :
      BlockHead i e true d.chunkCount (.description i d, ok)
  | describe {d : Description} (size : e.size = d.size) :
      BlockHead i e false d.chunkCount (.describe i d.chunkSize, .message (.description i d))

/-- The request that ends it. -/
inductive BlockEnd (i : UInt32) : Bool → Exchange → Prop
  | fileCommit : BlockEnd i true (.fileCommit i, ok)
  | fileVerified : BlockEnd i false (.fileVerified i, ok)

/-- The requests for one file. -/
inductive Block (push : Bool) (i : UInt32) (e : Entry) : List Exchange → Prop
  | mk {count : Nat} {x y : Exchange} {w : List Exchange} (head : BlockHead i e push count x)
      (pages : Pages push i count count w) (last : BlockEnd i push y) :
      Block push i e (x :: w ++ [y])

/-- The blocks of some files of a session. -/
def Blocks (s : Session) (blocks : List (UInt32 × List Exchange)) : Prop :=
  ∀ b ∈ blocks, ∃ e, s.source.entries[b.1.toNat]? = some e ∧ Block s.push b.1 e b.2

/-- The exchanges of a list of blocks, one after the other. -/
def said (blocks : List (UInt32 × List Exchange)) : List Exchange := blocks.flatMap Prod.snd

/-- The files of a list of blocks, in order. -/
def files (blocks : List (UInt32 × List Exchange)) : List Nat := blocks.map fun b => b.1.toNat

/-- What the owner asks after START, to the end of the session. -/
inductive Conversation (s : Session) : List Exchange → Prop
  | dry (dry : s.options.dryRun = true) : Conversation s [(.common .finish, ok)]
  | full {blocks : List (UInt32 × List Exchange)} (real : s.options.dryRun = false)
      (blocks_ok : Blocks s blocks) (once : (files blocks).Nodup)
      (complete : (files blocks).Perm s.plan.files) :
      Conversation s (said blocks ++ [(.common .finish, ok)])

/-! ### What has been begun can be completed -/

section
variable {push : Bool} {i : UInt32} {count k n : Nat} {cs : List UInt32} {w : List Exchange}
  {e : Entry}

/-- Every chunk can be asked for. -/
theorem exists_asks (push : Bool) (i c : UInt32) : ∃ a, Asks i c push a := by
  cases push with
  | true => exact ⟨_, .chunkBegin⟩
  | false => exact ⟨_, .chunkGet []⟩

/-- Every chunk that was asked for can be settled. -/
theorem exists_settles (push : Bool) (i c : UInt32) : ∃ b, Settles i c push b := by
  cases push with
  | true => exact ⟨_, .chunkCommit (Vector.replicate 32 0)⟩
  | false => exact ⟨_, .chunkVerified⟩

/-- Turns that have begun can go on with more chunks. -/
theorem Turns.append (h : Turns push i cs w) (more : List UInt32) :
    ∃ v, Turns push i (cs ++ more) (w ++ v) := by
  induction more generalizing cs w with
  | nil => exact ⟨[], by simpa using h⟩
  | cons c more ih =>
    obtain ⟨a, ha⟩ := exists_asks push i c
    obtain ⟨b, hb⟩ := exists_settles push i c
    obtain ⟨v, hv⟩ := ih (h.snoc ha hb)
    exact ⟨[a, b] ++ v, by simpa using hv⟩

/-- Every page can be negotiated. -/
theorem exists_page (hk : k < 2 ^ 32) : ∃ v, Page push i k n v := by
  have hfirst : (UInt32.ofNat k).toNat = k := by
    rw [UInt32.toNat_ofNat']
    exact Nat.mod_eq_of_lt hk
  have hpage : (List.replicate n zeroHash).length = n := List.length_replicate
  cases push with
  | true => exact ⟨_, .mk (.hashes hfirst hpage fun _ h => absurd h List.not_mem_nil) .nil (List.Perm.refl [])⟩
  | false => exact ⟨_, .mk (.hashesGet hfirst hpage) .nil 
      ⟨List.nodup_nil, fun _ h => absurd h List.not_mem_nil⟩⟩

/-- Pages that have begun can be completed. -/
theorem Pages.complete (h : Pages push i count k w) (hk : k ≤ count) (hcount : count < 2 ^ 32) :
    ∃ v, Pages push i count count (w ++ v) := by
  induction hn : count - k using Nat.strongRecOn generalizing k w with
  | ind n ih =>
    by_cases hlt : k < count
    · obtain ⟨u, hu⟩ := @exists_page push i k (min (count - k) pageChunks) (by omega)
      obtain ⟨v, hv⟩ := ih _ (by simp only [pageChunks] at *; omega) (h.page hlt hu)
        (by omega) rfl
      exact ⟨u ++ v, by simpa using hv⟩
    · obtain rfl : k = count := by omega
      exact ⟨[], by simpa using h⟩

/-- Every file can be ended. -/
theorem exists_blockEnd (push : Bool) (i : UInt32) : ∃ y, BlockEnd i push y := by
  cases push with
  | true => exact ⟨_, .fileCommit⟩
  | false => exact ⟨_, .fileVerified⟩

/-- A block with some pages. -/
theorem Pages.block {x : Exchange} (head : BlockHead i e push count x)
    (h : Pages push i count k w) (hk : k ≤ count) (hcount : count < 2 ^ 32) :
    ∃ v, Block push i e (x :: w ++ v) := by
  obtain ⟨v, hv⟩ := h.complete hk hcount
  obtain ⟨y, hy⟩ := exists_blockEnd push i
  exact ⟨v ++ [y], by simpa using Block.mk head hv hy⟩

/-- Every file that is not too large has a block. -/
theorem exists_block (push : Bool) (i : UInt32) (he : e.size ≤ maxFile) :
    ∃ w, Block push i e w := by
  let d : Description := ⟨e.size, 4096, zeroHash, [], by decide, by decide, he⟩
  have hhead : ∃ x, BlockHead i e push d.chunkCount x := by
    cases push with
    | true => exact ⟨_, .description (d := d) rfl⟩
    | false => exact ⟨_, .describe (d := d) rfl⟩
  obtain ⟨x, hx⟩ := hhead
  obtain ⟨v, hv⟩ := Pages.start.block hx (Nat.zero_le _) d.chunkCount_lt
  exact ⟨_, hv⟩

/-- Blocks of some files of the plan can be followed by blocks of the others. -/
theorem Blocks.complete {s : Session} {blocks : List (UInt32 × List Exchange)}
    (h : Blocks s blocks) (hreal : s.options.dryRun = false) {rest : List Nat}
    (hnodup : s.plan.files.Nodup) (hrest : (files blocks ++ rest).Perm s.plan.files)
    (hsize : ∀ j ∈ rest, j < 2 ^ 32 ∧ ∃ e, s.source.entries[j]? = some e ∧ e.size ≤ maxFile) :
    ∃ v, Conversation s (said blocks ++ v) := by
  induction rest generalizing blocks with
  | nil =>
    rw [List.append_nil] at hrest
    exact ⟨_, .full hreal h (hrest.nodup_iff.mpr hnodup) hrest⟩
  | cons j rest ih =>
    obtain ⟨hj, e, he, hmax⟩ := hsize j (by simp)
    -- the next file: its index fits the word, so its block can be added
    obtain ⟨w, hw⟩ := exists_block s.push (.ofNat j) hmax
    have hofNat : (UInt32.ofNat j).toNat = j := by
      rw [UInt32.toNat_ofNat']
      exact Nat.mod_eq_of_lt hj
    have hblocks : Blocks s (blocks ++ [(.ofNat j, w)]) := by
      intro b hb
      rcases List.mem_append.mp hb with hb | hb
      · exact h b hb
      · obtain rfl := List.mem_singleton.mp hb
        exact ⟨e, by rw [hofNat]; exact he, hw⟩
    obtain ⟨v, hv⟩ := ih hblocks (by simpa [files, hofNat, List.append_assoc] using hrest)
      fun k hk => hsize k (by simp [hk])
    exact ⟨w ++ v, by simpa [said] using hv⟩

end

end RrSync.V2

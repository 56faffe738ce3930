import RrSync.Model.Engine
import RrSync.Proofs.Scannable

/-!
# `RrSync.Proofs.Reading`: what was scanned can be read

A scan gives each of its entries a stamp. As long as the tree stays as it is, the checks against
these stamps succeed (`unchanged_run`, `checkSource_run`), and a file is read as it is
(`snapshot_run`), with the size and the hash of its entry (`fileAt_bytes`).
-/

set_option autoImplicit false

namespace RrSync

open Lib

/-- The content of the file of an entry. -/
def Root.fileAt (root : Root) (t : Tree) (e : Entry) : Bytes :=
  ((t.get (root.pathOf e.path)).map fun n => n.body.data).getD []

section
variable [Sha256] {root : Root} {checksum : Bool} {w : Disk} {s : Scan} {e : Entry}

omit [Sha256] in
/-- Reading the metadata of an object that is there. -/
theorem metadata_run {path : String} {n : Node} {p : String} (hfull : root.full path = .ok p)
    (hn : w.tree.get (root.pathOf path) = some n) :
    (root.metadata path).run exec w = (.ok n.metadata, w) := by
  rw [run_metadata hfull, Tree.find_ok.mpr hn]

omit [Sha256] in
/-- The check of a stamp passes while the object is the same. -/
theorem ensureUnchanged_run {path : String} {n : Node} {p : String}
    (hfull : root.full path = .ok p) (hn : w.tree.get (root.pathOf path) = some n) :
    (ensureUnchanged root path (Stamp.of n.metadata)).run exec w = (.ok (), w) := by
  unfold ensureUnchanged
  rw [Prog.run_bind_ok (metadata_run hfull hn), if_neg (not_not.mpr rfl)]
  rfl

variable (hs : s.Of checksum root w.tree) (he : e ∈ s.manifest.entries)
include hs he

/-- The stamp of an entry, which still fits. -/
theorem unchanged_run (htakes : root.Takes e.path) : ∃ stamp, s.stamp e.path = .ok stamp ∧
    (ensureUnchanged root e.path stamp).run exec w = (.ok (), w) := by
  obtain ⟨n, hn, hlookup⟩ := hs.stamp e he
  refine ⟨Stamp.of n.metadata, ?_, ensureUnchanged_run htakes.full hn⟩
  unfold Scan.stamp
  rw [hlookup]

/-- What is listed as a file is one on the disk, with the content that the entry describes. -/
theorem fileAt_of_kind (hk : e.kind = .file) : ∃ n, w.tree.get (root.pathOf e.path) = some n ∧
    n.body = .file (root.fileAt w.tree e) ∧ e.Describes checksum n := by
  obtain ⟨n, hn, hd⟩ := hs.mirrors.entry e he
  refine ⟨n, hn, ?_, hd⟩
  have hfile : n.metadata.isFile = true := by
    have hkind := hd.kind
    rw [hk] at hkind
    unfold kindOf at hkind
    split at hkind
    · cases hkind
    · split at hkind
      · assumption
      · split at hkind <;> cases hkind
  unfold Root.fileAt
  rw [hn]
  rcases n with ⟨body, mtime, tag⟩
  cases body <;> first | rfl | cases hfile

/-- A file has the size and the hash of its entry. -/
theorem fileAt_bytes (hk : e.kind = .file) : (root.fileAt w.tree e).length = e.size ∧
    (checksum = true → e.hash = some (digest (root.fileAt w.tree e))) := by
  obtain ⟨n, -, hb, hd⟩ := fileAt_of_kind hs he hk
  have hsize := hd.size
  rw [if_pos hk, hb] at hsize
  refine ⟨hsize.symm, fun hc => ?_⟩
  have hhash := hd.hash hk hc
  rwa [hb] at hhash

/-- A file is read as it is. -/
theorem snapshot_run (hk : e.kind = .file) (htakes : root.Takes e.path) :
    ∃ stamp, s.stamp e.path = .ok stamp ∧
      (snapshot root e.path stamp).run exec w = (.ok (root.fileAt w.tree e), w) ∧
      (ensureUnchanged root e.path stamp).run exec w = (.ok (), w) := by
  obtain ⟨n, hn, hb, -⟩ := fileAt_of_kind hs he hk
  obtain ⟨n', hn', hlookup⟩ := hs.stamp e he
  obtain rfl := Option.some.inj (hn.symm.trans hn')
  refine ⟨Stamp.of n.metadata, ?_, ?_, ensureUnchanged_run htakes.full hn⟩
  · unfold Scan.stamp
    rw [hlookup]
  have hopen : (root.openFile e.path).run exec w = (.ok (n.metadata, n.body.data), w) := by
    refine Prod.ext (openFile_ok.mpr ⟨⟨_, htakes.full⟩, n, hn, ?_, rfl⟩)
      ((quiet_of_reads calls_openFile).run_snd w)
    rw [hb]
    rfl
  have hdata : n.body.data = root.fileAt w.tree e := by
    rw [hb]
    rfl
  have hlen : (Stamp.of n.metadata).size = (root.fileAt w.tree e).length := by
    show n.body.len = _
    rw [hb]
    rfl
  -- One byte more than the size is read, which finds nothing more.
  have htake : n.body.data.take ((Stamp.of n.metadata).size + 1) = root.fileAt w.tree e := by
    rw [hdata, List.take_of_length_le (by rw [hlen]; omega)]
  unfold snapshot
  rw [Prog.run_bind_ok hopen]
  dsimp only
  rw [if_neg (not_not.mpr rfl), htake, if_neg (not_not.mpr hlen.symm),
    Prog.run_bind_ok (metadata_run htakes.full hn), if_neg (not_not.mpr rfl)]
  rfl

end

/-- A tree that is as it was scanned passes the last check of its side. -/
theorem checkSource_run [Sha256] {root : Root} {checksum : Bool} {w : Disk} {s : Scan}
    (hscan : (scan root checksum).run exec w = (.ok s, w))
    (htakes : ∀ e ∈ s.manifest.entries, e.kind ≠ .guarded → root.Takes e.path) :
    (checkSource root s).run exec w = (.ok (), w) := by
  have hok : ((scan root checksum).run exec w).1 = .ok s := congrArg Prod.fst hscan
  have hs := scan_sound hok
  -- The root has its old stamp, if it was there.
  have hroot : ∀ stamp, s.stamps.lookup "" = some stamp →
      (ensureUnchanged root "" stamp).run exec w = (.ok (), w) := by
    intro stamp hlookup
    obtain ⟨b, -, hcase⟩ := scan_ok.mp hok
    cases b with
    | false =>
      obtain rfl : s = ⟨⟨[]⟩, []⟩ := hcase
      cases hlookup
    | true =>
      obtain ⟨r, -, m, hm, -, rfl⟩ : ∃ r, _ ∧ ∃ m, _ := hcase
      obtain ⟨⟨p, hfull⟩, n, hn, rfl⟩ := metadata_ok.mp hm
      obtain rfl := Option.some.inj hlookup
      exact ensureUnchanged_run hfull hn
  let turn (e : Entry) : FsM Unit := do
    if e.kind ≠ .guarded then
      let stamp ← (s.stamp e.path : Except Error Stamp)
      ensureUnchanged root e.path stamp
  -- So has every object that is not guarded.
  have hturn (pre : List Entry) (e : Entry) (post : List Entry) (w' : Disk)
      (hes : s.manifest.entries = pre ++ e :: post) (hw : w' = w) :
      ∃ w'', (turn e).run exec w' = (.ok (), w'') ∧ w'' = w := by
    subst hw
    have he : e ∈ s.manifest.entries := by simp [hes]
    refine ⟨w', ?_, rfl⟩
    by_cases hk : e.kind = .guarded
    · show (ite _ _ _ : FsM Unit).run exec w' = _
      rw [if_neg (not_not.mpr hk)]
      rfl
    · obtain ⟨stamp, hstamp, hunchanged⟩ := unchanged_run hs he (htakes e he hk)
      show (ite _ _ _ : FsM Unit).run exec w' = _
      rw [if_pos hk, hstamp]
      exact hunchanged
  obtain ⟨w', hloop, rfl⟩ := Prog.run_forM_of_turns (fun _ w' => w' = w) rfl hturn
  unfold checkSource
  cases hlookup : s.stamps.lookup "" with
  | none => exact hloop
  | some stamp => exact Prog.run_bind_eq_ok.mpr ⟨(), w', hroot stamp hlookup, hloop⟩

end RrSync

import Mathlib.Data.List.Enum
import RrSync.Proofs.Manifest

/-!
# `RrSync.Proofs.Plan`: what the planner computes

The loop of `plan` decides entry by entry, so the plan is a list of filters of the source
manifest. `planEntry_ok` is the inversion of one turn of the loop, and `plan_ok` puts the
turns together: `plan` succeeds exactly when both manifests are valid and every type
conflict is allowed, and the plan is then `planOf`.
-/

set_option autoImplicit false

namespace RrSync

open Lib

section
variable (destination : Manifest) (options : Options) (guarded : List String)

/-- The entry is not at or below a protected one. -/
def live (e : Entry) : Bool := !guarded.any fun s => below e.path s

/-- The destination has an object of another kind at the path of the entry. -/
def clashes (e : Entry) : Bool :=
  live guarded e && (destination.get? e.path).any fun old => old.kind ≠ e.kind

/-- The entry is a directory of the plan. -/
def makes (e : Entry) : Bool := live guarded e && e.kind = .directory

/-- The entry is a file of the plan. -/
def transfers (e : Entry) : Bool :=
  live guarded e && e.kind = .file && !(destination.get? e.path).any (sameFile options e)

/-- The planner does not refuse the entry. -/
def Allowed (e : Entry) : Prop :=
  clashes destination guarded e = true →
    options.delete = true ∧ guarded.any (fun s => below s e.path) = false

/-- The objects that a type conflict removes, children before parents. -/
def conflictEntries (path : String) : List Entry :=
  (destination.entries.filter fun x => below x.path path).reverse

/-- What the plan notes for an entry whose place holds an object of the other kind. -/
def conflictOf (e : Entry) : Option (String × List Entry) :=
  if clashes destination guarded e then some (e.path, conflictEntries destination e.path)
  else none

/-- The operation that the plan lists for an entry of the source. -/
def actionOf (e : Entry) : Action :=
  if !live guarded e then .skip
  else match e.kind with
    | .directory =>
      if (destination.get? e.path).any fun x => x.kind = .directory then .skip else .mkdir
    | .file =>
      if (destination.get? e.path).any (sameFile options e) then .skip
      else if (destination.get? e.path).isSome then .update else .create
    | .guarded => .skip

variable {destination options guarded} {p p' : Plan} {e : Entry} {i : Nat}

/-- The step for an entry that meets an old one succeeds when the options allow it, and notes the
conflict if there is one. -/
theorem planConflict_ok {old : Entry} (hlive : live guarded e = true)
    (hold : destination.get? e.path = some old) :
    planConflict destination options guarded p e old = .ok p' ↔
      Allowed destination options guarded e ∧
        { p with conflicts := p.conflicts ++ (conflictOf destination guarded e).toList } = p' := by
  have hc : clashes destination guarded e = decide (old.kind ≠ e.kind) := by
    simp [clashes, hlive, hold]
  unfold planConflict Allowed conflictOf conflictEntries
  rw [hc]
  by_cases hk : old.kind = e.kind
  · simp [hk, pure_eq_ok]
  · simp only [hk, if_false, ite_throw_bind_eq_ok, pure_eq_ok, Bool.not_eq_true, ne_eq,
      not_false_eq_true, decide_true, if_true, Option.toList_some, true_imp_iff, and_assoc,
      Bool.not_eq_false]

/-- The step for one entry, as what it adds to each list of the plan. -/
theorem planEntry_ok : planEntry destination options guarded p e i = .ok p' ↔
    Allowed destination options guarded e ∧
      ({ operations := p.operations ++ [⟨actionOf destination options guarded e, e.path⟩]
         files := p.files ++ if transfers destination options guarded e then [i] else []
         directories := p.directories ++ if makes guarded e then [i] else []
         removals := p.removals
         conflicts := p.conflicts ++ (conflictOf destination guarded e).toList } : Plan) = p' := by
  unfold planEntry
  -- A guarded path is passed over. Otherwise the old entry at the path decides.
  by_cases hlive : live guarded e = true
  · have hg : (guarded.any fun s => below e.path s) = false := by
      simpa [live] using hlive
    rw [hg]
    simp only [Bool.false_eq_true, if_false]
    cases hold : destination.get? e.path with
    | none =>
      have hc : clashes destination guarded e = false := by simp [clashes, hold]
      cases hk : e.kind <;>
        simp [Allowed, actionOf, transfers, makes, conflictOf, hc, hold, hlive, hk, pure_eq_ok]
    | some old =>
      simp only [bind_eq_ok, planConflict_ok hlive hold]
      -- The conflict is checked before the kind is looked at.
      cases hk : e.kind with
      | directory =>
        simp [actionOf, transfers, makes, hold, hlive, hk, pure_eq_ok]
      | guarded =>
        simp [actionOf, transfers, makes, hold, hlive, hk, pure_eq_ok]
      | file =>
        cases hs : sameFile options e old <;>
          simp [actionOf, transfers, makes, hold, hlive, hk, hs, pure_eq_ok]
  · have hg : (guarded.any fun s => below e.path s) = true := by
      simpa [live] using hlive
    rw [hg]
    simp [Allowed, actionOf, transfers, makes, conflictOf, clashes, hlive, pure_eq_ok]

/-- The loop over the entries `xs` adds what each of them calls for. -/
theorem planEntries_ok {xs : List (Entry × Nat)} :
    xs.foldlM (fun p e => planEntry destination options guarded p e.1 e.2) p = .ok p' ↔
      (∀ e ∈ xs, Allowed destination options guarded e.1) ∧
      ({ operations := p.operations ++
           xs.map fun e => ⟨actionOf destination options guarded e.1, e.1.path⟩
         files := p.files ++
           (xs.filter fun e => transfers destination options guarded e.1).map Prod.snd
         directories := p.directories ++ (xs.filter fun e => makes guarded e.1).map Prod.snd
         removals := p.removals
         conflicts := p.conflicts ++ xs.filterMap fun e => conflictOf destination guarded e.1 }
        : Plan) = p' := by
  induction xs generalizing p with
  | nil => simp [pure_eq_ok]
  | cons x xs ih =>
    simp only [List.foldlM_cons, bind_eq_ok, planEntry_ok, and_assoc, exists_and_left,
      exists_eq_left', ih, List.forall_mem_cons]
    refine and_congr_right fun _ => and_congr_right fun _ => ?_
    -- Each list has grown by what the first entry adds, or not.
    cases h1 : transfers destination options guarded x.1 <;> cases h2 : makes guarded x.1 <;>
      cases h3 : conflictOf destination guarded x.1 <;>
      simp [h1, h2, h3]

end

/-! ### The plan -/

section
variable (source destination : Manifest) (options : Options)

/-- The second loop of `plan` removes the destination entry `e`. -/
def removes (e : Entry) : Bool :=
  let guarded := guardedPaths source destination
  (source.get? e.path).isNone
    && !guarded.any (fun s => below e.path s || below s e.path)
    && !source.entries.any fun c => clashes destination guarded c && below e.path c.path

/-- The plan as a whole. -/
def planOf : Plan :=
  let guarded := guardedPaths source destination
  let xs := source.entries.zipIdx
  let removals := if options.delete then
    destination.entries.reverse.filter (removes source destination) else []
  { operations := xs.map (fun e => ⟨actionOf destination options guarded e.1, e.1.path⟩) ++
      removals.map fun e => ⟨.delete, e.path⟩
    files := (xs.filter fun e => transfers destination options guarded e.1).map Prod.snd
    directories := (xs.filter fun e => makes guarded e.1).map Prod.snd
    removals := removals
    conflicts := xs.filterMap fun e => conflictOf destination guarded e.1 }

variable {source destination options}

/-- A path is below a conflict of the plan when it is below an entry that clashes. -/
theorem any_conflicts {e : Entry} {guarded : List String} :
    (source.entries.zipIdx.filterMap fun x => conflictOf destination guarded x.1).any
        (fun s => below e.path s.1)
      = source.entries.any fun c => clashes destination guarded c && below e.path c.path := by
  rw [Bool.eq_iff_iff]
  simp only [List.any_eq_true, List.mem_filterMap, conflictOf, Bool.and_eq_true]
  constructor
  · rintro ⟨s, ⟨⟨c, i⟩, hc, h⟩, hb⟩
    split at h
    · next hcl =>
      obtain rfl := Option.some.inj h
      exact ⟨c, List.fst_mem_of_mem_zipIdx hc, hcl, hb⟩
    · exact absurd h (by simp)
  · rintro ⟨c, hc, hcl, hb⟩
    obtain ⟨i, hi⟩ := List.getElem?_of_mem hc
    exact ⟨_, ⟨(c, i), List.mk_mem_zipIdx_iff_getElem?.mpr hi, if_pos hcl⟩, hb⟩

/-- `plan` succeeds on valid manifests whose type conflicts are all allowed. -/
theorem plan_ok {p : Plan} : plan source destination options = .ok p ↔
    source.Valid options.checksum ∧ destination.Valid options.checksum ∧
      (∀ e ∈ source.entries, Allowed destination options (guardedPaths source destination) e) ∧
      planOf source destination options = p := by
  simp only [plan, bind_eq_ok, Manifest.validate_ok, exists_const, planEntries_ok, and_assoc,
    exists_and_left, exists_eq_left', List.nil_append]
  refine and_congr_right fun _ => and_congr_right fun _ => and_congr ?_ ?_
  · exact List.forall_mem_zipIdx'.trans List.forall_mem_iff_forall_getElem.symm
  · unfold planOf
    cases options.delete with
    | false => simp [pure_eq_ok]
    | true =>
      -- An entry is kept below a conflict that the plan has, which is one that clashes.
      have hr : ∀ (p : Plan), p.conflicts = (source.entries.zipIdx.filterMap fun x =>
          conflictOf destination (guardedPaths source destination) x.1) →
          (destination.entries.reverse.filter
            fun e => ¬ keeps source (guardedPaths source destination) p e)
          = destination.entries.reverse.filter (removes source destination) := by
        intro p hp
        refine List.filter_congr fun e _ => ?_
        unfold keeps removes
        rw [hp, any_conflicts, Bool.eq_iff_iff]
        simp only [decide_eq_true_eq, Bool.and_eq_true, Bool.not_eq_true', Bool.or_eq_true, not_or,
          Bool.not_eq_true, Option.isSome_eq_false_iff]
      simp only [if_true, pure_eq_ok]
      rw [hr _ rfl]

/-! ### Reading the plan -/

variable {p : Plan} (hp : plan source destination options = .ok p)

include hp in
/-- The conflicts of a plan are those of its entries that clash. -/
theorem mem_conflicts {path : String} {entries : List Entry} : (path, entries) ∈ p.conflicts ↔
    ∃ e ∈ source.entries, clashes destination (guardedPaths source destination) e = true ∧
      e.path = path ∧ conflictEntries destination path = entries := by
  obtain ⟨-, -, -, rfl⟩ := plan_ok.mp hp
  simp only [planOf, List.mem_filterMap, conflictOf]
  constructor
  · rintro ⟨⟨e, i⟩, he, h⟩
    split at h
    · next hc =>
      obtain ⟨rfl, rfl⟩ := Prod.mk.inj (Option.some.inj h)
      exact ⟨e, List.fst_mem_of_mem_zipIdx he, hc, rfl, rfl⟩
    · exact absurd h (by simp)
  · rintro ⟨e, he, hc, rfl, rfl⟩
    obtain ⟨i, hi⟩ := List.getElem?_of_mem he
    exact ⟨(e, i), List.mk_mem_zipIdx_iff_getElem?.mpr hi, if_pos hc⟩

include hp in
/-- The conflicts of the plan are the entries that clash. -/
theorem conflict?_eq {e : Entry} (he : e ∈ source.entries) : p.conflict? e.path =
    if clashes destination (guardedPaths source destination) e
    then some (conflictEntries destination e.path) else none := by
  have hs := (plan_ok.mp hp).1
  unfold Plan.conflict?
  cases hl : p.conflicts.lookup e.path with
  | none =>
    rw [if_neg]
    intro hc
    have := List.lookup_eq_none_iff.mp hl _ ((mem_conflicts hp).mpr ⟨e, he, hc, rfl, rfl⟩)
    simp at this
  | some entries =>
    obtain ⟨l, r, hlr, -⟩ := List.lookup_eq_some_iff.mp hl
    have hmem : (e.path, entries) ∈ p.conflicts := by simp [hlr]
    obtain ⟨e', he', hc, hpath, rfl⟩ := (mem_conflicts hp).mp hmem
    obtain rfl := hs.eq_of_path he' he hpath
    rw [if_pos hc]

include hp in
/-- The files of a plan are the entries that have to be transferred. -/
theorem mem_files {i : Nat} : i ∈ p.files ↔ ∃ e, source.entries[i]? = some e ∧
    transfers destination options (guardedPaths source destination) e = true := by
  obtain ⟨-, -, -, rfl⟩ := plan_ok.mp hp
  simp only [planOf, List.mem_map, List.mem_filter, Prod.exists, exists_eq_right,
    List.mk_mem_zipIdx_iff_getElem?]

include hp in
/-- The index of a file is one of the source. -/
theorem file_lt {i : Nat} (hi : i ∈ p.files) : i < source.entries.length := by
  obtain ⟨e, he, -⟩ := (mem_files hp).mp hi
  exact (List.getElem?_eq_some_iff.mp he).1

include hp in
/-- No file is in the plan twice. -/
theorem nodup_files : p.files.Nodup := by
  obtain ⟨-, -, -, rfl⟩ := plan_ok.mp hp
  have hsnd : (source.entries.zipIdx.map Prod.snd).Nodup := by
    rw [List.zipIdx_map_snd]
    exact List.nodup_range'
  exact hsnd.sublist (List.filter_sublist.map _)

include hp in
/-- The directories of a plan are the entries that have to be made. -/
theorem mem_directories {i : Nat} : i ∈ p.directories ↔ ∃ e, source.entries[i]? = some e ∧
    makes (guardedPaths source destination) e = true := by
  obtain ⟨-, -, -, rfl⟩ := plan_ok.mp hp
  simp only [planOf, List.mem_map, List.mem_filter, Prod.exists, exists_eq_right,
    List.mk_mem_zipIdx_iff_getElem?]

include hp in
/-- The index of a directory is one of the source. -/
theorem directory_lt {i : Nat} (hi : i ∈ p.directories) : i < source.entries.length := by
  obtain ⟨e, he, -⟩ := (mem_directories hp).mp hi
  exact (List.getElem?_eq_some_iff.mp he).1

include hp in
/-- The removals of a plan are the entries that the source lacks, with the option only. -/
theorem mem_removals {x : Entry} : x ∈ p.removals ↔
    options.delete = true ∧ x ∈ destination.entries ∧ removes source destination x = true := by
  obtain ⟨-, -, -, rfl⟩ := plan_ok.mp hp
  unfold planOf
  cases options.delete <;> simp

end
end RrSync

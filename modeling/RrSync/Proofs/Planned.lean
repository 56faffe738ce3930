import RrSync.Proofs.Phases

/-!
# `RrSync.Proofs.Planned`: what the lists of a plan look like

A run goes through the lists of a plan in their order and removes without a further look at the
order. `Plan.WellFormed` collects what it relies on: indices that increase, removals that come
before the directories they are in, and conflicts that do not overlap. `plan_wellFormed` shows
that every plan is so.
-/

set_option autoImplicit false

namespace RrSync

open Lib

/-- What a plan has to be for a run to go through its lists as they are. -/
structure Plan.WellFormed (source destination : Manifest) (p : Plan) : Prop where
  files : p.files.Pairwise (· < ·)
  file : ∀ i ∈ p.files, ∃ e, source.entries[i]? = some e ∧ e.kind = .file
  directories : p.directories.Pairwise (· < ·)
  directory : ∀ i ∈ p.directories, ∃ e, source.entries[i]? = some e ∧ e.kind = .directory
  removals : p.removals.Pairwise fun a b => b.path.utf8 < a.path.utf8
  /-- No source path is removed, and nothing above one. -/
  spared : ∀ x ∈ p.removals, ∀ e ∈ source.entries, ¬ Below e.path.utf8 x.path.utf8
  /-- All that is in a directory is removed before it. -/
  emptied : ∀ pre x post, p.removals = pre ++ x :: post → x.kind = .directory →
    ∀ y ∈ destination.entries, Below y.path.utf8 x.path.utf8 → y ≠ x → y ∈ pre
  apart : p.conflicts.Pairwise fun a b => ¬ Below a.1.utf8 b.1.utf8 ∧ ¬ Below b.1.utf8 a.1.utf8
  conflict : ∀ c ∈ p.conflicts, ∃ e ∈ source.entries, ∃ old ∈ destination.entries,
    e.path = c.1 ∧ old.path = c.1 ∧ old.kind ≠ e.kind
  zone : ∀ c ∈ p.conflicts, ∀ x, x ∈ c.2 ↔ x ∈ destination.entries ∧ Below x.path.utf8 c.1.utf8
  /-- Nothing comes after a directory that it is in, and nothing comes twice. -/
  descending : ∀ c ∈ p.conflicts, c.2.Pairwise fun a b => ¬ Below b.path.utf8 a.path.utf8
  disjoint : p.conflicts.Pairwise fun a b => ∀ x ∈ a.2, x ∉ b.2
  kept : ∀ c ∈ p.conflicts, ∀ x ∈ c.2, x ∉ p.removals
  /-- One operation for each source entry, and one deletion for each removal. -/
  operations : ∃ ops, p.operations = ops ++ p.removals.map (fun x => ⟨.delete, x.path⟩) ∧
    ops.map Operation.path = source.entries.map Entry.path ∧ ∀ o ∈ ops, o.action ≠ .delete

section
variable {source destination : Manifest} {options : Options} {p : Plan}

/-- No entry of the source is planned as a deletion. -/
theorem actionOf_ne_delete {guarded : List String} {e : Entry} :
    actionOf destination options guarded e ≠ .delete := by
  unfold actionOf
  cases e.kind <;> grind

/-- What is noted as a conflict clashes, and lists all that is below. -/
theorem conflictOf_eq_some {guarded : List String} {e : Entry} {c : String × List Entry}
    (h : conflictOf destination guarded e = some c) :
    clashes destination guarded e = true ∧ (e.path, conflictEntries destination e.path) = c := by
  unfold conflictOf at h
  split at h
  · next hc => exact ⟨hc, Option.some.inj h⟩
  · cases h

variable (hp : plan source destination options = .ok p)
include hp

/-- The conflicts come in the order of the source. -/
theorem conflicts_sorted : p.conflicts.Pairwise fun a b => a.1.utf8 < b.1.utf8 := by
  obtain ⟨hsrc, -, -, rfl⟩ := plan_ok.mp hp
  have hsorted : source.entries.zipIdx.Pairwise fun a b => a.1.path.utf8 < b.1.path.utf8 := by
    have h := hsrc.sorted
    rw [← List.zipIdx_map_fst 0 source.entries, List.pairwise_map] at h
    exact h
  refine hsorted.filterMap _ fun a b hab x hx y hy => ?_
  obtain ⟨-, rfl⟩ := conflictOf_eq_some hx
  obtain ⟨-, rfl⟩ := conflictOf_eq_some hy
  exact hab

/-- Two conflicts at or above one destination entry are the same. -/
theorem conflict_unique {a b : String × List Entry} (ha : a ∈ p.conflicts) (hb : b ∈ p.conflicts)
    {x : Entry} (hx : x ∈ destination.entries) (hxa : Below x.path.utf8 a.1.utf8)
    (hxb : Below x.path.utf8 b.1.utf8) : a.1 = b.1 := by
  obtain ⟨e, he, hce, hea, -⟩ := (mem_conflicts hp).mp ha
  obtain ⟨c, hc, hcc, hcb, -⟩ := (mem_conflicts hp).mp hb
  rw [← hea] at hxa ⊢
  rw [← hcb] at hxb ⊢
  rw [clash_unique hp he hce hc hcc hx hxa hxb]

/-- What holds of two conflicts unless they are the same holds of any two in the list. -/
theorem conflicts_pairwise {R : String × List Entry → String × List Entry → Prop}
    (h : ∀ a ∈ p.conflicts, ∀ b ∈ p.conflicts, a.1 ≠ b.1 → R a b) : p.conflicts.Pairwise R := by
  refine List.Pairwise.imp_of_mem (fun ha hb hab => h _ ha _ hb fun he => ?_) (conflicts_sorted hp)
  rw [he] at hab
  exact absurd hab (List.lt_irrefl _)

/-- A conflict stands where the two manifests have entries of different kinds. -/
theorem conflict_old {c : String × List Entry} (hc : c ∈ p.conflicts) :
    ∃ e ∈ source.entries, ∃ old ∈ destination.entries, e.path = c.1 ∧ old.path = c.1 ∧
      old.kind ≠ e.kind := by
  obtain ⟨e, he, hce, hpath, -⟩ := (mem_conflicts hp).mp hc
  obtain ⟨old, hold, -, hop, hkinds⟩ := old_of_clashes hp he hce
  refine ⟨e, he, old, hold, hpath, hop.trans hpath, fun heq => ?_⟩
  rcases hkinds with ⟨h1, h2⟩ | ⟨h1, h2⟩ <;> simp [h1, h2] at heq

/-- A conflict lists all entries below it. -/
theorem conflict_zone {c : String × List Entry} (hc : c ∈ p.conflicts) :
    c.2 = conflictEntries destination c.1 := by
  obtain ⟨-, -, -, -, h⟩ := (mem_conflicts hp).mp hc
  exact h.symm

omit hp in
/-- In a list that goes down nothing comes after what it is below. -/
theorem not_below_of_lt {a b : Entry} (h : b.path.utf8 < a.path.utf8) :
    ¬ Below b.path.utf8 a.path.utf8 := by
  intro hb
  by_cases heq : b.path.utf8 = a.path.utf8
  · rw [heq] at h
    exact List.lt_irrefl _ h
  · exact List.lt_irrefl _ (List.lt_trans h (hb.lt heq))

/-- The operations are one for each entry of the source, and then the deletions in their order. -/
theorem plan_operations : ∃ ops,
    p.operations = ops ++ p.removals.map (fun x => ⟨.delete, x.path⟩) ∧
    ops.map Operation.path = source.entries.map Entry.path ∧ ∀ o ∈ ops, o.action ≠ .delete := by
  obtain ⟨-, -, -, rfl⟩ := plan_ok.mp hp
  refine ⟨_, rfl, ?_, fun o ho => ?_⟩
  · rw [List.map_map]
    conv_rhs => rw [← List.zipIdx_map_fst 0 source.entries, List.map_map]
    rfl
  · obtain ⟨x, -, rfl⟩ := List.mem_map.mp ho
    exact actionOf_ne_delete

/-- Every plan is well formed. -/
theorem plan_wellFormed : p.WellFormed source destination where
  files := files_sorted hp
  file i hi := by
    obtain ⟨e, he, ht⟩ := (mem_files hp).mp hi
    exact ⟨e, he, (live_of_transfers ht).2⟩
  directories := directories_sorted hp
  directory i hi := by
    obtain ⟨e, he, hm⟩ := (mem_directories hp).mp hi
    exact ⟨e, he, (live_of_makes hm).2⟩
  removals := removals_sorted hp
  spared x hx := (removal_facts hp hx).2.2.2.2
  emptied pre x post hpre _ y hy hyx hne := by
    have hsorted := removals_sorted hp
    have hxr : x ∈ p.removals := by simp [hpre]
    have hxd := (removal_facts hp hxr).1
    have hyr := removal_below hp hxr hy hyx
    have hpath : y.path.utf8 ≠ x.path.utf8 := fun h =>
      hne ((plan_ok.mp hp).2.1.eq_of_path hy hxd (String.utf8_injective h))
    rw [hpre] at hyr hsorted
    rcases List.mem_append.mp hyr with h | h
    · exact h
    rcases List.mem_cons.mp h with h | h
    · exact absurd h hne
    -- What comes after `x` is smaller, and what is below `x` is not.
    · have hlt := (List.pairwise_cons.mp (List.pairwise_append.mp hsorted).2.1).1 y h
      exact absurd hyx (not_below_of_lt hlt)
  apart := conflicts_pairwise hp fun a ha b hb hne => by
    obtain ⟨-, -, x, hx, -, hxa, -⟩ := conflict_old hp ha
    obtain ⟨-, -, y, hy, -, hyb, -⟩ := conflict_old hp hb
    refine ⟨fun h => ?_, fun h => ?_⟩
    · exact hne (conflict_unique hp ha hb hx (hxa ▸ SepPath.Below.refl) (hxa ▸ h))
    · exact hne (conflict_unique hp ha hb hy (hyb ▸ h) (hyb ▸ SepPath.Below.refl))
  conflict c hc := conflict_old hp hc
  zone c hc x := by
    rw [conflict_zone hp hc]
    exact mem_conflictEntries
  descending c hc := by
    rw [conflict_zone hp hc]
    exact (conflictEntries_sorted hp).imp fun h => not_below_of_lt h
  disjoint := conflicts_pairwise hp fun a ha b hb hne x hxa hxb => by
    rw [conflict_zone hp ha, mem_conflictEntries] at hxa
    rw [conflict_zone hp hb, mem_conflictEntries] at hxb
    exact hne (conflict_unique hp ha hb hxa.1 hxa.2 hxb.2)
  kept c hc x hx hxr := by
    rw [conflict_zone hp hc, mem_conflictEntries] at hx
    obtain ⟨e, he, hce, hpath, -⟩ := (mem_conflicts hp).mp hc
    obtain ⟨-, -, hzone⟩ := removes_iff.mp ((mem_removals hp).mp hxr).2.2
    exact hzone e he hce (hpath ▸ hx.2)
  operations := plan_operations hp

end

/-- The plan of the small run. -/
theorem plan_wellFormed_small : smallPlan.WellFormed smallSource smallDestination :=
  plan_wellFormed small_plan

end RrSync

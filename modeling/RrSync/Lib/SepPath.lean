import Mathlib.Data.List.Basic

/-!
# `RrSync.Lib.SepPath`: paths as words with a separator

A path is a list over an alphabet, cut into names by a separator. `[]` is the root. The
file defines the parent of a path (`dirName`), the concatenation of two paths (`join`) and
the order "at or below" (`Below`), and states how they meet:

* `Below` is a partial order in which the ancestors of a path form a chain
  (`Below.comparable`);
* the nearest proper ancestor of a path is its parent (`Below.dirName`), so a property that
  passes from a path to its parent passes to every ancestor;
* a proper ancestor of a path comes before it in the dictionary order (`Below.lt`), which
  is why a sorted list of paths has every parent before its children.

`Clean ok p` says that every name of `p` satisfies `ok`. With an `ok` that excludes the
empty word, clean paths are the ones for which `join` and `dirName` commute.
-/

set_option autoImplicit false

namespace RrSync.Lib.SepPath

variable {α : Type}

/-- `p` is `a`, or is under the directory `a`. -/
def Below (sep : α) (p a : List α) : Prop := p = a ∨ a ++ [sep] <+: p

/-- The path `b` under the directory `a`. -/
def join (sep : α) (a b : List α) : List α :=
  if a = [] then b else if b = [] then a else a ++ sep :: b

variable {sep : α} {p q a b s : List α}

/-! ### At or below -/

/-- A path is at or below itself. -/
theorem Below.refl : Below sep p p := Or.inl rfl

/-- What a path is below is a prefix of it. -/
theorem Below.isPrefix (h : Below sep p a) : a <+: p := by
  rcases h with rfl | h
  · exact List.prefix_rfl
  · exact (List.prefix_append a [sep]).trans h

/-- What is below a path is below what that path is below. -/
theorem Below.trans (h : Below sep p q) (h' : Below sep q a) : Below sep p a := by
  rcases h' with rfl | h'
  · exact h
  · exact Or.inr (h'.trans h.isPrefix)

/-- Two paths that are below each other are one. -/
theorem Below.antisymm (h : Below sep p q) (h' : Below sep q p) : p = q :=
  h'.isPrefix.eq_of_length (Nat.le_antisymm h'.isPrefix.length_le h.isPrefix.length_le)

/-- A path goes below another one by a separator and something more. -/
theorem below_append (a t : List α) : Below sep (a ++ sep :: t) a :=
  Or.inr ⟨t, by simp⟩

/-- Only the empty path is above the empty path. -/
theorem below_nil (h : Below sep [] a) : a = [] := by
  simpa using h.isPrefix

/-- The ancestors of a path form a chain. -/
theorem Below.comparable (ha : Below sep p a) (hb : Below sep p b) :
    Below sep a b ∨ Below sep b a := by
  -- The shorter of two proper ancestors `x/`, `y/` of `p` is an initial part of the other.
  have key : ∀ {x y : List α}, x ++ [sep] <+: p → y ++ [sep] <+: p → x.length ≤ y.length →
      Below sep y x := by
    intro x y hx hy hle
    rcases Nat.lt_or_ge x.length y.length with hlt | hge
    · have h1 : x ++ [sep] <+: y ++ [sep] :=
        List.prefix_of_prefix_length_le hx hy (by simpa using hle)
      exact Or.inr (List.prefix_of_prefix_length_le h1 (List.prefix_append y [sep])
        (by simpa using Nat.succ_le_of_lt hlt))
    · have h1 := List.prefix_of_prefix_length_le hx hy (by simpa using hle)
      have h2 := h1.eq_of_length (by simp; omega)
      exact Or.inl (List.append_cancel_right h2).symm
  rcases ha with rfl | ha
  · exact Or.inl hb
  · rcases hb with rfl | hb
    · exact Or.inr (Or.inr ha)
    · rcases Nat.le_total a.length b.length with hle | hle
      · exact Or.inr (key ha hb hle)
      · exact Or.inl (key hb ha hle)

/-- A path that is strictly below another one has a separator. -/
theorem Below.sep_mem (h : Below sep p a) (hne : p ≠ a) : sep ∈ p := by
  rcases h with rfl | ⟨t, rfl⟩
  · exact absurd rfl hne
  · simp

/-- A proper initial part of a word comes before it in the dictionary order. -/
theorem lt_of_isPrefix [LT α] (h : a <+: p) (hne : p ≠ a) : a < p := by
  obtain ⟨t, rfl⟩ := h
  cases t with
  | nil => simp at hne
  | cons c t =>
    induction a with
    | nil => exact List.nil_lt_cons _ _
    | cons x a ih => exact List.Lex.cons (ih (by simp))

/-- A path comes after its proper ancestors in the dictionary order. -/
theorem Below.lt [LT α] (h : Below sep p a) (hne : p ≠ a) : a < p :=
  lt_of_isPrefix h.isPrefix hne

/-! ### Joins -/

/-- Joined below the empty path, a path is itself. -/
@[simp] theorem join_nil_left : join sep [] b = b := if_pos rfl

/-- The empty path joins nothing. -/
@[simp] theorem join_nil_right : join sep a [] = a := by
  unfold join
  split
  · next h => exact h.symm
  · rfl

/-- Two paths that are not empty are joined by a separator. -/
theorem join_of_ne (ha : a ≠ []) (hb : b ≠ []) : join sep a b = a ++ sep :: b := by
  rw [join, if_neg ha, if_neg hb]

/-- Only empty paths join to the empty path. -/
theorem join_eq_nil : join sep a b = [] ↔ a = [] ∧ b = [] := by
  unfold join
  split
  · next h => simp [h]
  · next h => split <;> simp [h]

/-- Below one path, joining is injective. -/
theorem join_injective (s : List α) {p q : List α} (h : join sep s p = join sep s q) : p = q := by
  by_cases hs : s = []
  · simpa [hs] using h
  · by_cases hp : p = [] <;> by_cases hq : q = [] <;>
      simp_all [join_of_ne, eq_comm]

/-- Joins may be regrouped. -/
theorem join_assoc : join sep (join sep s p) q = join sep s (join sep p q) := by
  by_cases hs : s = []
  · simp [hs]
  by_cases hp : p = []
  · simp [hp]
  by_cases hq : q = []
  · simp [hq]
  rw [join_of_ne hs hp, join_of_ne hp hq, join_of_ne (by simp) hq, join_of_ne hs (by simp)]
  simp

/-- Under a common directory, `Below` compares what comes after it. -/
theorem below_join (hp : p ≠ []) (hq : q ≠ []) :
    Below sep (join sep s p) (join sep s q) ↔ Below sep p q := by
  by_cases hs : s = []
  · simp [hs]
  · rw [join_of_ne hs hp, join_of_ne hs hq]
    unfold Below
    rw [List.append_assoc, List.cons_append, List.append_cancel_left_eq, List.cons.injEq,
      List.prefix_append_right_inj, List.cons_prefix_cons]
    simp

/-- A join is below its left part. -/
theorem below_join_left (hs : s ≠ []) : Below sep (join sep s p) s := by
  by_cases hp : p = []
  · rw [hp, join_nil_right]
    exact Below.refl
  · rw [join_of_ne hs hp]
    exact below_append s p

/-- The same for names joined one after the other. -/
theorem below_foldl_join {ns : List (List α)} (hs : s ≠ []) :
    Below sep (ns.foldl (join sep) s) s := by
  induction ns generalizing s with
  | nil => exact Below.refl
  | cons n ns ih =>
    exact (ih fun he => hs (join_eq_nil.mp he).1).trans (below_join_left hs)

/-! ### Parents -/

variable [DecidableEq α]

instance (sep : α) (p a : List α) : Decidable (Below sep p a) :=
  inferInstanceAs (Decidable (_ ∨ _))

/-- The path without its last name and the separator before it. -/
def dirName (sep : α) : List α → List α
  | [] => []
  | c :: p => if sep ∈ p then c :: dirName sep p else []

/-- The last name of a path. -/
def baseName (sep : α) : List α → List α
  | [] => []
  | c :: p => if sep ∈ p then baseName sep p else if c = sep then p else c :: p

/-- The empty path is its own parent. -/
@[simp] theorem dirName_nil : dirName sep [] = [] := rfl

/-- A path without a separator (but for its first item) has the empty parent. -/
theorem dirName_of_notMem (h : sep ∉ p.tail) : dirName sep p = [] := by
  cases p with
  | nil => rfl
  | cons c p => exact if_neg h

/-- The parent looks at the last separator only. -/
theorem dirName_append (t : List α) (h : sep ∈ t) : dirName sep (a ++ t) = a ++ dirName sep t := by
  induction a with
  | nil => rfl
  | cons c a ih =>
    show (if sep ∈ a ++ t then c :: dirName sep (a ++ t) else []) = _
    rw [if_pos (by simp [h]), ih]
    rfl

/-- The parent of `d/n`, for a name `n`. -/
theorem dirName_append_sep (d n : List α) (h : sep ∉ n) : dirName sep (d ++ sep :: n) = d := by
  rw [show d ++ sep :: n = d ++ (sep :: n) from rfl]
  induction d with
  | nil => exact dirName_of_notMem h
  | cons c d ih =>
    show (if sep ∈ d ++ sep :: n then c :: dirName sep (d ++ sep :: n) else []) = _
    rw [if_pos (by simp), ih]

/-- A path with a separator is its parent, the separator and its last name. -/
theorem dirName_append_baseName (h : sep ∈ p) :
    p = dirName sep p ++ sep :: baseName sep p ∧ sep ∉ baseName sep p := by
  induction p with
  | nil => simp at h
  | cons c p ih =>
    by_cases hp : sep ∈ p
    · obtain ⟨h1, h2⟩ := ih hp
      simp only [dirName, baseName, if_pos hp, List.cons_append, List.cons.injEq, true_and]
      exact ⟨h1, h2⟩
    · have hc : c = sep := by simpa [hp, eq_comm] using h
      simp [dirName, baseName, hp, hc]

/-- A path without a separator is its own last name. -/
theorem baseName_of_notMem (h : sep ∉ p) : baseName sep p = p := by
  cases p with
  | nil => rfl
  | cons c p =>
    simp only [List.mem_cons, not_or] at h
    simp [baseName, h.2, Ne.symm h.1]

/-- A last name has no separator. -/
theorem notMem_baseName : sep ∉ baseName sep p := by
  by_cases h : sep ∈ p
  · exact (dirName_append_baseName h).2
  · rwa [baseName_of_notMem h]

/-- The parent is shorter. -/
theorem length_dirName_lt (h : p ≠ []) : (dirName sep p).length < p.length := by
  induction p with
  | nil => exact absurd rfl h
  | cons c p ih =>
    by_cases hp : sep ∈ p
    · simpa [dirName, hp] using ih (List.ne_nil_of_mem hp)
    · simp [dirName, hp]

/-- A path is not its own parent. -/
theorem dirName_ne (h : p ≠ []) : dirName sep p ≠ p := fun he =>
  absurd (congrArg List.length he) (Nat.ne_of_lt (length_dirName_lt h))

/-- A directory is not below what lies in it. -/
theorem not_below_dirName (h : p ≠ []) : ¬ Below sep (dirName sep p) p := fun hb =>
  absurd hb.isPrefix.length_le (Nat.not_le.mpr (length_dirName_lt h))

/-- A path is below its parent. -/
theorem below_dirName (h : sep ∈ p) : Below sep p (dirName sep p) := by
  have h1 := (dirName_append_baseName h).1
  exact Or.inr ⟨baseName sep p, by simpa using h1.symm⟩

/-- Every proper ancestor of a path is at or above its parent. -/
theorem Below.dirName (h : Below sep p a) (hne : p ≠ a) : Below sep (dirName sep p) a := by
  rcases h with rfl | ⟨t, rfl⟩
  · exact absurd rfl hne
  · rw [List.append_assoc, List.singleton_append]
    by_cases ht : sep ∈ t
    · rw [dirName_append (sep :: t) (by simp)]
      show Below sep (a ++ if sep ∈ t then sep :: SepPath.dirName sep t else []) a
      rw [if_pos ht]
      exact below_append a _
    · rw [dirName_append_sep a t ht]
      exact Below.refl

/-- What the parent is below, the path is below. -/
theorem Below.of_dirName (h : Below sep (SepPath.dirName sep p) a) (hp : sep ∈ p) :
    Below sep p a := (below_dirName hp).trans h

/-- The same where the parent is below something, so that it is not empty. -/
theorem Below.of_dirName_ne_nil (h : Below sep (SepPath.dirName sep p) a) (ha : a ≠ []) :
    Below sep p a := by
  by_cases hp : sep ∈ p
  · exact h.of_dirName hp
  · rw [dirName_of_notMem fun hm => hp (List.mem_of_mem_tail hm)] at h
    exact absurd (below_nil h) ha

/-- A property that passes from a path to its parent holds of every ancestor. -/
theorem Below.induction {P : List α → Prop} (hstep : ∀ p, sep ∈ p → P p → P (SepPath.dirName sep p))
    (h : Below sep p a) (hp : P p) : P a := by
  induction hn : p.length using Nat.strongRecOn generalizing p with
  | ind n ih =>
    by_cases hpa : p = a
    · exact hpa ▸ hp
    · have hs := h.sep_mem hpa
      exact ih _ (hn ▸ length_dirName_lt (List.ne_nil_of_mem hs)) (h.dirName hpa)
        (hstep p hs hp) rfl

/-- The last name is one of the components. -/
theorem baseName_mem_splitOn : baseName sep p ∈ p.splitOn sep := by
  by_cases h : sep ∈ p
  · obtain ⟨h1, h2⟩ := dirName_append_baseName h
    have h3 : p.splitOn sep = (dirName sep p).splitOn sep ++ (baseName sep p).splitOn sep := by
      conv_lhs => rw [h1, List.splitOn_append_cons_self]
    rw [h3, List.splitOn_eq_singleton h2]
    simp
  · rw [baseName_of_notMem h, List.splitOn_eq_singleton h]
    simp

/-- The last name of an ancestor is a name of the path. -/
theorem Below.baseName_mem (h : Below sep p a) : baseName sep a ∈ p.splitOn sep := by
  rcases h with rfl | ⟨t, rfl⟩
  · exact baseName_mem_splitOn
  · rw [List.append_assoc, List.singleton_append, List.splitOn_append_cons_self]
    exact List.mem_append_left _ baseName_mem_splitOn

/-- Every name of a path is the last name of an ancestor. -/
theorem exists_baseName_of_mem_splitOn {c : List α} (h : c ∈ p.splitOn sep) :
    ∃ a, Below sep p a ∧ baseName sep a = c := by
  induction hn : p.length using Nat.strongRecOn generalizing p with
  | ind k ih =>
    by_cases hp : sep ∈ p
    · obtain ⟨h1, h2⟩ := dirName_append_baseName hp
      rw [h1, List.splitOn_append_cons_self, List.splitOn_eq_singleton h2] at h
      rcases List.mem_append.mp h with h | h
      · obtain ⟨a, ha, hc⟩ := ih _ (hn ▸ length_dirName_lt (List.ne_nil_of_mem hp)) h rfl
        exact ⟨a, (below_dirName hp).trans ha, hc⟩
      · exact ⟨p, Below.refl, (List.mem_singleton.mp h).symm⟩
    · rw [List.splitOn_eq_singleton hp, List.mem_singleton] at h
      exact ⟨p, Below.refl, by rw [h, baseName_of_notMem hp]⟩

/-- The parent of a name joined to a directory is the directory. -/
theorem dirName_join_name (d : List α) {n : List α} (hn : n ≠ []) (h : sep ∉ n) :
    dirName sep (join sep d n) = d := by
  by_cases hd : d = []
  · rw [hd, join_nil_left]
    exact dirName_of_notMem fun hm => h (List.mem_of_mem_tail hm)
  · rw [join_of_ne hd hn]
    exact dirName_append_sep d n h

/-- The last name of a name joined to a directory is the name. -/
theorem baseName_join_name (d : List α) {n : List α} (hn : n ≠ []) (h : sep ∉ n) :
    baseName sep (join sep d n) = n := by
  by_cases hd : d = []
  · rw [hd, join_nil_left]
    exact baseName_of_notMem h
  · rw [join_of_ne hd hn]
    have hsep : sep ∈ d ++ sep :: n := by simp
    obtain ⟨h1, h2⟩ := dirName_append_baseName hsep
    rw [dirName_append_sep d n h] at h1
    have h3 := List.append_cancel_left h1
    exact (List.cons.inj h3).2.symm

/-! ### Names -/

variable (sep) in
/-- Induction over a path from its first name on. -/
theorem induction_on_names {P : List α → Prop} (hlast : ∀ n, sep ∉ n → P n)
    (hcons : ∀ n p, sep ∉ n → P p → P (n ++ sep :: p)) (p : List α) : P p := by
  induction hn : p.length using Nat.strongRecOn generalizing p with
  | ind k ih =>
    by_cases hp : sep ∈ p
    · obtain ⟨n, q, rfl, hsep⟩ := List.eq_append_cons_of_mem hp
      refine hcons n q hsep (ih q.length ?_ q rfl)
      rw [← hn, List.length_append, List.length_cons]
      omega
    · exact hlast p hp

/-- The components of a path that starts with a name. -/
theorem splitOn_append_sep {n : List α} (hn : sep ∉ n) (p : List α) :
    (n ++ sep :: p).splitOn sep = n :: p.splitOn sep := by
  rw [List.splitOn_append_cons_self, List.splitOn_eq_singleton hn]
  rfl

/-- A name has no separator and is made of elements of the path. -/
theorem mem_splitOn {c : List α} (h : c ∈ p.splitOn sep) : sep ∉ c ∧ ∀ x ∈ c, x ∈ p := by
  induction p using induction_on_names sep with
  | hlast n hn =>
    rw [List.splitOn_eq_singleton hn, List.mem_singleton] at h
    exact ⟨h ▸ hn, fun x hx => h ▸ hx⟩
  | hcons n p hn ih =>
    rw [splitOn_append_sep hn] at h
    rcases List.mem_cons.mp h with rfl | h
    · exact ⟨hn, fun x hx => List.mem_append_left _ hx⟩
    · obtain ⟨h1, h2⟩ := ih h
      exact ⟨h1, fun x hx => List.mem_append_right _ (List.mem_cons_of_mem _ (h2 x hx))⟩

/-- The names of a path, joined one after the other. -/
theorem foldl_join_splitOn (h : ∀ c ∈ p.splitOn sep, c ≠ []) (s : List α) :
    (p.splitOn sep).foldl (join sep) s = join sep s p := by
  induction p using induction_on_names sep generalizing s with
  | hlast n hn =>
    rw [List.splitOn_eq_singleton hn]
    rfl
  | hcons n p hn ih =>
    rw [splitOn_append_sep hn] at h ⊢
    have h1 : n ≠ [] := h n List.mem_cons_self
    have h2 : p ≠ [] := by
      rintro rfl
      exact h [] (by simp) rfl
    rw [List.foldl_cons, ih (fun c hc => h c (List.mem_cons_of_mem _ hc)), join_assoc,
      join_of_ne h1 h2]

/-! ### Clean paths -/

/-- Every name of the path satisfies `ok`. -/
def Clean (ok : List α → Prop) (sep : α) (p : List α) : Prop := ∀ c ∈ p.splitOn sep, ok c

variable {ok : List α → Prop}

/-- A path is clean when what is before and what is after a separator is. -/
theorem clean_append_sep : Clean ok sep (a ++ sep :: b) ↔ Clean ok sep a ∧ Clean ok sep b := by
  unfold Clean
  rw [List.splitOn_append_cons_self]
  simp only [List.mem_append]
  exact ⟨fun h => ⟨fun c hc => h c (Or.inl hc), fun c hc => h c (Or.inr hc)⟩,
    fun h c hc => hc.elim (h.1 c) (h.2 c)⟩

/-- A single component is clean when it is allowed. -/
theorem clean_of_notMem (h : sep ∉ p) : Clean ok sep p ↔ ok p := by
  unfold Clean
  rw [List.splitOn_eq_singleton h]
  simp

/-- Where the empty component is not allowed, a clean path is not empty. -/
theorem Clean.ne_nil (hok : ¬ ok []) (h : Clean ok sep p) : p ≠ [] := by
  rintro rfl
  exact hok ((clean_of_notMem (by simp)).mp h)

/-- Clean paths have a clean join. -/
theorem Clean.join (ha : a = [] ∨ Clean ok sep a) (hb : b = [] ∨ Clean ok sep b) :
    SepPath.join sep a b = [] ∨ Clean ok sep (SepPath.join sep a b) := by
  rcases ha with rfl | ha
  · simpa using hb
  · rcases hb with rfl | hb
    · simp [ha]
    · by_cases h1 : a = []
      · simp [h1, hb]
      · by_cases h2 : b = []
        · simp [h2, ha]
        · rw [join_of_ne h1 h2]
          exact Or.inr (clean_append_sep.mpr ⟨ha, hb⟩)

/-- The parent of a clean path is clean. -/
theorem Clean.dirName (hp : sep ∈ p) (h : Clean ok sep p) : Clean ok sep (dirName sep p) := by
  rw [(dirName_append_baseName hp).1] at h
  exact (clean_append_sep.mp h).1

/-- The last name of a clean path is allowed. -/
theorem Clean.baseName (h : Clean ok sep p) : ok (baseName sep p) := by
  by_cases hp : sep ∈ p
  · rw [(dirName_append_baseName hp).1] at h
    exact (clean_of_notMem notMem_baseName).mp (clean_append_sep.mp h).2
  · rw [baseName_of_notMem hp]
    exact (clean_of_notMem hp).mp h

/-- A clean path has the empty parent exactly when it is one component. -/
theorem dirName_eq_nil (hok : ¬ ok []) (h : Clean ok sep p) : dirName sep p = [] ↔ sep ∉ p := by
  refine ⟨fun hd hp => ?_, fun hp => dirName_of_notMem fun hm => hp (List.mem_of_mem_tail hm)⟩
  exact (h.dirName hp).ne_nil hok hd

/-- What a clean path is below is clean. -/
theorem Below.clean (h : Below sep p a) (hp : Clean ok sep p) : Clean ok sep a :=
  h.induction (P := Clean ok sep) (fun _ hs hc => hc.dirName hs) hp

/-- A clean path is its parent joined with its last name. -/
theorem join_dirName_baseName (hok : ¬ ok []) (h : Clean ok sep p) :
    SepPath.join sep (dirName sep p) (baseName sep p) = p := by
  by_cases hp : sep ∈ p
  · have hb : baseName sep p ≠ [] := fun hb => hok (hb ▸ h.baseName)
    rw [join_of_ne ((h.dirName hp).ne_nil hok) hb]
    exact (dirName_append_baseName hp).1.symm
  · rw [(dirName_eq_nil hok h).mpr hp, join_nil_left, baseName_of_notMem hp]

/-- The parent of a clean path under a directory. -/
theorem dirName_join (hok : ¬ ok []) (h : Clean ok sep p) :
    dirName sep (SepPath.join sep s p) = SepPath.join sep s (dirName sep p) := by
  have hb : baseName sep p ≠ [] := fun hb => hok (hb ▸ h.baseName)
  rw [← join_dirName_baseName hok h, ← join_assoc, dirName_join_name _ hb notMem_baseName,
    dirName_join_name _ hb notMem_baseName]

end RrSync.Lib.SepPath

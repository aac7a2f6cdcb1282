/-! Finite sets of names. A set is the list of its members in increasing order, so sets with the same
members are equal. -/
namespace JmmCompiler

structure NameSet where
  toList : List String
  sorted : toList.Pairwise (· < ·) := by simp
  deriving DecidableEq

namespace NameSet

instance : EmptyCollection NameSet := ⟨⟨[], by simp⟩⟩
instance : Inhabited NameSet := ⟨∅⟩
instance : Membership String NameSet := ⟨fun s name => name ∈ s.toList⟩

instance (name : String) (s : NameSet) : Decidable (name ∈ s) :=
  inferInstanceAs (Decidable (name ∈ s.toList))

theorem mem_def {name : String} {s : NameSet} : name ∈ s ↔ name ∈ s.toList := Iff.rfl

@[simp] theorem notMem_empty (name : String) : name ∉ (∅ : NameSet) := by
  simp [mem_def, EmptyCollection.emptyCollection]

def insertSorted (name : String) : List String → List String
  | [] => [name]
  | x :: xs =>
    if name < x then name :: x :: xs else if name = x then x :: xs else x :: insertSorted name xs

theorem mem_insertSorted {a name : String} {xs : List String} :
    a ∈ insertSorted name xs ↔ a = name ∨ a ∈ xs := by
  induction xs with
  | nil => simp [insertSorted]
  | cons x xs ih =>
    unfold insertSorted
    split
    · simp
    · split
      · simp_all
      · simp [ih]
        grind

theorem sorted_insertSorted {name : String} {xs : List String} (h : xs.Pairwise (· < ·)) :
    (insertSorted name xs).Pairwise (· < ·) := by
  induction xs with
  | nil => simp [insertSorted]
  | cons x xs ih =>
    obtain ⟨hx, hxs⟩ := List.pairwise_cons.1 h
    unfold insertSorted
    split
    · rename_i hlt
      refine List.pairwise_cons.2 ⟨fun y hy => ?_, h⟩
      rcases List.mem_cons.1 hy with rfl | hy
      · exact hlt
      · exact String.lt_trans hlt (hx y hy)
    · split
      · exact h
      · rename_i hlt hne
        refine List.pairwise_cons.2 ⟨fun y hy => ?_, ih hxs⟩
        rcases mem_insertSorted.1 hy with rfl | hy
        · rcases Std.lt_trichotomy x y with h | h | h
          · exact h
          · exact absurd h.symm hne
          · exact absurd h hlt
        · exact hx y hy

def insert (s : NameSet) (name : String) : NameSet :=
  ⟨insertSorted name s.toList, sorted_insertSorted s.sorted⟩

@[simp] theorem mem_insert {a name : String} {s : NameSet} :
    a ∈ s.insert name ↔ a = name ∨ a ∈ s := mem_insertSorted

def singleton (name : String) : NameSet := insert ∅ name

@[simp] theorem mem_singleton {a name : String} : a ∈ singleton name ↔ a = name := by
  simp [singleton]

def insertMany (s : NameSet) (names : List String) : NameSet := names.foldl insert s

@[simp] theorem mem_insertMany {a : String} {s : NameSet} {names : List String} :
    a ∈ s.insertMany names ↔ a ∈ names ∨ a ∈ s := by
  induction names generalizing s with
  | nil => simp [insertMany]
  | cons x xs ih =>
    have := ih (s := s.insert x)
    simp only [insertMany, List.foldl_cons] at this ⊢
    rw [this, mem_insert, List.mem_cons]
    grind

def ofList (names : List String) : NameSet := insertMany ∅ names

@[simp] theorem mem_ofList {a : String} {names : List String} : a ∈ ofList names ↔ a ∈ names := by
  simp [ofList]

/-- The members of two increasing lists in increasing order. -/
def mergeSorted : List String → List String → List String
  | [], ys => ys
  | xs, [] => xs
  | x :: xs, y :: ys =>
    if x < y then x :: mergeSorted xs (y :: ys)
    else if x = y then x :: mergeSorted xs ys
    else y :: mergeSorted (x :: xs) ys
termination_by xs ys => xs.length + ys.length

theorem mem_mergeSorted {a : String} {xs ys : List String} :
    a ∈ mergeSorted xs ys ↔ a ∈ xs ∨ a ∈ ys := by
  fun_induction mergeSorted xs ys <;> simp_all <;> grind

theorem sorted_mergeSorted {xs ys : List String} (hx : xs.Pairwise (· < ·))
    (hy : ys.Pairwise (· < ·)) : (mergeSorted xs ys).Pairwise (· < ·) := by
  fun_induction mergeSorted xs ys with
  | case1 => exact hy
  | case2 => exact hx
  | case3 x xs y ys hlt ih =>
    obtain ⟨hx₁, hx₂⟩ := List.pairwise_cons.1 hx
    refine List.pairwise_cons.2 ⟨fun a ha => ?_, ih hx₂ hy⟩
    rcases mem_mergeSorted.1 ha with ha | ha
    · exact hx₁ a ha
    · rcases List.mem_cons.1 ha with rfl | ha
      · exact hlt
      · exact String.lt_trans hlt ((List.pairwise_cons.1 hy).1 a ha)
  | case4 xs y ys hlt ih =>
    obtain ⟨hx₁, hx₂⟩ := List.pairwise_cons.1 hx
    obtain ⟨hy₁, hy₂⟩ := List.pairwise_cons.1 hy
    refine List.pairwise_cons.2 ⟨fun a ha => ?_, ih hx₂ hy₂⟩
    rcases mem_mergeSorted.1 ha with ha | ha
    · exact hx₁ a ha
    · exact hy₁ a ha
  | case5 x xs y ys hlt hne ih =>
    obtain ⟨hy₁, hy₂⟩ := List.pairwise_cons.1 hy
    have hyx : y < x := by
      rcases Std.lt_trichotomy x y with h | h | h
      · exact absurd h hlt
      · exact absurd h hne
      · exact h
    refine List.pairwise_cons.2 ⟨fun a ha => ?_, ih hx hy₂⟩
    rcases mem_mergeSorted.1 ha with ha | ha
    · rcases List.mem_cons.1 ha with rfl | ha
      · exact hyx
      · exact String.lt_trans hyx ((List.pairwise_cons.1 hx).1 a ha)
    · exact hy₁ a ha

def union (s t : NameSet) : NameSet :=
  ⟨mergeSorted s.toList t.toList, sorted_mergeSorted s.sorted t.sorted⟩

@[simp] theorem mem_union {a : String} {s t : NameSet} : a ∈ s.union t ↔ a ∈ s ∨ a ∈ t :=
  mem_mergeSorted

def filter (p : String → Bool) (s : NameSet) : NameSet :=
  ⟨s.toList.filter p, s.sorted.sublist List.filter_sublist⟩

@[simp] theorem mem_filter {a : String} {p : String → Bool} {s : NameSet} :
    a ∈ s.filter p ↔ a ∈ s ∧ p a = true := by
  simp [mem_def, filter]

def diff (s t : NameSet) : NameSet := s.filter fun name => decide (name ∉ t)

@[simp] theorem mem_diff {a : String} {s t : NameSet} : a ∈ s.diff t ↔ a ∈ s ∧ a ∉ t := by
  simp [diff]

def erase (s : NameSet) (name : String) : NameSet := s.filter (· ≠ name)

@[simp] theorem mem_erase {a name : String} {s : NameSet} :
    a ∈ s.erase name ↔ a ∈ s ∧ a ≠ name := by
  simp [erase]

def unions (sets : List NameSet) : NameSet := sets.foldl union ∅

theorem mem_foldl_union {a : String} {s : NameSet} {sets : List NameSet} :
    a ∈ sets.foldl union s ↔ a ∈ s ∨ ∃ t ∈ sets, a ∈ t := by
  induction sets generalizing s with
  | nil => simp
  | cons t ts ih => simp [ih, or_assoc]

@[simp] theorem mem_unions {a : String} {sets : List NameSet} :
    a ∈ unions sets ↔ ∃ t ∈ sets, a ∈ t := by
  simp [unions, mem_foldl_union]

/-- Sets with the same members are equal. -/
theorem ext {s t : NameSet} (h : ∀ a, a ∈ s ↔ a ∈ t) : s = t := by
  obtain ⟨xs, hx⟩ := s
  obtain ⟨ys, hy⟩ := t
  simp only [mem_def] at h
  congr
  induction xs generalizing ys with
  | nil => cases ys with
    | nil => rfl
    | cons y ys => exact absurd ((h y).2 (by simp)) (by simp)
  | cons x xs ih =>
    cases ys with
    | nil => exact absurd ((h x).1 (by simp)) (by simp)
    | cons y ys =>
      obtain ⟨hx₁, hx₂⟩ := List.pairwise_cons.1 hx
      obtain ⟨hy₁, hy₂⟩ := List.pairwise_cons.1 hy
      have hxy : x = y := by
        rcases List.mem_cons.1 ((h x).1 (by simp)) with rfl | hxy
        · rfl
        · rcases List.mem_cons.1 ((h y).2 (by simp)) with rfl | hyx
          · rfl
          · exact absurd (String.lt_trans (hy₁ x hxy) (hx₁ y hyx)) (String.lt_irrefl y)
      subst hxy
      rw [ih hx₂ ys hy₂]
      intro a
      constructor
      · intro ha
        rcases List.mem_cons.1 ((h a).1 (by simp [ha])) with rfl | h'
        · exact absurd (hx₁ a ha) (String.lt_irrefl a)
        · exact h'
      · intro ha
        rcases List.mem_cons.1 ((h a).2 (by simp [ha])) with rfl | h'
        · exact absurd (hy₁ a ha) (String.lt_irrefl a)
        · exact h'

def size (s : NameSet) : Nat := s.toList.length

end NameSet
end JmmCompiler

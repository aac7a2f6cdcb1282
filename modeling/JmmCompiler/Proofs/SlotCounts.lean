import Mathlib
import JmmCompiler.Jasmin.Assembly
import JmmCompiler.Proofs.Allocation
import JmmCompiler.Proofs.GreedyColoring
import JmmCompiler.Proofs.LivePaths
/-! How many slots a method takes. Allocation never takes more slots than there are variables, and never fewer than
there are variables live together, so that the methods over a budget are those whose limit is. -/
namespace JmmCompiler

/-! ## Counting slots -/

namespace Assoc
variable {α : Type}

theorem size_eq_length_keys (m : Assoc α) : m.size = m.keys.length := by simp [size, keys]

theorem findEntry_of_mem {es : List (String × α)} {name : String} {v : α} (hnodup : (es.map (·.1)).Nodup)
    (h : (name, v) ∈ es) : findEntry name es = some v := by
  induction es with
  | nil => simp at h
  | cons e es ih =>
    obtain ⟨hout, hes⟩ := List.nodup_cons.1 hnodup
    rcases List.mem_cons.1 h with rfl | h
    · simp [findEntry]
    · have hne : e.1 ≠ name := by
        rintro rfl
        exact hout (List.mem_map.2 ⟨_, h, rfl⟩)
      rw [findEntry, if_neg hne, ih hes h]

theorem exists_find?_of_mem_values {m : Assoc α} (hnodup : m.keys.Nodup) {v : α} (h : v ∈ m.values) :
    ∃ name, m.find? name = some v := by
  obtain ⟨⟨name, v⟩, he, rfl⟩ := List.mem_map.1 h
  exact ⟨name, findEntry_of_mem hnodup he⟩

theorem nodup_keys_foldl_insert {β : Type} {f : Assoc α → β → Assoc α}
    (hf : ∀ m x, m.keys.Nodup → (f m x).keys.Nodup) {m : Assoc α} (h : m.keys.Nodup) (xs : List β) :
    (xs.foldl f m).keys.Nodup := by
  induction xs generalizing m with
  | nil => exact h
  | cons x xs ih => exact ih (hf m x h)

end Assoc

namespace NameSet

theorem nodup (s : NameSet) : s.toList.Nodup := by
  refine s.sorted.imp ?_
  rintro a b hlt rfl
  exact String.lt_irrefl a hlt

end NameSet

namespace Slots
variable {s : Slots} {x : String} {n : Int}

theorem foldl_max_mem (xs : List Int) (a : Int) : xs.foldl max a = a ∨ xs.foldl max a ∈ xs := by
  induction xs generalizing a with
  | nil => exact .inl rfl
  | cons x xs ih =>
    rw [List.foldl_cons]
    rcases ih (max a x) with h | h
    · rcases max_choice a x with hmax | hmax
      · exact .inl (h.trans hmax)
      · exact .inr (by rw [h, hmax]; exact List.mem_cons_self)
    · exact .inr (List.mem_cons_of_mem x h)

/-- A bound on all slots is one on the highest. -/
theorem highest_lt {k : Nat} (hnodup : s.keys.Nodup) (h : ∀ x n, s.find? x = some n → n < k) : s.highest < k := by
  rcases foldl_max_mem s.values (-1) with hstart | hmem
  · have hhighest : s.highest = -1 := hstart
    omega
  · obtain ⟨x, hx⟩ := Assoc.exists_find?_of_mem_values hnodup hmem
    exact h x _ hx

/-- Variables that do not share slots need as many of them as they are. -/
theorem length_le_highest {names : List String} (hnodup : names.Nodup)
    (hslots : ∀ x ∈ names, ∃ n, s.find? x = some n ∧ 0 ≤ n)
    (hapart : ∀ x ∈ names, ∀ y ∈ names, x ≠ y → s.Apart x y) : (names.length : Int) ≤ s.highest + 1 := by
  have hsub : names.toFinset.image (fun x => (s.find? x).getD 0) ⊆ Finset.Icc 0 s.highest := by
    intro r hr
    obtain ⟨x, hx, rfl⟩ := Finset.mem_image.1 hr
    obtain ⟨n, hn, hnonneg⟩ := hslots x (List.mem_toFinset.1 hx)
    rw [hn, Option.getD_some, Finset.mem_Icc]
    exact ⟨hnonneg, le_highest hn⟩
  have hinj : Set.InjOn (fun x => (s.find? x).getD 0) (names.toFinset : Set String) := by
    intro x hx y hy hxy
    have hx := List.mem_toFinset.1 hx
    have hy := List.mem_toFinset.1 hy
    obtain ⟨a, ha, -⟩ := hslots x hx
    obtain ⟨b, hb, -⟩ := hslots y hy
    by_contra hne
    simp only [ha, hb, Option.getD_some] at hxy
    exact hapart x hx y hy hne a b ha hb hxy
  have hcard := Finset.card_le_card hsub
  rw [Finset.card_image_of_injOn hinj, List.toFinset_card_of_nodup hnodup, Int.card_Icc] at hcard
  have := neg_one_le_highest s
  omega

/-- Slots that are packed are as many as the variables. -/
theorem Packed.highest (h : s.Packed) (hnodup : s.keys.Nodup) : s.highest + 1 = s.size := by
  have hlt := highest_lt hnodup h.lt_size
  have hle : (s.keys.length : Int) ≤ s.highest + 1 := by
    refine length_le_highest hnodup (fun x hx => ?_) fun x _ y _ hne => h.apart hne
    obtain ⟨n, hn⟩ := Option.ne_none_iff_exists'.1 (Assoc.mem_keys_iff.1 hx)
    exact ⟨n, hn, h.nonneg x n hn⟩
  rw [← Assoc.size_eq_length_keys] at hle
  omega

end Slots

/-! ## Colours -/

namespace InterferenceGraph
variable {g : InterferenceGraph} {x y : String}

theorem mem_nodes_of_mem_neighbors (h : y ∈ g.neighbors x) : x ∈ g.nodes := by
  rw [mem_nodes_iff, Assoc.mem_keys_iff]
  intro hnone
  simp [neighbors, hnone] at h

/-- A graph needs no more colours than it has nodes. -/
theorem color_lt (hsymm : g.Symmetric) (hself : ∀ x, x ∉ g.neighbors x) {first r : Int}
    (h : (g.color first).find? x = some r) : r < first + g.nodes.size := by
  have hdegree := (greedy_color hself first).le_degree x r h
  have hnode := mem_nodes_of_color hsymm (show (g.color first).find? x ≠ none by rw [h]; simp)
  have hnodup : (x :: (g.neighbors x).toList).Nodup := List.nodup_cons.2 ⟨hself x, (g.neighbors x).nodup⟩
  have hsub : x :: (g.neighbors x).toList ⊆ g.nodes.toList := by
    intro y hy
    rcases List.mem_cons.1 hy with rfl | hy
    · exact hnode
    · exact mem_nodes_of_mem_neighbors (hsymm x y hy)
  have hlength := (List.subperm_of_subset hnodup hsub).length_le
  rw [List.length_cons] at hlength
  have hsize : g.degree x < g.nodes.size := hlength
  omega

end InterferenceGraph

namespace CodeMethod
open InterferenceGraph
variable {m m₀ : CodeMethod} {l : Liveness} {g : InterferenceGraph} {x : String}

theorem not_mem_neighbors_self (x : String) : x ∉ (m.interference l).neighbors x := by
  rw [mem_neighbors_interference]
  rintro ⟨p, -, ⟨-, -, hne⟩ | ⟨-, -, hne⟩ | ⟨d, -, n, -, hne, ⟨rfl, rfl⟩ | ⟨rfl, rfl⟩⟩⟩
  all_goals exact hne rfl

/-! ## Variables with slots -/

theorem nodup_keys_addSlot {s : Slots} (h : s.keys.Nodup) (name : String) : (addSlot s name).keys.Nodup := by
  unfold addSlot
  split
  · exact h
  · exact Assoc.nodup_keys_insert h _ _

theorem nodup_keys_addHighest {s : Slots} (h : s.keys.Nodup) (name : String) : (addHighest s name).keys.Nodup := by
  unfold addHighest
  split
  · exact h
  · exact Assoc.nodup_keys_insert h _ _

theorem nodup_keys_fixedSlots (m : CodeMethod) : m.fixedSlots.keys.Nodup := by
  refine Assoc.nodup_keys_foldl_insert (fun _ _ h => Assoc.nodup_keys_insert h _ _) ?_ _
  split
  · exact List.nodup_nil
  · exact List.nodup_singleton _

theorem nodup_keys_coloredSlots (m : CodeMethod) (g : InterferenceGraph) : (m.coloredSlots g).keys.Nodup :=
  Assoc.nodup_keys_foldl_insert (fun _ _ h => Assoc.nodup_keys_insert h _ _) m.nodup_keys_fixedSlots _

theorem nodup_keys_allSlots (m : CodeMethod) (g : InterferenceGraph) : (m.allSlots g).keys.Nodup :=
  Assoc.nodup_keys_foldl_insert (fun _ name h => nodup_keys_addHighest h name) (m.nodup_keys_coloredSlots g) _

theorem nodup_keys_of_finish (h : m₀.finish = .ok m) : m.slots.keys.Nodup := by
  obtain ⟨names, -, hslots⟩ := finish_spec h
  rw [hslots]
  exact Assoc.nodup_keys_foldl_insert (fun _ name h => nodup_keys_addSlot h name) m.nodup_keys_fixedSlots _

/-- What an instruction of a finished method uses or defines has a slot. -/
theorem mem_keys_of_mem_namesAt (h : m₀.finish = .ok m) {i : Nat}
    (hx : x ∈ m.namesAt Instruction.uses i ∨ x ∈ m.namesAt Instruction.defs i) : x ∈ m.slots.keys := by
  cases hi : m.code[i]? with
  | none => simp [namesAt, hi] at hx
  | some code =>
    obtain ⟨ds, us, hds, hus, hslots⟩ := mentions_of_finish h hi
    obtain ⟨n, hn⟩ := hslots x (by simpa [namesAt, hi, hds, hus, or_comm] using hx)
    rw [Assoc.mem_keys_iff, hn]
    simp

theorem UsePath.exists_use {path : List Nat} (h : m.UsePath x path) : ∃ i, x ∈ m.namesAt Instruction.uses i := by
  induction h with
  | @use i huse => exact ⟨i, huse⟩
  | step _ _ _ _ ih => exact ih

theorem mem_keys_of_mem_before (h : m₀.finish = .ok m) (hl : m.liveness = .ok l) {i : Nat} (hx : x ∈ l.before i) :
    x ∈ m.slots.keys := by
  obtain ⟨path, hpath⟩ := (mem_before_iff_usePath hl).1 hx
  obtain ⟨j, hj⟩ := hpath.exists_use
  exact mem_keys_of_mem_namesAt h (.inl hj)

theorem mem_keys_of_mem_after (h : m₀.finish = .ok m) (hl : m.liveness = .ok l) {i : Nat} (hx : x ∈ l.after i) :
    x ∈ m.slots.keys := by
  obtain ⟨js, -, j, -, hj⟩ := (mem_after_iff_successor hl).1 hx
  exact mem_keys_of_mem_before h hl hj

/-- Every name that is defined or live somewhere has a slot. -/
theorem mem_keys_of_mem_names (h : m₀.finish = .ok m) (hl : m.liveness = .ok l) (hx : x ∈ l.names) :
    x ∈ m.slots.keys := by
  simp only [Liveness.names, NameSet.mem_unions, List.mem_append, List.mem_map] at hx
  rcases hx with ⟨_, (⟨p, hp, rfl⟩ | ⟨s, hs, rfl⟩) | ⟨s, hs, rfl⟩, hx⟩
  · obtain ⟨i, hi⟩ := List.getElem?_of_mem hp
    obtain ⟨code, hcode⟩ := exists_instruction_of_point hl hi
    obtain ⟨p', hp', -, hnames⟩ := exists_point hl hcode
    obtain rfl := Option.some.inj (hi.symm.trans hp')
    exact mem_keys_of_mem_namesAt h (.inr ((hnames x).2.1 hx))
  · obtain ⟨i, hi⟩ := List.getElem?_of_mem hs
    exact mem_keys_of_mem_before h hl (i := i) (by simpa [Liveness.before, hi] using hx)
  · obtain ⟨i, hi⟩ := List.getElem?_of_mem hs
    exact mem_keys_of_mem_after h hl (i := i) (by simpa [Liveness.after, hi] using hx)

/-! ## No more slots than before -/

theorem mem_keys_fixedSlots_iff (hnodup : (m.params.map (·.name)).Nodup) (hthis : "this" ∉ m.params.map (·.name)) :
    x ∈ m.fixedSlots.keys ↔ (m.isStatic = false ∧ x = "this") ∨ x ∈ m.params.map (·.name) := by
  rw [Assoc.mem_keys_iff]
  exact (fixedSlots_spec hnodup hthis).2.2 x

theorem mem_fixedNames_of_mem_keys (hnodup : (m.params.map (·.name)).Nodup)
    (hthis : "this" ∉ m.params.map (·.name)) (h : x ∈ m.fixedSlots.keys) : x ∈ m.fixedNames := by
  refine NameSet.mem_ofList.2 ?_
  rcases (mem_keys_fixedSlots_iff hnodup hthis).1 h with ⟨-, rfl⟩ | h
  · exact List.mem_cons_self
  · exact List.mem_cons_of_mem _ h

theorem mem_keys_addHighest {s : Slots} {name : String} (h : x ∈ (addHighest s name).keys) : x = name ∨ x ∈ s.keys := by
  unfold addHighest at h
  split at h
  · exact .inr h
  · rw [Assoc.mem_keys_iff, Assoc.find?_insert] at h
    rw [Assoc.mem_keys_iff]
    grind

theorem mem_keys_foldl_addHighest {s : Slots} {names : List String} (h : x ∈ (names.foldl addHighest s).keys) :
    x ∈ names ∨ x ∈ s.keys := by
  induction names generalizing s with
  | nil => exact .inr h
  | cons y ys ih =>
    rcases ih h with h | h
    · exact .inl (List.mem_cons_of_mem y h)
    · rcases mem_keys_addHighest h with rfl | h
      · exact .inl List.mem_cons_self
      · exact .inr h

theorem find?_coloredSlots (hsymm : g.Symmetric) (x : String) :
    (m.coloredSlots g).find? x = ((g.color m.reserved).find? x).or (m.fixedSlots.find? x) :=
  Assoc.find?_insertAll (proper_color hsymm m.reserved).nodup x

theorem mem_keys_coloredSlots (hsymm : g.Symmetric) :
    x ∈ (m.coloredSlots g).keys ↔ x ∈ g.nodes ∨ x ∈ m.fixedSlots.keys := by
  have hcolor : x ∈ (g.color m.reserved).keys ↔ x ∈ g.nodes := mem_keys_color
  rw [← hcolor, Assoc.mem_keys_iff, Assoc.mem_keys_iff, Assoc.mem_keys_iff,
    find?_coloredSlots hsymm, Ne, Option.or_eq_none_iff]
  tauto

/-- Allocation gives a slot to no name that had none. -/
theorem size_allSlots_le (h : m₀.finish = .ok m) (hl : m.liveness = .ok l) :
    (m.allSlots (m.interference l)).size ≤ m.slots.size := by
  rw [Assoc.size_eq_length_keys, Assoc.size_eq_length_keys]
  refine (List.subperm_of_subset (m.nodup_keys_allSlots _) fun x hx => ?_).length_le
  rcases mem_keys_foldl_addHighest hx with hx | hx
  · exact hx
  · rcases (mem_keys_coloredSlots symmetric_interference).1 hx with hx | hx
    · exact mem_keys_of_mem_names h hl (NameSet.mem_diff.1 (mem_diff_of_mem_nodes hx)).1
    · obtain ⟨n, hn⟩ := Option.ne_none_iff_exists'.1 (Assoc.mem_keys_iff.1 hx)
      rw [Assoc.mem_keys_iff, find?_fixed_of_finish h hn]
      simp

/-- The colours and the slots under them leave room for as many names as have slots. -/
theorem highest_coloredSlots_lt (hnodup : (m.params.map (·.name)).Nodup) (hthis : "this" ∉ m.params.map (·.name)) :
    (m.coloredSlots (m.interference l)).highest < (m.coloredSlots (m.interference l)).size := by
  obtain ⟨hpacked, hsize, -⟩ := fixedSlots_spec hnodup hthis
  have hsymm := symmetric_interference (m := m) (l := l)
  have hdisjoint : (m.fixedSlots.keys ++ (m.interference l).nodes.toList).Nodup := by
    refine m.nodup_keys_fixedSlots.append (NameSet.nodup _) fun x hx hnode => ?_
    exact notMem_fixedNames_of_mem_nodes hnode (mem_fixedNames_of_mem_keys hnodup hthis hx)
  have hroom : m.reserved + (m.interference l).nodes.size ≤ (m.coloredSlots (m.interference l)).size := by
    rw [← hsize, Assoc.size_eq_length_keys, Assoc.size_eq_length_keys, NameSet.size, ← List.length_append]
    refine (List.subperm_of_subset hdisjoint fun x hx => (mem_keys_coloredSlots hsymm).2 ?_).length_le
    exact (List.mem_append.1 hx).symm
  refine Slots.highest_lt (m.nodup_keys_coloredSlots _) fun x n hx => ?_
  rw [find?_coloredSlots hsymm] at hx
  rcases Option.or_eq_some_iff.1 hx with hx | ⟨-, hx⟩
  · have := color_lt hsymm not_mem_neighbors_self hx
    omega
  · have := hpacked.lt_size x n hx
    omega

theorem highest_addHighest_lt {s : Slots} (hnodup : s.keys.Nodup) (h : s.highest < s.size) (name : String) :
    (addHighest s name).highest < (addHighest s name).size := by
  refine Slots.highest_lt (nodup_keys_addHighest hnodup name) fun x n hx => ?_
  unfold addHighest at hx ⊢
  split at hx
  · rename_i hold
    rw [if_pos hold]
    have := Slots.le_highest hx
    omega
  · rename_i hnew
    rw [if_neg hnew, Assoc.size_insert (Assoc.not_contains_iff.1 hnew)]
    rw [Assoc.find?_insert] at hx
    split at hx
    · have := Option.some.inj hx
      omega
    · have := Slots.le_highest hx
      omega

theorem highest_foldl_addHighest_lt {s : Slots} (hnodup : s.keys.Nodup) (h : s.highest < s.size) (names : List String) :
    (names.foldl addHighest s).highest < (names.foldl addHighest s).size := by
  induction names generalizing s with
  | nil => exact h
  | cons y ys ih => exact ih (nodup_keys_addHighest hnodup y) (highest_addHighest_lt hnodup h y)

/-- A method takes no more slots after the allocation than before. -/
theorem highest_allSlots_le (h : m₀.finish = .ok m) (hl : m.liveness = .ok l)
    (hnodup : (m.params.map (·.name)).Nodup) (hthis : "this" ∉ m.params.map (·.name)) :
    (m.allSlots (m.interference l)).highest ≤ m.slots.highest := by
  have hlt := highest_foldl_addHighest_lt (m.nodup_keys_coloredSlots _) (highest_coloredSlots_lt (l := l) hnodup hthis)
    m.slots.keys
  have hsize := size_allSlots_le h hl
  have hbefore := (packed_of_finish h hnodup hthis).highest (nodup_keys_of_finish h)
  have hlt : (m.allSlots (m.interference l)).highest < (m.allSlots (m.interference l)).size := hlt
  omega

/-! ## No fewer slots than are needed -/

theorem le_find?_addHighest {s : Slots} (h : ∀ x n, s.find? x = some n → 0 ≤ n) (name : String) :
    ∀ x n, (addHighest s name).find? x = some n → 0 ≤ n := by
  intro x n hx
  unfold addHighest at hx
  split at hx
  · exact h x n hx
  · rw [Assoc.find?_insert] at hx
    split at hx
    · have := Slots.neg_one_le_highest s
      have := Option.some.inj hx
      omega
    · exact h x n hx

theorem le_find?_allSlots (hnodup : (m.params.map (·.name)).Nodup) (hthis : "this" ∉ m.params.map (·.name)) :
    ∀ x n, (m.allSlots (m.interference l)).find? x = some n → 0 ≤ n := by
  have hcolored : ∀ x n, (m.coloredSlots (m.interference l)).find? x = some n → 0 ≤ n := by
    intro x n hx
    rw [find?_coloredSlots symmetric_interference] at hx
    rcases Option.or_eq_some_iff.1 hx with hx | ⟨-, hx⟩
    · have := (proper_color symmetric_interference m.reserved).first_le x n hx
      omega
    · exact (fixedSlots_spec hnodup hthis).1.nonneg x n hx
  unfold allSlots
  generalize m.coloredSlots (m.interference l) = s at hcolored
  induction m.slots.keys generalizing s with
  | nil => exact hcolored
  | cons y ys ih => exact ih _ (le_find?_addHighest hcolored y)

/-- Names that are live together, `this`, and the parameters have slots of their own. -/
theorem reserved_add_size_le (h : m₀.finish = .ok m) (hnodup : (m.params.map (·.name)).Nodup)
    (hthis : "this" ∉ m.params.map (·.name)) {live : NameSet} (hkeys : ∀ x ∈ live, x ∈ m.slots.keys)
    (hclique : ∀ x ∈ live, ∀ y ∈ live, x ≠ y → x ∈ (m.interference l).nodes → y ∈ (m.interference l).nodes →
      y ∈ (m.interference l).neighbors x) :
    (m.reserved : Int) + (live.diff m.fixedNames).size ≤ (m.allSlots (m.interference l)).highest + 1 := by
  have hdisjoint : (m.fixedSlots.keys ++ (live.diff m.fixedNames).toList).Nodup := by
    refine m.nodup_keys_fixedSlots.append (NameSet.nodup _) fun x hx hlive => ?_
    exact (NameSet.mem_diff.1 hlive).2 (mem_fixedNames_of_mem_keys hnodup hthis hx)
  have hlength := Slots.length_le_highest (s := m.allSlots (m.interference l)) hdisjoint ?slots ?apart
  case slots =>
    intro x hx
    have hold : x ∈ m.slots.keys := by
      rcases List.mem_append.1 hx with hx | hx
      · obtain ⟨n, hn⟩ := Option.ne_none_iff_exists'.1 (Assoc.mem_keys_iff.1 hx)
        rw [Assoc.mem_keys_iff, find?_fixed_of_finish h hn]
        simp
      · exact hkeys x (NameSet.mem_diff.1 hx).1
    obtain ⟨n, hn⟩ := Option.ne_none_iff_exists'.1 (Assoc.mem_keys_iff.1 hold)
    obtain ⟨n', hn'⟩ := exists_find?_allSlots (g := m.interference l) hn
    exact ⟨n', hn', le_find?_allSlots hnodup hthis x n' hn'⟩
  case apart =>
    intro x hx y hy hne
    refine apart_allSlots symmetric_interference hnodup hthis hne fun hxnode hynode => ?_
    have hlive : ∀ z ∈ m.fixedSlots.keys ++ (live.diff m.fixedNames).toList, z ∈ (m.interference l).nodes → z ∈ live := by
      intro z hz hnode
      rcases List.mem_append.1 hz with hz | hz
      · exact absurd (mem_fixedNames_of_mem_keys hnodup hthis hz) (notMem_fixedNames_of_mem_nodes hnode)
      · exact (NameSet.mem_diff.1 hz).1
    exact hclique x (hlive x hx hxnode) y (hlive y hy hynode) hne hxnode hynode
  rw [List.length_append, ← Assoc.size_eq_length_keys, (fixedSlots_spec hnodup hthis).2.1] at hlength
  have hsize : (live.diff m.fixedNames).size = (live.diff m.fixedNames).toList.length := rfl
  omega

/-- The sets around an instruction belong to an instruction, unless they are empty. -/
theorem exists_point_of_live (hl : m.liveness = .ok l) {i : Nat} (hx : x ∈ l.before i ∨ x ∈ l.after i) :
    ∃ p s, (p, s) ∈ l.points.zip l.sets ∧ l.before i = s.before ∧ l.after i = s.after := by
  cases hs : l.sets[i]? with
  | none => simp [Liveness.before, Liveness.after, hs] at hx
  | some s =>
    have hi : i < l.points.length := by
      have hlength := (List.getElem?_eq_some_iff.1 hs).1
      rwa [liveness_sets hl, List.length_map] at hlength
    have hp := List.getElem?_eq_getElem hi
    exact ⟨_, s, List.mem_of_getElem? (List.getElem?_zip_eq_some.2 ⟨hp, hs⟩), by simp [Liveness.before, hs],
      by simp [Liveness.after, hs]⟩

theorem mem_neighbors_of_before (hl : m.liveness = .ok l) {i : Nat} {y : String} (hx : x ∈ l.before i)
    (hy : y ∈ l.before i) (hne : x ≠ y) (hxnode : x ∈ (m.interference l).nodes)
    (hynode : y ∈ (m.interference l).nodes) : y ∈ (m.interference l).neighbors x := by
  obtain ⟨p, s, hps, hbefore, -⟩ := exists_point_of_live hl (.inl hx)
  rw [hbefore] at hx hy
  exact mem_neighbors_interference.2 ⟨_, hps, .inl ⟨NameSet.mem_diff.2 ⟨hx, notMem_fixedNames_of_mem_nodes hxnode⟩,
    NameSet.mem_diff.2 ⟨hy, notMem_fixedNames_of_mem_nodes hynode⟩, hne.symm⟩⟩

theorem mem_neighbors_of_after (hl : m.liveness = .ok l) {i : Nat} {y : String} (hx : x ∈ l.after i)
    (hy : y ∈ l.after i) (hne : x ≠ y) (hxnode : x ∈ (m.interference l).nodes)
    (hynode : y ∈ (m.interference l).nodes) : y ∈ (m.interference l).neighbors x := by
  obtain ⟨p, s, hps, -, hafter⟩ := exists_point_of_live hl (.inr hx)
  rw [hafter] at hx hy
  exact mem_neighbors_interference.2 ⟨_, hps, .inr (.inl ⟨NameSet.mem_diff.2 ⟨hx, notMem_fixedNames_of_mem_nodes hxnode⟩,
    NameSet.mem_diff.2 ⟨hy, notMem_fixedNames_of_mem_nodes hynode⟩, hne.symm⟩)⟩

/-! ## Methods and programs -/

/-- A finished method that can be allocated: its parameters have names of their own, and its jumps places to go to. -/
structure Allocatable (m : CodeMethod) : Prop where
  finished : ∃ m₀ : CodeMethod, m₀.finish = .ok m
  nodup : (m.params.map (·.name)).Nodup
  notThis : "this" ∉ m.params.map (·.name)
  targets : ∀ i ∈ m.code, ∀ label, i.target? = some label → ∃ j, m.labels.find? label = some j

/-- What an allocation by liveness `l` makes of `m`: another method only in its slots, with no more of them than there
were, with enough of them for what is live together, which are just those that its limit allows, and with one for
each name in its instructions. -/
structure Reslotted (m : CodeMethod) (l : Liveness) (m' : CodeMethod) : Prop where
  same : m' = { m with slots := m'.slots }
  upper : m'.slots.highest + 1 ≤ m.slots.highest + 1
  before : ∀ i, (m.reserved : Int) + ((l.before i).diff m.fixedNames).size ≤ m'.slots.highest + 1
  after : ∀ i, (m.reserved : Int) + ((l.after i).diff m.fixedNames).size ≤ m'.slots.highest + 1
  limit : m'.localsLimit = m'.slots.highest + 1
  complete : ∀ i ∈ m'.code, ∃ ds us, i.defs = .ok ds ∧ i.uses = .ok us ∧
    ∀ x ∈ ds ++ us, ∃ n, m'.slots.find? x = some n

theorem Allocatable.exists_allocate (h : m.Allocatable) :
    ∃ l m' g, m.liveness = .ok l ∧ m.allocate = .ok (m', g) ∧ m.Reslotted l m' := by
  obtain ⟨⟨m₀, hfinish⟩, hnodup, hthis, htargets⟩ := h
  obtain ⟨l, hl⟩ := exists_liveness (fun k i hi => by
    obtain ⟨ds, us, hds, hus, -⟩ := mentions_of_finish hfinish hi
    exact ⟨ds, us, hds, hus⟩) htargets
  have hbefore (i : Nat) := reserved_add_size_le hfinish hnodup hthis
    (fun x (hx : x ∈ l.before i) => mem_keys_of_mem_before hfinish hl hx) fun x hx y hy => mem_neighbors_of_before hl hx hy
  have hafter (i : Nat) := reserved_add_size_le hfinish hnodup hthis
    (fun x (hx : x ∈ l.after i) => mem_keys_of_mem_after hfinish hl hx) fun x hx y hy => mem_neighbors_of_after hl hx hy
  have hupper := highest_allSlots_le hfinish hl hnodup hthis
  refine ⟨l, _, _, hl, allocate_eq hl, rfl, by simpa [withSlots] using hupper, hbefore, hafter, ?limit, ?complete⟩
  case limit =>
    have hreserved := hbefore 0
    change max (m.reserved : Int) ((m.allSlots (m.interference l)).highest + 1) = _
    rw [max_eq_right (by omega)]
    rfl
  case complete =>
    intro i hi
    obtain ⟨k, hk⟩ := List.getElem?_of_mem hi
    obtain ⟨ds, us, hds, hus, hslots⟩ := mentions_of_finish hfinish hk
    refine ⟨ds, us, hds, hus, fun x hx => ?_⟩
    obtain ⟨n, hn⟩ := hslots x hx
    exact exists_find?_allSlots hn

theorem exists_allocateMethods_reslotted {ms : List CodeMethod} (h : ∀ m ∈ ms, m.Allocatable) :
    ∃ ms', CodeProgram.allocateMethods ms = (ms', none) ∧
      List.Forall₂ (fun m m' => ∃ l g, m.liveness = .ok l ∧ m.allocate = .ok (m', g) ∧ m.Reslotted l m') ms ms' := by
  induction ms with
  | nil => exact ⟨[], rfl, .nil⟩
  | cons m ms ih =>
    obtain ⟨l, m', g, hl, hm', hreslotted⟩ := (h m (by simp)).exists_allocate
    obtain ⟨ms', hms', hall⟩ := ih fun m hm => h m (by simp [hm])
    exact ⟨m' :: ms', by simp [CodeProgram.allocateMethods, hm', hms'], .cons ⟨l, g, hl, hm', hreslotted⟩ hall⟩

/-- The report that a method with its slots does not keep to a budget. -/
def overrun (budget : Int) (m : CodeMethod) : Report :=
  { stage := .optimization, position := {},
    message := "Method '" ++ m.name ++ "' needs " ++ toString m.localsLimit ++
      " registers, more than the allowed " ++ toString budget }

theorem Reslotted.overBudget {m' : CodeMethod} (h : m.Reslotted l m') {budget : Int} (hbudget : 0 ≤ budget) :
    m'.overBudget budget = if budget < m'.localsLimit then [m'.overrun budget] else [] := by
  rw [CodeMethod.overBudget, overrun, h.limit]
  simp only [hbudget, true_and]

end CodeMethod

namespace CodeProgram

/-- Allocation of the registers of a program. It succeeds on every method, takes no more slots than there were and no
fewer than are needed at once, and the methods with reports, in their order, are just those whose declared limit of
locals is over the budget. -/
theorem allocate_reslots (p : CodeProgram) (h : ∀ m ∈ p.methods, m.Allocatable) :
    ∃ methods, p.allocate = ({ p with methods }, none) ∧
      List.Forall₂ (fun m m' => ∃ l g, m.liveness = .ok l ∧ m.allocate = .ok (m', g) ∧ m.Reslotted l m') p.methods methods ∧
      (∀ m ∈ methods, ∀ lines, (Jasmin.Scope.mk { p with methods } m).methodLines = .ok lines →
        lines[2]? = some ("    .limit locals " ++ toString m.localsLimit)) ∧
      ∀ budget : Int, 0 ≤ budget → ({ p with methods } : CodeProgram).overBudget budget =
        (methods.filter fun m => budget < m.localsLimit).map (·.overrun budget) := by
  obtain ⟨methods, hmethods, hall⟩ := CodeMethod.exists_allocateMethods_reslotted h
  refine ⟨methods, by simp [allocate, hmethods], hall, ?limits, fun budget hbudget => ?_⟩
  case limits =>
    intro m _ lines hlines
    simp only [Jasmin.Scope.methodLines, bind_eq_ok, pure_eq_ok] at hlines
    obtain ⟨body, -, rfl⟩ := hlines
    rfl
  clear hmethods
  simp only [overBudget]
  generalize p.methods = ms at hall
  induction hall with
  | nil => rfl
  | @cons m m' ms ms' hm _ ih =>
    obtain ⟨l, g, -, -, hreslotted⟩ := hm
    rw [List.flatMap_cons, ih, hreslotted.overBudget hbudget, List.filter_cons]
    by_cases hover : budget < m'.localsLimit
    · simp [hover]
    · simp [hover]

/-- A method in which two variables are live together, and one in which a variable takes the slot of another. -/
def additions : CodeProgram :=
  { className := "Additions"
    methods := [
      { name := "both"
        returnType := .int
        code := [
          .assign (.var "a" .int) (.single (.literal 1 .int)),
          .assign (.var "b" .int) (.single (.literal 2 .int)),
          .assign (.var "sum" .int) (.binary "+" (.var "a" .int) (.var "b" .int) .int),
          .ret (.var "sum" .int) .int]
        slots := ⟨[("this", 0), ("a", 1), ("b", 2), ("sum", 3)]⟩ },
      { name := "chained"
        returnType := .int
        code := [
          .assign (.var "a" .int) (.single (.literal 1 .int)),
          .assign (.var "b" .int) (.binary "+" (.var "a" .int) (.literal 2 .int) .int),
          .ret (.var "b" .int) .int]
        slots := ⟨[("this", 0), ("a", 1), ("b", 2)]⟩ }] }

/-- With two slots allowed, the method in which two variables are live together is reported. -/
theorem allocate_reslots_additions :
    additions.allocate.2 = none ∧
    (additions.allocate.1.overBudget 2).map (·.message) =
      ["Method 'both' needs 3 registers, more than the allowed 2"] ∧
    additions.allocate.1.methods.map (·.localsLimit) = [3, 2] := by
  have hallocatable : ∀ m ∈ additions.methods, m.Allocatable := by
    simp only [additions, List.forall_mem_cons, List.not_mem_nil, false_implies, implies_true, and_true]
    refine ⟨⟨⟨{ additions.methods[0] with slots := {} }, rfl⟩, by decide, by decide, by simp [Instruction.target?]⟩,
      ⟨⟨{ additions.methods[1] with slots := {} }, rfl⟩, by decide, by decide, by simp [Instruction.target?]⟩⟩
  obtain ⟨methods, hallocate, -, -, hreports⟩ := allocate_reslots additions hallocatable
  have hlimits : additions.allocate.1.methods.map (fun m => (m.name, m.localsLimit)) = [("both", 3), ("chained", 2)] := by
    decide +kernel
  refine ⟨by rw [hallocate], ?_, by simpa [Function.comp_def] using congrArg (List.map Prod.snd) hlimits⟩
  rw [hallocate] at hlimits ⊢
  rw [hreports 2 (by decide)]
  obtain ⟨m, rest, rfl, hm, hrest⟩ := List.map_eq_cons_iff.1 hlimits
  obtain ⟨m', rest, rfl, hm', hrest⟩ := List.map_eq_cons_iff.1 hrest
  obtain rfl := List.map_eq_nil_iff.1 hrest
  obtain ⟨hname, hlimit⟩ := Prod.mk.inj hm
  obtain ⟨-, hlimit'⟩ := Prod.mk.inj hm'
  simp only [List.filter_cons, hlimit, hlimit', Int.lt_irrefl, decide_false, Bool.false_eq_true, if_false, List.filter_nil,
    show decide ((2 : Int) < 3) = true from rfl, if_true, List.map_cons, List.map_nil, CodeMethod.overrun, hname]
  decide +kernel

end CodeProgram
end JmmCompiler

import JmmCompiler.Registers.Coloring
import JmmCompiler.Proofs.Slots
import Mathlib.Data.List.Perm.Basic
import Mathlib.Data.Finset.Card
/-! Greedy colouring is proper: neighbours get different numbers. -/
namespace JmmCompiler

/-- The lowest free number is free. Of one number more than are taken, not all are taken. -/
theorem lowestFree_notMem (first : Int) (taken : List Int) : lowestFree first taken ∉ taken := by
  unfold lowestFree
  cases h : ((List.range (taken.length + 1)).map fun i : Nat => first + i).find?
      fun r => !taken.contains r with
  | some r => simpa using List.find?_some h
  | none =>
    exfalso
    have hall : ∀ i : Nat, i < taken.length + 1 → first + i ∈ taken := by
      simpa using h
    have hsub : (Finset.range (taken.length + 1)).image (fun i : Nat => first + (i : Int)) ⊆
        taken.toFinset := by
      intro r hr
      obtain ⟨i, hi, rfl⟩ := Finset.mem_image.1 hr
      exact List.mem_toFinset.2 (hall i (Finset.mem_range.1 hi))
    have hcard := Finset.card_le_card hsub
    rw [Finset.card_image_of_injective _ (by intro i j hij; exact Int.ofNat.inj (by simpa using hij)),
      Finset.card_range] at hcard
    have := taken.toFinset_card_le
    omega

theorem first_le_lowestFree (first : Int) (taken : List Int) : first ≤ lowestFree first taken := by
  unfold lowestFree
  cases h : ((List.range (taken.length + 1)).map fun i : Nat => first + i).find?
      fun r => !taken.contains r with
  | some r =>
    obtain ⟨i, -, rfl⟩ := List.mem_map.1 (List.mem_of_find?_eq_some h)
    rw [Option.getD_some]
    omega
  | none => exact le_rfl

namespace InterferenceGraph
variable {g : InterferenceGraph}

/-- An edge counts at both of its ends. -/
def Symmetric (g : InterferenceGraph) : Prop :=
  ∀ a b, b ∈ g.neighbors a → a ∈ g.neighbors b

theorem mem_nodes_iff {x : String} : x ∈ g.nodes ↔ x ∈ g.adjacency.keys := NameSet.mem_ofList

theorem mem_nodes_link {a x : String} {names : NameSet} :
    x ∈ (g.link a names).nodes ↔ x = a ∨ x ∈ g.nodes := by
  simp only [mem_nodes_iff, link, Assoc.mem_keys_iff, Assoc.find?_insert]
  grind

theorem perm_insertByDegree (n : String × Nat) (xs : List (String × Nat)) :
    (insertByDegree n xs).Perm (n :: xs) := by
  induction xs with
  | nil => exact .refl _
  | cons x xs ih =>
    unfold insertByDegree
    split
    · exact .refl _
    · exact (ih.cons x).trans (.swap n x xs)

theorem perm_foldl_insertByDegree (ns xs : List (String × Nat)) :
    (ns.foldl (fun order n => insertByDegree n order) xs).Perm (ns ++ xs) := by
  induction ns generalizing xs with
  | nil => exact .refl _
  | cons n ns ih =>
    exact (ih _).trans (((perm_insertByDegree n xs).append_left ns).trans List.perm_middle)

/-- The nodes are coloured in an order of their own. -/
theorem perm_colorOrder : g.colorOrder.Perm g.nodes.toList := by
  unfold colorOrder
  have h := (perm_foldl_insertByDegree (g.nodes.toList.map fun n => (n, g.degree n)) []).map (·.1)
  simpa [Function.comp_def] using h

theorem mem_colorOrder {x : String} : x ∈ g.colorOrder ↔ x ∈ g.nodes := perm_colorOrder.mem_iff

/-- What a colouring of some of the nodes keeps to. -/
structure Proper (g : InterferenceGraph) (first : Int) (colored : List String) (colors : Slots) :
    Prop where
  nodup : colors.keys.Nodup
  domain : ∀ x, colors.find? x ≠ none → x ∈ colored
  first_le : ∀ x n, colors.find? x = some n → first ≤ n
  differ : ∀ x y n, x ≠ y → y ∈ g.neighbors x → colors.find? x = some n → colors.find? y ≠ some n

theorem proper_empty (g : InterferenceGraph) (first : Int) : g.Proper first [] {} :=
  ⟨List.nodup_nil, by simp, by simp, by simp⟩

theorem Proper.colorNode {first : Int} {colored : List String} {colors : Slots}
    (h : g.Proper first colored colors) (hsymm : g.Symmetric) (name : String) :
    g.Proper first (name :: colored) (g.colorNode first colors name) := by
  unfold InterferenceGraph.colorNode
  generalize hc : lowestFree first ((g.neighbors name).toList.filterMap colors.find?) = color
  have hfree : ∀ y, y ∈ g.neighbors name → colors.find? y ≠ some color := by
    intro y hy hcolor
    refine lowestFree_notMem first ((g.neighbors name).toList.filterMap colors.find?) ?_
    rw [hc]
    exact List.mem_filterMap.2 ⟨y, hy, hcolor⟩
  have hfirst : first ≤ color := hc ▸ first_le_lowestFree first _
  constructor
  · exact Assoc.nodup_keys_insert h.nodup _ _
  · intro x hx
    rw [Assoc.find?_insert] at hx
    have := h.domain x
    grind
  · intro x n hx
    rw [Assoc.find?_insert] at hx
    have := h.first_le x n
    grind
  · intro x y n hne hxy hx hy
    rw [Assoc.find?_insert] at hx hy
    have hold := h.differ x y n hne hxy
    by_cases hnx : name = x
    · subst hnx
      have := hfree y hxy
      grind
    · by_cases hny : name = y
      · subst hny
        have := hfree x (hsymm x name hxy)
        grind
      · grind

theorem proper_foldl_colorNode {first : Int} {colored : List String} {colors : Slots}
    (h : g.Proper first colored colors) (hsymm : g.Symmetric) (names : List String) :
    g.Proper first (names.reverse ++ colored) (names.foldl (g.colorNode first) colors) := by
  induction names generalizing colored colors with
  | nil => exact h
  | cons x xs ih =>
    have := ih (h.colorNode hsymm x)
    simpa using this

/-- The colours of a graph: nodes only, from the first number on, and neighbours differ. -/
theorem proper_color (hsymm : g.Symmetric) (first : Int) :
    g.Proper first g.colorOrder.reverse (g.color first) := by
  have h := proper_foldl_colorNode (g.proper_empty first) hsymm g.colorOrder
  rwa [List.append_nil] at h

theorem mem_nodes_of_color (hsymm : g.Symmetric) {first : Int} {x : String}
    (h : (g.color first).find? x ≠ none) : x ∈ g.nodes :=
  mem_colorOrder.1 (List.mem_reverse.1 ((proper_color hsymm first).domain x h))

end InterferenceGraph
end JmmCompiler

import JmmCompiler.Proofs.Coloring
/-! What greedy colouring makes of a graph that was built step by step. Main statement: it colours just
the nodes, neighbours differently, each node at most as far from the first number as it has neighbours,
leaves no gap below a number, and depends on the nodes and edges only, not on the steps that made them. -/
namespace JmmCompiler

/-- One step of building a graph. -/
inductive GraphStep
  | node (name : String)
  | edge (a b : String)
  deriving DecidableEq

namespace GraphStep

/-- A step makes a name a node. -/
def Creates (x : String) : GraphStep → Prop
  | node name => x = name
  | edge a b => a ≠ b ∧ (x = a ∨ x = b)

/-- A step connects two names, whichever of them it names first. -/
def Connects (x y : String) : GraphStep → Prop
  | node _ => False
  | edge a b => a ≠ b ∧ (x = a ∧ y = b ∨ x = b ∧ y = a)

instance (x : String) (s : GraphStep) : Decidable (s.Creates x) := by
  cases s <;> unfold Creates <;> infer_instance

instance (x y : String) (s : GraphStep) : Decidable (s.Connects x y) := by
  cases s <;> unfold Connects <;> infer_instance

end GraphStep

namespace InterferenceGraph

def step (g : InterferenceGraph) : GraphStep → InterferenceGraph
  | .node name => g.addNode name
  | .edge a b => g.addEdge a b

/-- The graph that a sequence of steps builds. -/
def built (steps : List GraphStep) : InterferenceGraph := steps.foldl step {}

section Built
variable {g : InterferenceGraph} {x y : String} {s : GraphStep} {steps : List GraphStep}

theorem mem_nodes_step : x ∈ (g.step s).nodes ↔ x ∈ g.nodes ∨ s.Creates x := by
  cases s with
  | node name => simp only [step, addNode, mem_nodes_link, GraphStep.Creates, or_comm]
  | edge a b =>
    simp only [step, addEdge, GraphStep.Creates]
    split
    · simp_all
    · simp only [mem_nodes_link]
      grind

theorem mem_neighbors_step : y ∈ (g.step s).neighbors x ↔ y ∈ g.neighbors x ∨ s.Connects x y := by
  cases s with
  | node name => simp [step, mem_neighbors_addNode, GraphStep.Connects]
  | edge a b =>
    simp only [step, mem_neighbors_addEdge, GraphStep.Connects]
    grind

theorem mem_nodes_foldl_step :
    x ∈ (steps.foldl step g).nodes ↔ x ∈ g.nodes ∨ ∃ s ∈ steps, s.Creates x := by
  induction steps generalizing g with
  | nil => simp
  | cons s steps ih => rw [List.foldl_cons, ih, mem_nodes_step]; simp [or_assoc]

theorem mem_neighbors_foldl_step :
    y ∈ (steps.foldl step g).neighbors x ↔ y ∈ g.neighbors x ∨ ∃ s ∈ steps, s.Connects x y := by
  induction steps generalizing g with
  | nil => simp
  | cons s steps ih => rw [List.foldl_cons, ih, mem_neighbors_step]; simp [or_assoc]

theorem mem_nodes_built : x ∈ (built steps).nodes ↔ ∃ s ∈ steps, s.Creates x := by
  have hempty : x ∉ ({} : InterferenceGraph).nodes := by simp [mem_nodes_iff, Assoc.keys]
  simp [built, mem_nodes_foldl_step, hempty]

theorem mem_neighbors_built : y ∈ (built steps).neighbors x ↔ ∃ s ∈ steps, s.Connects x y := by
  have hempty : y ∉ ({} : InterferenceGraph).neighbors x := by simp [neighbors]
  simp [built, mem_neighbors_foldl_step, hempty]

theorem connects_symm (h : s.Connects x y) : s.Connects y x := by
  cases s with
  | node name => exact h
  | edge a b =>
    simp only [GraphStep.Connects] at h ⊢
    grind

theorem symmetric_built (steps : List GraphStep) : (built steps).Symmetric := by
  intro a b h
  obtain ⟨s, hs, hab⟩ := mem_neighbors_built.1 h
  exact mem_neighbors_built.2 ⟨s, hs, connects_symm hab⟩

theorem not_mem_own_neighbors (steps : List GraphStep) (x : String) : x ∉ (built steps).neighbors x := by
  rw [mem_neighbors_built]
  rintro ⟨s, -, hs⟩
  cases s with
  | node name => exact hs
  | edge a b =>
    simp only [GraphStep.Connects] at hs
    grind

end Built

/-! ## The lowest free number -/

section LowestFree
variable {first : Int} {taken : List Int}

/-- What the lowest free number is: the first number, and as much more as there are numbers in a row that
are taken. -/
theorem lowestFree_eq (first : Int) (taken : List Int) :
    ∃ i : Nat, lowestFree first taken = first + i ∧ i ≤ taken.length ∧
      ∀ j : Nat, j < i → first + j ∈ taken := by
  unfold lowestFree
  rw [List.find?_map]
  cases hfound : (List.range (taken.length + 1)).find?
      ((fun r => !taken.contains r) ∘ fun i : Nat => first + (i : Int)) with
  | none => exact ⟨0, by simp, Nat.zero_le _, by simp⟩
  | some i =>
    obtain ⟨-, hi, hbefore⟩ := List.find?_range_eq_some.1 hfound
    exact ⟨i, by simp, Nat.le_of_lt_succ (List.mem_range.1 hi), fun j hj => by simpa using hbefore j hj⟩

/-- All numbers below the lowest free one are taken. -/
theorem mem_of_lt_lowestFree {r : Int} (hfirst : first ≤ r) (h : r < lowestFree first taken) :
    r ∈ taken := by
  obtain ⟨i, hi, -, hbelow⟩ := lowestFree_eq first taken
  obtain ⟨j, hj⟩ := Int.eq_ofNat_of_zero_le (by omega : 0 ≤ r - first)
  obtain rfl : r = first + j := by omega
  exact hbelow j (by omega)

theorem lowestFree_le (first : Int) (taken : List Int) :
    lowestFree first taken ≤ first + taken.length := by
  obtain ⟨i, hi, hle, -⟩ := lowestFree_eq first taken
  omega

end LowestFree

/-! ## Degrees and gaps -/

section Greedy
variable {g : InterferenceGraph} {first : Int}

/-- What greedy colouring keeps: a node is no further from the first number than it has neighbours, and
has a neighbour of each number below its own. -/
structure Greedy (g : InterferenceGraph) (first : Int) (colors : Slots) : Prop where
  le_degree : ∀ x r, colors.find? x = some r → r ≤ first + g.degree x
  no_gap : ∀ x r, colors.find? x = some r → ∀ q, first ≤ q → q < r →
    ∃ y ∈ g.neighbors x, colors.find? y = some q

theorem greedy_empty (g : InterferenceGraph) (first : Int) : g.Greedy first {} :=
  ⟨by simp, by simp⟩

theorem Greedy.colorNode {colors : Slots} (h : g.Greedy first colors) {name : String}
    (hself : name ∉ g.neighbors name) (hnew : colors.find? name = none) :
    g.Greedy first (g.colorNode first colors name) := by
  unfold InterferenceGraph.colorNode
  set taken := (g.neighbors name).toList.filterMap colors.find? with htaken
  constructor
  · intro x r hx
    rw [Assoc.find?_insert] at hx
    split at hx
    · rename_i heq
      obtain rfl := Option.some.inj hx
      have hlen : taken.length ≤ g.degree name := List.length_filterMap_le ..
      have := lowestFree_le first taken
      rw [← heq]
      omega
    · exact h.le_degree x r hx
  · intro x r hx q hq hqr
    -- a coloured neighbour is not the new node, so it keeps its number
    have keep : ∀ y, y ≠ name → colors.find? y = some q →
        (colors.insert name (lowestFree first taken)).find? y = some q := by
      intro y hne hy
      rw [Assoc.find?_insert, if_neg (Ne.symm hne), hy]
    rw [Assoc.find?_insert] at hx
    split at hx
    · rename_i heq
      subst heq
      obtain rfl := Option.some.inj hx
      obtain ⟨y, hy, hyq⟩ := List.mem_filterMap.1 (mem_of_lt_lowestFree hq hqr)
      exact ⟨y, hy, keep y (fun hyn => hself (hyn ▸ hy)) hyq⟩
    · obtain ⟨y, hy, hyq⟩ := h.no_gap x r hx q hq hqr
      exact ⟨y, hy, keep y (by rintro rfl; rw [hnew] at hyq; cases hyq) hyq⟩

theorem find?_colorNode_ne_none {colors : Slots} {name x : String} :
    (g.colorNode first colors name).find? x ≠ none ↔ x = name ∨ colors.find? x ≠ none := by
  rw [InterferenceGraph.colorNode, Assoc.find?_insert]
  grind

theorem greedy_foldl_colorNode (hself : ∀ x, x ∉ g.neighbors x) {names : List String} {colors : Slots}
    (h : g.Greedy first colors) (hnodup : names.Nodup) (hnew : ∀ x ∈ names, colors.find? x = none) :
    g.Greedy first (names.foldl (g.colorNode first) colors) := by
  induction names generalizing colors with
  | nil => exact h
  | cons x xs ih =>
    obtain ⟨hx, hxs⟩ := List.nodup_cons.1 hnodup
    refine ih (h.colorNode (hself x) (hnew x List.mem_cons_self)) hxs fun y hy => ?_
    by_contra hy'
    rcases find?_colorNode_ne_none.1 hy' with rfl | hold
    · exact hx hy
    · exact hold (hnew y (List.mem_cons_of_mem x hy))

theorem find?_foldl_colorNode_ne_none {names : List String} {colors : Slots} {x : String} :
    (names.foldl (g.colorNode first) colors).find? x ≠ none ↔ x ∈ names ∨ colors.find? x ≠ none := by
  induction names generalizing colors with
  | nil => simp
  | cons n ns ih =>
    rw [List.foldl_cons, ih, find?_colorNode_ne_none, List.mem_cons]
    tauto

theorem nodup_colorOrder (g : InterferenceGraph) : g.colorOrder.Nodup := by
  rw [perm_colorOrder.nodup_iff]
  refine g.nodes.sorted.imp ?_
  rintro a b hlt rfl
  exact String.lt_irrefl a hlt

theorem greedy_color (hself : ∀ x, x ∉ g.neighbors x) (first : Int) : g.Greedy first (g.color first) :=
  greedy_foldl_colorNode hself (g.greedy_empty first) g.nodup_colorOrder (by simp)

/-- Just the nodes are coloured. -/
theorem mem_keys_color {x : String} : x ∈ (g.color first).keys ↔ x ∈ g.nodes := by
  rw [Assoc.mem_keys_iff, color, find?_foldl_colorNode_ne_none, mem_colorOrder]
  simp

/-- The colours of a graph depend on its nodes and on its neighbours only. -/
theorem color_congr {g' : InterferenceGraph} (hnodes : ∀ x, x ∈ g'.nodes ↔ x ∈ g.nodes)
    (hneighbors : ∀ x y, y ∈ g'.neighbors x ↔ y ∈ g.neighbors x) : g'.color first = g.color first := by
  have hn : g'.nodes = g.nodes := NameSet.ext hnodes
  have hb : g'.neighbors = g.neighbors := funext fun x => NameSet.ext (hneighbors x)
  have hd : g'.degree = g.degree := by
    funext x
    rw [degree, degree, hb]
  have hc : g'.colorNode first = g.colorNode first := by
    funext colors name
    rw [InterferenceGraph.colorNode, InterferenceGraph.colorNode, hb]
  rw [color, color, hc, colorOrder, colorOrder, hn, hd]

end Greedy

/-- Greedy colouring of a graph that any steps have built, from any first number on. The coloured names
are the nodes, neighbours differ, a node lies between the first number and that many above it as it has
neighbours, each number below a used one is used, and other steps that make the same nodes and edges
lead to the same colours. -/
theorem color_built (steps : List GraphStep) (first : Int) :
    (∀ x, x ∈ ((built steps).color first).keys ↔ ∃ s ∈ steps, s.Creates x) ∧
    ((built steps).color first).keys.Nodup ∧
    (∀ x y, y ∈ (built steps).neighbors x ↔ ∃ s ∈ steps, s.Connects x y) ∧
    (∀ x y r, (∃ s ∈ steps, s.Connects x y) → ((built steps).color first).find? x = some r →
      ((built steps).color first).find? y ≠ some r) ∧
    (∀ x r, ((built steps).color first).find? x = some r →
      first ≤ r ∧ r ≤ first + (built steps).degree x) ∧
    (∀ x r, ((built steps).color first).find? x = some r → ∀ q, first ≤ q → q < r →
      ∃ y, ((built steps).color first).find? y = some q) ∧
    ∀ steps' : List GraphStep,
      (∀ x, (∃ s ∈ steps', s.Creates x) ↔ ∃ s ∈ steps, s.Creates x) →
      (∀ x y, (∃ s ∈ steps', s.Connects x y) ↔ ∃ s ∈ steps, s.Connects x y) →
      (built steps').color first = (built steps).color first := by
  have hproper := proper_color (symmetric_built steps) first
  have hgreedy := greedy_color (not_mem_own_neighbors steps) first
  refine ⟨fun x => mem_keys_color.trans mem_nodes_built, hproper.nodup,
    fun x y => mem_neighbors_built, ?differ, ?bounds, ?gaps, ?order⟩
  case differ =>
    intro x y r hxy hx
    have hy := mem_neighbors_built.2 hxy
    exact hproper.differ x y r (by rintro rfl; exact not_mem_own_neighbors steps x hy) hy hx
  case bounds => exact fun x r hx => ⟨hproper.first_le x r hx, hgreedy.le_degree x r hx⟩
  case gaps =>
    intro x r hx q hq hqr
    obtain ⟨y, -, hy⟩ := hgreedy.no_gap x r hx q hq hqr
    exact ⟨y, hy⟩
  case order =>
    intro steps' hnodes hedges
    exact color_congr (fun x => by rw [mem_nodes_built, mem_nodes_built, hnodes])
      fun x y => by rw [mem_neighbors_built, mem_neighbors_built, hedges]

/-- A path over three nodes, with its edges in either order and with either end first. -/
theorem color_built_path :
    ((built [.node "a", .edge "b" "a", .edge "b" "c"]).color 1).find? "b" = some 1 ∧
    ((built [.node "a", .edge "b" "a", .edge "b" "c"]).color 1).find? "c" = some 2 ∧
    ((built [.node "a", .edge "b" "a", .edge "b" "c"]).color 1).find? "b" ≠ some 2 ∧
    (∃ y, ((built [.node "a", .edge "b" "a", .edge "b" "c"]).color 1).find? y = some 1) ∧
    (built [.edge "c" "b", .edge "a" "b", .edge "a" "a"]).color 1 =
      (built [.node "a", .edge "b" "a", .edge "b" "c"]).color 1 := by
  obtain ⟨-, -, -, differ, -, gap, order⟩ :=
    color_built [.node "a", .edge "b" "a", .edge "b" "c"] 1
  have hb : ((built [.node "a", .edge "b" "a", .edge "b" "c"]).color 1).find? "b" = some 1 := by
    decide +kernel
  have hc : ((built [.node "a", .edge "b" "a", .edge "b" "c"]).color 1).find? "c" = some 2 := by
    decide +kernel
  refine ⟨hb, hc, ?_, gap "c" 2 hc 1 (by decide) (by decide), order _ (fun x => ?_) fun x y => ?_⟩
  · exact differ "c" "b" 2 ⟨.edge "b" "c", by simp, by decide⟩ hc
  · simp only [List.mem_cons, List.not_mem_nil, or_false, exists_eq_or_imp, exists_eq_left,
      GraphStep.Creates]
    grind
  · simp only [List.mem_cons, List.not_mem_nil, or_false, exists_eq_or_imp, exists_eq_left,
      GraphStep.Connects]
    grind

end InterferenceGraph
end JmmCompiler

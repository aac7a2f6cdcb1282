import JmmCompiler.Registers.Allocation
import JmmCompiler.Proofs.Coloring
import JmmCompiler.Proofs.Liveness
import JmmCompiler.Proofs.Machine
/-! Register allocation keeps what a method does. The invariant of the simulation: both machines hold
the same in `this`, the parameters and what is live. A definition changes the slot of another of these
in neither machine, since it interferes with what is live after it. -/
namespace JmmCompiler

namespace InterferenceGraph

/-- A fold of steps, each of which adds the edges `R x`, adds the edges of all of them. -/
theorem mem_neighbors_foldl {α : Type} {f : InterferenceGraph → α → InterferenceGraph}
    {R : α → String → String → Prop}
    (h : ∀ g x b c, c ∈ (f g x).neighbors b ↔ c ∈ g.neighbors b ∨ R x b c)
    (xs : List α) (g : InterferenceGraph) (b c : String) :
    c ∈ (xs.foldl f g).neighbors b ↔ c ∈ g.neighbors b ∨ ∃ x ∈ xs, R x b c := by
  induction xs generalizing g with
  | nil => simp
  | cons x xs ih => simp [ih, h, or_assoc]

theorem mem_nodes_of_foldl {α : Type} {f : InterferenceGraph → α → InterferenceGraph}
    {P : String → Prop} {xs : List α}
    (h : ∀ g, ∀ x ∈ xs, ∀ y, y ∈ (f g x).nodes → y ∈ g.nodes ∨ P y)
    {g : InterferenceGraph} {y : String} (hy : y ∈ (xs.foldl f g).nodes) : y ∈ g.nodes ∨ P y := by
  induction xs generalizing g with
  | nil => exact Or.inl hy
  | cons x xs ih =>
    rcases ih (fun g z hz => h g z (by simp [hz])) hy with hy | hy
    · exact h g x (by simp) y hy
    · exact Or.inr hy

theorem mem_nodes_of_addEdge {g : InterferenceGraph} {a b y : String}
    (h : y ∈ (g.addEdge a b).nodes) : y ∈ g.nodes ∨ y = a ∨ y = b := by
  unfold addEdge at h
  split at h
  · exact Or.inl h
  · simp only [mem_nodes_link] at h
    tauto

theorem mem_nodes_of_addClique {g : InterferenceGraph} {names : NameSet} {y : String}
    (h : y ∈ (g.addClique names).nodes) : y ∈ g.nodes ∨ y ∈ names := by
  refine mem_nodes_of_foldl (P := fun y => y ∈ names) ?_ h
  intro g x hx y hy
  rcases mem_nodes_link.1 hy with rfl | hy
  · exact Or.inr hx
  · exact Or.inl hy

end InterferenceGraph

namespace CodeMethod
open InterferenceGraph
variable {m : CodeMethod} {l : Liveness}

/-- The edges that an instruction adds. -/
def Interferes (fixed : NameSet) (p : FlowPoint × LiveSets) (b c : String) : Prop :=
  (b ∈ p.2.before.diff fixed ∧ c ∈ p.2.before.diff fixed ∧ c ≠ b) ∨
  (b ∈ p.2.after.diff fixed ∧ c ∈ p.2.after.diff fixed ∧ c ≠ b) ∨
  ∃ d ∈ (p.1.defs.diff fixed).toList, ∃ n ∈ (p.2.after.diff fixed).toList,
    d ≠ n ∧ (d = b ∧ c = n ∨ n = b ∧ c = d)

theorem interferes_symm {fixed : NameSet} {p : FlowPoint × LiveSets} {b c : String}
    (h : Interferes fixed p b c) : Interferes fixed p c b := by
  rcases h with ⟨hb, hc, hne⟩ | ⟨hb, hc, hne⟩ | ⟨d, hd, n, hn, hne, h⟩
  · exact Or.inl ⟨hc, hb, hne.symm⟩
  · exact Or.inr (Or.inl ⟨hc, hb, hne.symm⟩)
  · exact Or.inr (Or.inr ⟨d, hd, n, hn, hne, by tauto⟩)

theorem mem_neighbors_connectPoint (fixed : NameSet) (g : InterferenceGraph)
    (p : FlowPoint × LiveSets) (b c : String) :
    c ∈ (connectPoint fixed g p.1 p.2).neighbors b ↔
      c ∈ g.neighbors b ∨ Interferes fixed p b c := by
  have hinner (d : String) := mem_neighbors_foldl (f := fun g n => addEdge g d n)
    (R := fun n b c => d ≠ n ∧ (d = b ∧ c = n ∨ n = b ∧ c = d))
    (fun g n b c => mem_neighbors_addEdge)
  unfold connectPoint Interferes
  rw [mem_neighbors_foldl (fun g d b c => hinner d _ g b c), mem_neighbors_addClique,
    mem_neighbors_addClique]
  simp only [or_assoc]

theorem mem_nodes_of_connectPoint {fixed : NameSet} {g : InterferenceGraph}
    {p : FlowPoint × LiveSets} {y : String} (h : y ∈ (connectPoint fixed g p.1 p.2).nodes) :
    y ∈ g.nodes ∨ (y ∈ p.1.defs ∨ y ∈ p.2.before ∨ y ∈ p.2.after) ∧ y ∉ fixed := by
  have hedges : ∀ g, ∀ d ∈ (p.1.defs.diff fixed).toList, ∀ y,
      y ∈ ((p.2.after.diff fixed).toList.foldl (fun g n => addEdge g d n) g).nodes →
        y ∈ g.nodes ∨ (y ∈ p.1.defs ∨ y ∈ p.2.after) ∧ y ∉ fixed := by
    intro g d hd y hy
    refine mem_nodes_of_foldl (P := fun y => (y ∈ p.1.defs ∨ y ∈ p.2.after) ∧ y ∉ fixed) (fun g n hn y hy => ?_) hy
    rcases mem_nodes_of_addEdge hy with hy | rfl | rfl
    · exact Or.inl hy
    · exact Or.inr ((NameSet.mem_diff.1 hd).imp_left Or.inl)
    · exact Or.inr ((NameSet.mem_diff.1 hn).imp_left Or.inr)
  unfold connectPoint at h
  rcases mem_nodes_of_foldl hedges h with h | h
  · rcases mem_nodes_of_addClique h with h | h
    · rcases mem_nodes_of_addClique h with h | h
      · exact Or.inl h
      · exact Or.inr ((NameSet.mem_diff.1 h).imp_left fun h => Or.inr (Or.inl h))
    · exact Or.inr ((NameSet.mem_diff.1 h).imp_left fun h => Or.inr (Or.inr h))
  · exact Or.inr (h.imp_left (Or.imp_right Or.inr))

theorem mem_neighbors_interference {b c : String} :
    c ∈ (m.interference l).neighbors b ↔ ∃ p ∈ l.points.zip l.sets, Interferes m.fixedNames p b c := by
  unfold interference
  rw [mem_neighbors_foldl (fun g p b c => mem_neighbors_connectPoint m.fixedNames g p b c),
    mem_neighbors_foldl (R := fun _ _ _ => False) (fun g x b c => by simp [mem_neighbors_addNode])]
  simp [neighbors]

theorem symmetric_interference : (m.interference l).Symmetric := by
  intro a b h
  obtain ⟨p, hp, h⟩ := mem_neighbors_interference.1 h
  exact mem_neighbors_interference.2 ⟨p, hp, interferes_symm h⟩

/-- The nodes are among the names of the method, `this` and the parameters left out. -/
theorem mem_diff_of_mem_nodes {x : String} (h : x ∈ (m.interference l).nodes) : x ∈ l.names.diff m.fixedNames := by
  have hadd : ∀ g, ∀ y ∈ (l.names.diff m.fixedNames).toList, ∀ z,
      z ∈ (addNode g y).nodes → z ∈ g.nodes ∨ z ∈ l.names.diff m.fixedNames := by
    intro g y hy z hz
    rcases mem_nodes_link.1 hz with rfl | hz
    · exact Or.inr hy
    · exact Or.inl hz
  have hconnect : ∀ g, ∀ p ∈ l.points.zip l.sets, ∀ y,
      y ∈ (connectPoint m.fixedNames g p.1 p.2).nodes → y ∈ g.nodes ∨ y ∈ l.names.diff m.fixedNames := by
    intro g p hp y hy
    obtain ⟨hpoint, hsets⟩ := List.of_mem_zip hp
    refine (mem_nodes_of_connectPoint hy).imp_right fun ⟨hlive, hfixed⟩ => NameSet.mem_diff.2 ⟨?_, hfixed⟩
    simp only [Liveness.names, NameSet.mem_unions, List.mem_append, List.mem_map]
    rcases hlive with hy | hy | hy
    · exact ⟨_, .inl (.inl ⟨_, hpoint, rfl⟩), hy⟩
    · exact ⟨_, .inl (.inr ⟨_, hsets, rfl⟩), hy⟩
    · exact ⟨_, .inr ⟨_, hsets, rfl⟩, hy⟩
  unfold interference at h
  rcases mem_nodes_of_foldl hconnect h with h | h
  · rcases mem_nodes_of_foldl hadd h with h | h
    · exact absurd h (NameSet.notMem_empty x)
    · exact h
  · exact h

/-- `this` and the parameters take no part in the colouring. -/
theorem notMem_fixedNames_of_mem_nodes {x : String} (h : x ∈ (m.interference l).nodes) :
    x ∉ m.fixedNames := (NameSet.mem_diff.1 (mem_diff_of_mem_nodes h)).2

end CodeMethod

theorem le_foldl_max {α : Type} [LinearOrder α] (xs : List α) (a : α) :
    a ≤ xs.foldl max a ∧ ∀ x ∈ xs, x ≤ xs.foldl max a := by
  induction xs generalizing a with
  | nil => simp
  | cons y ys ih =>
    obtain ⟨hstart, hall⟩ := ih (max a y)
    simp only [List.foldl_cons, List.mem_cons, forall_eq_or_imp]
    exact ⟨(le_max_left a y).trans hstart, (le_max_right a y).trans hstart, hall⟩

namespace Slots

/-- Two variables do not share a slot. -/
def Apart (s : Slots) (x y : String) : Prop :=
  ∀ a b, s.find? x = some a → s.find? y = some b → a ≠ b

theorem le_highest {s : Slots} {x : String} {n : Int} (h : s.find? x = some n) : n ≤ s.highest :=
  (le_foldl_max s.values (-1)).2 n (List.mem_map.2 ⟨_, Assoc.mem_of_findEntry h, rfl⟩)

theorem neg_one_le_highest (s : Slots) : -1 ≤ s.highest := (le_foldl_max s.values (-1)).1

theorem Packed.apart {s : Slots} (h : s.Packed) {x y : String} (hne : x ≠ y) : s.Apart x y := by
  intro a b hx hy hab
  exact hne (h.injective x y a hx (hab ▸ hy))

end Slots

namespace CodeMethod
open InterferenceGraph
variable {m : CodeMethod} {l : Liveness}

theorem find?_addHighest {s : Slots} {name x : String} {n : Int} (h : s.find? x = some n) :
    (addHighest s name).find? x = some n := by
  unfold addHighest
  split
  · exact h
  · rename_i hnew
    rw [Assoc.find?_insert]
    have := Assoc.not_contains_iff.1 hnew
    grind

theorem find?_foldl_addHighest {s : Slots} {names : List String} {x : String} {n : Int}
    (h : s.find? x = some n) : (names.foldl addHighest s).find? x = some n := by
  induction names generalizing s with
  | nil => exact h
  | cons y ys ih => exact ih (find?_addHighest h)

theorem exists_find?_foldl_addHighest {s : Slots} {names : List String} {x : String}
    (h : x ∈ names) : ∃ n, (names.foldl addHighest s).find? x = some n := by
  induction names generalizing s with
  | nil => simp at h
  | cons y ys ih =>
    rcases List.mem_cons.1 h with rfl | h
    · have hx : ∃ n, (addHighest s x).find? x = some n := by
        unfold addHighest
        split
        · rename_i hc
          exact Assoc.contains_iff.1 hc
        · exact ⟨_, by rw [Assoc.find?_insert, if_pos rfl]⟩
      obtain ⟨n, hn⟩ := hx
      have hfold : (ys.foldl addHighest (addHighest s x)).find? x = some n :=
        find?_foldl_addHighest hn
      exact ⟨n, hfold⟩
    · exact ih h

/-- A slot above all others is apart from all others. -/
theorem apart_addHighest {s : Slots} {x y : String} (hne : x ≠ y) (h : s.Apart x y)
    (name : String) : (addHighest s name).Apart x y := by
  unfold addHighest
  split
  · exact h
  · intro a b hx hy
    rw [Assoc.find?_insert] at hx hy
    by_cases hnx : name = x
    · rw [if_pos hnx] at hx
      rw [if_neg (hnx ▸ hne)] at hy
      have := Slots.le_highest hy
      grind
    · rw [if_neg hnx] at hx
      by_cases hny : name = y
      · rw [if_pos hny] at hy
        have := Slots.le_highest hx
        grind
      · rw [if_neg hny] at hy
        exact h a b hx hy

theorem apart_foldl_addHighest {s : Slots} {x y : String} (hne : x ≠ y) (h : s.Apart x y)
    (names : List String) : (names.foldl addHighest s).Apart x y := by
  induction names generalizing s with
  | nil => exact h
  | cons z zs ih => exact ih (apart_addHighest hne h z)

/-- The slots of a colouring under those of `this` and the parameters. -/
def coloredSlots (m : CodeMethod) (g : InterferenceGraph) : Slots :=
  m.fixedSlots.insertAll (g.color m.reserved)

/-- Variables share a slot only if they are nodes of the graph without an edge between them. -/
theorem apart_coloredSlots {g : InterferenceGraph} (hsymm : g.Symmetric)
    (hnodup : (m.params.map (·.name)).Nodup) (hthis : "this" ∉ m.params.map (·.name))
    {x y : String} (hne : x ≠ y) (hedge : x ∈ g.nodes → y ∈ g.nodes → y ∈ g.neighbors x) :
    (m.coloredSlots g).Apart x y := by
  obtain ⟨hpacked, hsize, -⟩ := fixedSlots_spec hnodup hthis
  have hproper := proper_color hsymm m.reserved
  have hfind (z : String) : (m.coloredSlots g).find? z =
      ((g.color m.reserved).find? z).or (m.fixedSlots.find? z) :=
    Assoc.find?_insertAll hproper.nodup z
  have hlow (z : String) (n : Int) (hz : m.fixedSlots.find? z = some n) : n < m.reserved := by
    rw [← hsize]
    exact hpacked.lt_size z n hz
  intro a b hx hy
  rw [hfind] at hx hy
  cases hcx : (g.color m.reserved).find? x with
  | some a' =>
    obtain rfl : a' = a := by simpa [hcx] using hx
    have ha := hproper.first_le x a' hcx
    cases hcy : (g.color m.reserved).find? y with
    | some b' =>
      obtain rfl : b' = b := by simpa [hcy] using hy
      have hxnode : x ∈ g.nodes := mem_nodes_of_color hsymm (by rw [hcx]; simp)
      have hynode : y ∈ g.nodes := mem_nodes_of_color hsymm (by rw [hcy]; simp)
      have hdiffer := hproper.differ x y a' hne (hedge hxnode hynode) hcx
      intro hab
      exact hdiffer (hab ▸ hcy)
    | none =>
      have hb := hlow y b (by simpa [hcy] using hy)
      omega
  | none =>
    have hfx : m.fixedSlots.find? x = some a := by simpa [hcx] using hx
    cases hcy : (g.color m.reserved).find? y with
    | some b' =>
      obtain rfl : b' = b := by simpa [hcy] using hy
      have hb := hproper.first_le y b' hcy
      have ha := hlow x a hfx
      omega
    | none =>
      have hfy : m.fixedSlots.find? y = some b := by simpa [hcy] using hy
      exact hpacked.apart hne a b hfx hfy

/-- The slots of a colouring, and slots above those for variables without a colour. -/
def allSlots (m : CodeMethod) (g : InterferenceGraph) : Slots :=
  m.slots.keys.foldl addHighest (m.coloredSlots g)

def withSlots (m : CodeMethod) (slots : Slots) : CodeMethod := { m with slots }

theorem allocate_eq (h : m.liveness = .ok l) :
    m.allocate = .ok (m.withSlots (m.allSlots (m.interference l)), m.interference l) := by
  unfold allocate
  rw [h]
  rfl

theorem apart_allSlots {g : InterferenceGraph} (hsymm : g.Symmetric)
    (hnodup : (m.params.map (·.name)).Nodup) (hthis : "this" ∉ m.params.map (·.name))
    {x y : String} (hne : x ≠ y) (hedge : x ∈ g.nodes → y ∈ g.nodes → y ∈ g.neighbors x) :
    (m.allSlots g).Apart x y :=
  apart_foldl_addHighest hne (apart_coloredSlots hsymm hnodup hthis hne hedge) _

/-- Every variable that had a slot has one after the allocation. -/
theorem exists_find?_allSlots {g : InterferenceGraph} {x : String} {n : Int}
    (h : m.slots.find? x = some n) : ∃ n', (m.allSlots g).find? x = some n' :=
  exists_find?_foldl_addHighest (Assoc.mem_keys_iff.2 (by rw [h]; simp))

end CodeMethod
end JmmCompiler

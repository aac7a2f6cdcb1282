import JmmCompiler.Assoc
import JmmCompiler.NameSet
/-! Interference graphs and their greedy colouring. -/
namespace JmmCompiler

/-- An undirected graph without loops over names: the neighbours of every node. -/
structure InterferenceGraph where
  adjacency : Assoc NameSet := {}

namespace InterferenceGraph
variable (g : InterferenceGraph)

instance : Inhabited InterferenceGraph := ⟨{}⟩

def nodes : NameSet := NameSet.ofList g.adjacency.keys

def neighbors (name : String) : NameSet := (g.adjacency.find? name).getD ∅

/-- Makes `names` neighbours of `a`, but not `a` a neighbour of them. -/
def link (a : String) (names : NameSet) : InterferenceGraph :=
  ⟨g.adjacency.insert a ((g.neighbors a).union names)⟩

def addNode (name : String) : InterferenceGraph := g.link name ∅

/-- Connects two names, which become nodes. No name is connected with itself. -/
def addEdge (a b : String) : InterferenceGraph :=
  if a = b then g else (g.link a (.singleton b)).link b (.singleton a)

/-- Connects all of the names with one another. -/
def addClique (names : NameSet) : InterferenceGraph :=
  names.toList.foldl (fun g a => g.link a (names.erase a)) g

theorem mem_neighbors_link {g : InterferenceGraph} {a b c : String} {names : NameSet} :
    c ∈ (g.link a names).neighbors b ↔ c ∈ g.neighbors b ∨ a = b ∧ c ∈ names := by
  simp only [link, neighbors, Assoc.find?_insert]
  split <;> simp_all

theorem mem_neighbors_addNode {g : InterferenceGraph} {a b c : String} :
    c ∈ (g.addNode a).neighbors b ↔ c ∈ g.neighbors b := by
  simp [addNode, mem_neighbors_link]

theorem mem_neighbors_addEdge {g : InterferenceGraph} {a b c d : String} :
    d ∈ (g.addEdge a b).neighbors c ↔
      d ∈ g.neighbors c ∨ a ≠ b ∧ (a = c ∧ d = b ∨ b = c ∧ d = a) := by
  unfold addEdge
  split <;> simp_all [mem_neighbors_link, or_assoc]

theorem mem_neighbors_foldl_link {g : InterferenceGraph} {b c : String} {xs : List String}
    {f : String → NameSet} :
    c ∈ (xs.foldl (fun g a => g.link a (f a)) g).neighbors b ↔
      c ∈ g.neighbors b ∨ b ∈ xs ∧ c ∈ f b := by
  induction xs generalizing g with
  | nil => simp
  | cons x xs ih =>
    rw [List.foldl_cons, ih, mem_neighbors_link]
    grind

theorem mem_neighbors_addClique {g : InterferenceGraph} {b c : String} {names : NameSet} :
    c ∈ (g.addClique names).neighbors b ↔
      c ∈ g.neighbors b ∨ b ∈ names ∧ c ∈ names ∧ c ≠ b := by
  rw [addClique, mem_neighbors_foldl_link, NameSet.mem_erase, ← NameSet.mem_def]

def degree (name : String) : Nat := (g.neighbors name).size

def hasEdge (a b : String) : Bool := b ∈ g.neighbors a

/-- Every edge once, with its ends in order. -/
def edges : List (String × String) :=
  g.nodes.toList.flatMap fun a =>
    ((g.neighbors a).toList.filter fun b => decide (a < b)).map fun b => (a, b)

/-- Puts a name with its degree behind all names of at least that degree. -/
def insertByDegree (node : String × Nat) : List (String × Nat) → List (String × Nat)
  | [] => [node]
  | x :: xs => if x.2 < node.2 then node :: x :: xs else x :: insertByDegree node xs

/-- The nodes by decreasing degree, and by name among those of one degree. -/
def colorOrder : List String :=
  let weighted := g.nodes.toList.map fun n => (n, g.degree n)
  (weighted.foldl (fun order n => insertByDegree n order) []).map (·.1)

end InterferenceGraph

/-- The lowest number from `first` on that is not taken. One of the first as many numbers as are taken,
and one more, is free. -/
def lowestFree (first : Int) (taken : List Int) : Int :=
  (((List.range (taken.length + 1)).map fun i : Nat => first + i).find?
    fun r => !taken.contains r).getD first

end JmmCompiler

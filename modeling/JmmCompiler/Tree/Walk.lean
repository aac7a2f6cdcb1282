import JmmCompiler.Tree.Node
/-! Walks over trees. A node of a tree is named by its path, the list of child indices that lead to
it from the root. -/
namespace JmmCompiler

abbrev Path := List Nat

namespace Node

/-- The nodes of all pending trees. -/
def countVisits : List (Path × Node) → Nat
  | [] => 0
  | v :: pending => v.2.count + countVisits pending

/-- The children of a node with their paths. -/
def located (path : Path) (n : Node) : List (Path × Node) :=
  n.children.zipIdx.map fun c => (path ++ [c.2], c.1)

theorem countVisits_append (a b : List (Path × Node)) :
    countVisits (a ++ b) = countVisits a + countVisits b := by
  induction a with
  | nil => simp [countVisits]
  | cons v a ih => rw [List.cons_append, countVisits, countVisits, ih, Nat.add_assoc]

theorem countVisits_zipIdx (path : Path) (cs : List Node) (k : Nat) :
    countVisits ((cs.zipIdx k).map fun c => (path ++ [c.2], c.1)) = countAll cs := by
  induction cs generalizing k with
  | nil => rfl
  | cons c cs ih => rw [List.zipIdx_cons, List.map_cons, countVisits, countAll, ih (k + 1)]

theorem countVisits_located (path : Path) (n : Node) :
    countVisits (located path n) = countAll n.children :=
  countVisits_zipIdx path n.children 0

/-- Visits the pending trees: each node before its children, and the children of a node before
whatever was pending. -/
def visit : List (Path × Node) → List (Path × Node)
  | [] => []
  | (path, n) :: pending => (path, n) :: visit (located path n ++ pending)
termination_by pending => countVisits pending
decreasing_by
  rw [countVisits_append, countVisits_located]
  rw [countVisits, n.count_eq]
  omega

/-- All nodes of a tree, each before its children. -/
def preorder (root : Node) : List (Path × Node) := visit [([], root)]

/-- The nodes below the root in pre-order. With no kinds given every kind counts. -/
def descendants (root : Node) (kinds : List Kind) : List (Path × Node) :=
  (visit (located [] root)).filter fun v => kinds.isEmpty || kinds.contains v.2.kind

/-- The node at a path. -/
def at? (root : Node) : Path → Option Node
  | [] => some root
  | i :: path => root.children[i]?.bind (·.at? path)

/-- The path of the parent, which the root lacks. -/
def parent? (path : Path) : Option Path := if path = [] then none else some path.dropLast

/-- The nodes on the way from the root to a path, the node at the path left out. -/
def above (root : Node) : Path → List Node
  | [] => []
  | i :: path => root :: match root.children[i]? with
    | some c => c.above path
    | none => []

/-- The closest node of a kind above a path. -/
def ancestor? (root : Node) (path : Path) (kind : Kind) : Option (Path × Node) :=
  ((root.above path).zipIdx.reverse.find? (·.1.kind = kind)).map fun a => (path.take a.2, a.1)

/-- The method declaration a node belongs to. A method belongs to itself. -/
def methodAt? (root : Node) (path : Path) (n : Node) : Option Node :=
  if n.kind = .methodDecl then some n else (root.ancestor? path .methodDecl).map (·.2)

end Node
end JmmCompiler

import JmmCompiler.Typing
import JmmCompiler.Tree.Walk
import JmmCompiler.Diagnostic.Report
/-! Checks of a program. A check looks at one node and its surroundings and says what is wrong there;
it runs over all nodes of a tree, each before its children. -/
namespace JmmCompiler

/-- A node of a program with what is known of the place where it stands. -/
structure Site where
  table : SymbolTable
  /-- The method declaration that the node belongs to. -/
  method : Option Node
  node : Node

abbrev Findings := Except Failure (List Report)

namespace Site

/-- An error at a node. -/
def error (n : Node) (message : String) : Report :=
  { stage := .semantic, position := n.position, message }

def methodName (s : Site) : Except Failure (Option String) :=
  match s.method with
  | some m => m.name?
  | none => return none

/-- Whether the node stands in a static method. -/
def inStatic (s : Site) : Bool := s.method.any (·.flag "is_static")

def typeOf (s : Site) (e : Node) : Except Failure Ty := do
  s.table.typeOf (← s.methodName) e

/-- An error at `e` unless its type may stand where `expected` is wanted. -/
def expect (s : Site) (e : Node) (expected : Ty) (what : String) : Findings := do
  let actual ← s.typeOf e
  return if Ty.assignable expected actual then [] else
    [error e (what ++ " must be of type '" ++ expected.text ++ "', found '" ++ actual.text ++ "'")]

end Site

/-- A named set of rules about single nodes. -/
structure Check where
  name : String
  rule : Site → Findings

namespace Check

/-- The reports of a check about all nodes of a program. -/
def run (c : Check) (table : SymbolTable) (root : Node) : Findings := do
  let found ← root.preorder.mapM fun v => c.rule ⟨table, root.methodAt? v.1 v.2, v.2⟩
  return found.flatten

end Check
end JmmCompiler

import JmmCompiler.Constants.Value
/-! Constant folding: subexpressions whose value is known become literals. -/
namespace JmmCompiler.Node

/-- A node whose children are folded, or the literal that it amounts to. -/
def foldTop (n : Node) : Except Failure Node := do
  match n.kind with
  | .paren =>
    match ← (← n.child 0).constant? with
    | some c => return c.node n.position
    | none => return n
  | .unary =>
    match ← (← n.child 0).constant? with
    | some (.bool b) => return if (← n.op) = "!" then Constant.node n.position (.bool !b) else n
    | _ => return n
  | .binary =>
    let left ← (← n.child 0).constant?
    let right ← (← n.child 1).constant?
    match left, right with
    | some a, some b =>
      match Constant.evaluate? (← n.op) a b with
      | some c => return c.node n.position
      | none => return n
    | _, _ => return n
  | _ => return n

mutual
def fold : Node → Except Failure Node
  | ⟨kind, attributes, children, position⟩ => do
    foldTop ⟨kind, attributes, ← foldAll children, position⟩

def foldAll : List Node → Except Failure (List Node)
  | [] => return []
  | c :: cs => do
    let c ← c.fold
    return c :: (← foldAll cs)
end

end JmmCompiler.Node

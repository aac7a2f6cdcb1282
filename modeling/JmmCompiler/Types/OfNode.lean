import JmmCompiler.Tree.Node
/-! Types as they are written in a tree. -/
namespace JmmCompiler

/-- The type that a type node writes. Variable arguments arrive as an array. -/
def Ty.ofNode (n : Node) : Except Failure Ty :=
  if n.kind ≠ .typeRef then .error (.notAType n.kind)
  else if n.flag "is_array" || n.flag "is_varargs" then do return ⟨← n.name, true⟩
  else do return ⟨← n.text "name", false⟩

def Ty.elementType (t : Ty) : Except Failure Ty :=
  if t.isArray then .ok t.base else .error (.notAnArray t)

/-- The name and the type that a declaration introduces. -/
def Symbol.ofNode (n : Node) : Except Failure Symbol := do
  let name ← n.name
  return ⟨name, ← Ty.ofNode (← n.child 0)⟩

end JmmCompiler

import JmmCompiler.Checks.Basic
/-! Methods return what they declare on every path, nothing follows a return, and no variable is
void. -/
namespace JmmCompiler.Node

mutual
/-- Every path through a statement ends in a return. -/
def completes : Node → Bool
  | ⟨.returnStmt, _, _, _⟩ => true
  | ⟨.block, _, children, _⟩ => anyCompletes children
  | ⟨.ifStmt, _, [_, thenPart, elsePart], _⟩ => thenPart.completes && elsePart.completes
  | _ => false

def anyCompletes : List Node → Bool
  | [] => false
  | c :: cs => c.completes || anyCompletes cs
end

end JmmCompiler.Node

namespace JmmCompiler.Check

/-- An error at the first statement that follows a return. -/
def unreachable : List Node → List Report
  | s :: next :: rest =>
    if s.kind = .returnStmt then [Site.error next "Unreachable statement after return"]
    else unreachable (next :: rest)
  | _ => []

def notVoid (what : String) (declarations : List Node) : Findings := do
  let found ← declarations.mapM fun d => do
    if (← Ty.ofNode (← d.child 0)) = .void then
      return [Site.error d (what ++ " '" ++ (← d.name) ++ "' cannot be void")]
    else return []
  return found.flatten

def methodFlow (m : Node) : Findings := do
  let voids ← notVoid "Variable" (m.params ++ m.locals)
  let late := unreachable m.statements
  let returnType ← Ty.ofNode (← m.returnType)
  let missing ←
    if returnType ≠ .void && !Node.anyCompletes m.statements then
      pure [Site.error m ("Method '" ++ (← m.name) ++ "' is missing a return statement")]
    else pure []
  return voids ++ late ++ missing

/-- A return gives a value of the method's type, or none if that is void. -/
def returnRule (s : Site) : Findings := do
  match s.method with
  | none => return []
  | some m =>
    let name ← m.name
    let returnType ← Ty.ofNode (← m.returnType)
    if returnType = .void then
      return if s.node.children.isEmpty then [] else
        [Site.error s.node ("Void method '" ++ name ++ "' cannot return a value")]
    match s.node.children with
    | [] => return [Site.error s.node ("Method '" ++ name ++ "' must return a value of type '" ++
        returnType.text ++ "'")]
    | value :: _ =>
      let type ← s.typeOf value
      return if s.table.compatible returnType type then [] else
        [Site.error s.node ("Method '" ++ name ++ "' returns '" ++ type.text ++ "', expected '" ++
          returnType.text ++ "'")]

def controlFlow : Check where
  name := "ControlFlow"
  rule s :=
    match s.node.kind with
    | .classDecl => notVoid "Field" (s.node.childrenOf [.varDecl])
    | .methodDecl => methodFlow s.node
    | .block => return unreachable s.node.children
    | .returnStmt => returnRule s
    | _ => return []

end JmmCompiler.Check

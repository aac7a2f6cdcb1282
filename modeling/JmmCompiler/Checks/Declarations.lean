import JmmCompiler.Checks.Basic
/-! Names are declared once, and variable arguments stand last in a parameter list and nowhere else. -/
namespace JmmCompiler.Check

/-- An error for every node whose name an earlier node of the list has. -/
def repeated (what : String) (seen : List String) : List (Node × String) → List Report
  | [] => []
  | (n, name) :: rest =>
    (if seen.contains name then [Site.error n ("Duplicate " ++ what ++ ": '" ++ name ++ "'")]
      else []) ++ repeated what (name :: seen) rest

def unique (what : String) (nodes : List Node) : Findings := do
  let named ← nodes.mapM fun n => do return (n, ← n.name)
  return repeated what [] named

/-- Imports are unique by simple name, fields, methods and the variables of a method by name. The
parameters and the local variables of a method share their names. -/
def duplicateDeclarations : Check where
  name := "DuplicateDeclarations"
  rule s :=
    match s.node.kind with
    | .program => do
      let named ← (s.node.childrenOf [.importDecl]).mapM fun n => do
        return (n, simpleName (← n.text "name"))
      return repeated "import" [] named
    | .classDecl => do
      let fields ← unique "field" (s.node.childrenOf [.varDecl])
      return fields ++ (← unique "method" (s.node.childrenOf [.methodDecl]))
    | .methodDecl => unique "variable" (s.node.params ++ s.node.locals)
    | _ => return []

def isVarargs (declaration : Node) : Except Failure Bool := do
  let type ← if declaration.kind = .typeRef then pure declaration else declaration.child 0
  return type.flag "is_varargs"

/-- An error for every declaration of variable arguments in a list that must have none. -/
def noVarargs (what : String) (declarations : List Node) : Findings := do
  let found ← declarations.mapM fun d => do
    if ← isVarargs d then
      return [Site.error d (what ++ " '" ++ (← d.name) ++ "' cannot be varargs")]
    else return []
  return found.flatten

def varargsParams (name : String) (params : List Node) : Findings := do
  match ← params.filterM isVarargs with
  | [] => return []
  | [p] =>
    if ← (params.getLast?.map isVarargs).getD (return true) then return []
    else return [Site.error p
      ("Varargs parameter '" ++ (← p.name) ++ "' must be the last parameter")]
  | _ :: p :: _ =>
    return [Site.error p ("Method '" ++ name ++ "' declares more than one varargs parameter")]

def varargsDeclarations : Check where
  name := "VarargsDeclarations"
  rule s :=
    match s.node.kind with
    | .classDecl => noVarargs "Field" (s.node.childrenOf [.varDecl])
    | .methodDecl => do
      let name ← s.node.name
      let params ← varargsParams name s.node.params
      let returnType ← s.node.returnType
      let returned :=
        if ← isVarargs returnType then
          [Site.error returnType ("Return type of method '" ++ name ++ "' cannot be varargs")]
        else []
      return params ++ returned ++ (← noVarargs "Local variable" s.node.locals)
    | _ => return []

end JmmCompiler.Check

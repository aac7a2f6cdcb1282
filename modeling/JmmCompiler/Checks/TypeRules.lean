import JmmCompiler.Checks.Basic
/-! Conditions, operators, arrays and assignments get values of the right types. -/
namespace JmmCompiler.Check

def binaryRule (s : Site) : Findings := do
  let op ← s.node.op
  let left ← s.node.child 0
  let right ← s.node.child 1
  let leftType ← s.typeOf left
  let rightType ← s.typeOf right
  if !(Ty.assignable leftType rightType && Ty.assignable rightType leftType) then
    return [Site.error s.node ("Incompatible operands for '" ++ op ++ "': '" ++ leftType.text ++
      "' and '" ++ rightType.text ++ "'")]
  match (Operator.ofSymbol? op).bind Operator.operandType? with
  | some wanted =>
    let what := "Operand of '" ++ op ++ "'"
    let found ← s.expect left wanted what
    return found ++ (← s.expect right wanted what)
  | none => return []

/-- The type of an expression that has to be an array, and an error unless it is or cannot be
known. -/
def arrayRule (s : Site) (e : Node) (what : String) : Except Failure (Ty × List Report) := do
  let type ← s.typeOf e
  return (type, if type ≠ .any && !type.isArray then
    [Site.error e (what ++ " requires an array, found '" ++ type.text ++ "'")] else [])

/-- An error for every element that does not fit, with a message made from its type. -/
def elementRule (s : Site) (element : Ty) (message : Ty → String) (elements : List Node) :
    Findings := do
  let found ← elements.mapM fun e => do
    let type ← s.typeOf e
    return if Ty.assignable element type then [] else [Site.error e (message type)]
  return found.flatten

/-- An array literal is assigned to an array element by element. -/
def assignRule (s : Site) : Findings := do
  let target ← s.node.child 0
  let value ← s.node.child 1
  let targetType ← s.typeOf target
  if value.kind = .arrayLiteral && targetType.isArray then
    elementRule s targetType.base
      (fun type => "Cannot assign element of type '" ++ type.text ++ "' to '" ++ targetType.text ++
        "'") value.children
  else
    let valueType ← s.typeOf value
    if s.table.compatible targetType valueType then return []
    return [Site.error s.node ("Cannot assign '" ++ valueType.text ++ "' to '" ++ (← target.name) ++
      "' of type '" ++ targetType.text ++ "'")]

def arrayAssignRule (s : Site) : Findings := do
  match s.node.children with
  | [array, index, value] =>
    let (type, found) ← arrayRule s array "Indexed assignment"
    let found' ← s.expect index .int "Array index"
    if type.isArray then
      return found ++ found' ++ (← s.expect value type.base "Assigned array element")
    else return found ++ found'
  | _ => throw .malformed

def typeChecks : Check where
  name := "TypeChecks"
  rule s :=
    match s.node.kind with
    | .ifStmt => do s.expect (← s.node.child 0) .boolean "Condition of if statement"
    | .whileStmt => do s.expect (← s.node.child 0) .boolean "Condition of while statement"
    | .binary => binaryRule s
    | .unary => do
      let operand ← s.node.child 0
      s.expect operand .boolean ("Operand of '" ++ (← s.node.op) ++ "'")
    | .arrayAccess => do
      let (_, found) ← arrayRule s (← s.node.child 0) "Indexing"
      return found ++ (← s.expect (← s.node.child 1) .int "Array index")
    | .arrayLiteral => do
      if s.node.children.isEmpty then return []
      let element := (← s.typeOf s.node).base
      elementRule s element
        (fun type => "Array element of type '" ++ type.text ++ "' does not match '" ++
          element.text ++ "'") s.node.children
    | .newArray => do s.expect (← s.node.child 0) .int "Array size"
    | .length => do return (← arrayRule s (← s.node.child 0) "'length'").2
    | .assign => assignRule s
    | .arrayAssign => arrayAssignRule s
    | _ => return []

end JmmCompiler.Check

import JmmCompiler.Code.Program
import JmmCompiler.Lowering.Expression
/-! Statements, methods and programs in three-address code. A statement becomes a sequence of
instructions in which labels mark the places that jumps go to. -/
namespace JmmCompiler
namespace SymbolTable
variable (t : SymbolTable)

/-- A store into an array element. -/
def lowerStore (method : String) (array index value : Node) : Lower (List Instruction) := do
  let array ← t.lower method (some .intArray) array
  let index ← t.lower method (some .int) index
  let element := (← array.code.type).base
  let value ← t.lower method (some element) value
  let name ← array.code.name
  return array.computation ++ index.computation ++ value.computation ++
    [.assign (.item name element index.code) (.single value.code)]

/-- The literal that a node is, if it is one. -/
def literalElement? (n : Node) : Except Failure (Option Element) := do
  match n.kind with
  | .intLiteral =>
    match (← n.required "value").toInt? with
    | some i => return some (.literal i .int)
    | none => throw .malformed
  | .boolLiteral =>
    return some (.literal (if (← n.required "value").isSet then 1 else 0) .boolean)
  | _ => return none

/-- `x = x op literal` as one instruction, if the value has that form. -/
def selfUpdate? (name : String) (type : Ty) (value : Node) : Except Failure (Option Instruction) := do
  if value.kind ≠ .binary then return none
  let op ← value.op
  match Operator.ofSymbol? op with
  | none | some (.comparison _) => return none
  | some _ =>
    match value.children with
    | [left, right] =>
      if left.kind ≠ .varRef then return none
      if (← left.name) ≠ name then return none
      return (← literalElement? right).map fun literal =>
        .binary op (.var name type) literal type
    | _ => throw .malformed

/-- An assignment to a parameter or a local variable, or else to a field. -/
def lowerAssign (method name : String) (value : Node) : Lower (List Instruction) := do
  match t.binding? method name with
  | some s =>
    let dest := Element.var name s.type
    match ← selfUpdate? name s.type value with
    | some update => return [.assign dest update]
    | none =>
      let value ← t.lower method (some s.type) value
      return value.computation ++ [.assign dest (.single value.code)]
  | none =>
    match t.field? name with
    | some f =>
      let value ← t.lower method (some f.type) value
      return value.computation ++ [.putField t.thisElement (.var name f.type) value.code]
    | none => throw (.notAssignable name method)

/-- A jump to a label when a condition holds. A comparison or a negation is tested by the jump
itself. -/
def lowerBranch (method : String) (condition : Node) (label : String) :
    Lower (List Instruction) := do
  let isComparison ←
    if condition.kind = .binary then pure (Comparison.ofSymbol? (← condition.op)).isSome
    else pure false
  let isNegation ←
    if condition.kind = .unary then pure (decide ((← condition.op) = "!")) else pure false
  if isComparison then
    let left ← t.lower method (some .int) (← condition.child 0)
    let right ← t.lower method (some .int) (← condition.child 1)
    return left.computation ++ right.computation ++
      [.branch (.binary (← condition.op) left.code right.code .boolean) label]
  else if isNegation then
    let operand ← t.lower method (some .boolean) (← condition.child 0)
    return operand.computation ++ [.branch (.unary "!" operand.code .boolean) label]
  else
    let value ← t.lower method (some .boolean) condition
    return value.computation ++ [.branch (.single value.code) label]

mutual
def lowerStatement (method : String) (returnType : Ty) : Node → Lower (List Instruction)
  | ⟨kind, _, children, _⟩ =>
    match kind with
    | .block => lowerSequence method returnType children
    | .exprStmt =>
      match children with
      | [] => throw (.missingChild kind 0)
      | e :: _ => do return (← t.lower method (some .void) e).computation
    | .assign =>
      match children with
      | [target, value] => do
        if target.kind = .arrayAccess then
          t.lowerStore method (← target.child 0) (← target.child 1) value
        else t.lowerAssign method (← target.name) value
      | _ => throw .malformed
    | .arrayAssign =>
      match children with
      | [array, index, value] => t.lowerStore method array index value
      | _ => throw .malformed
    | .returnStmt =>
      match children with
      | [] => return [.ret .absent .void]
      | value :: _ => do
        let value ← t.lower method (some returnType) value
        return value.computation ++ [.ret value.code returnType]
    | .ifStmt => do
      let id := toString (← Lower.label)
      let thenLabel := "if_then_" ++ id
      let elseLabel := "if_else_" ++ id
      let endLabel := "if_end_" ++ id
      match children with
      | [] => throw (.missingChild kind 0)
      | [condition] =>
        let _ ← t.lowerBranch method condition thenLabel
        throw (.missingChild kind 1)
      | [condition, thenPart, elsePart] =>
        let test ← t.lowerBranch method condition thenLabel
        let elseCode ← lowerStatement method returnType elsePart
        let thenCode ← lowerStatement method returnType thenPart
        return test ++ [.label elseLabel] ++ elseCode ++ [.goto endLabel, .label thenLabel] ++
          thenCode ++ [.label endLabel]
      | condition :: thenPart :: _ =>
        let test ← t.lowerBranch method condition thenLabel
        let thenCode ← lowerStatement method returnType thenPart
        return test ++ [.goto endLabel, .label thenLabel] ++ thenCode ++ [.label endLabel]
    | .whileStmt => do
      let id := toString (← Lower.label)
      let conditionLabel := "while_cond_" ++ id
      let bodyLabel := "while_body_" ++ id
      let endLabel := "while_end_" ++ id
      match children with
      | [] => throw (.missingChild kind 1)
      | [_] => throw (.missingChild kind 1)
      | condition :: body :: _ =>
        let bodyCode ← lowerStatement method returnType body
        let test ← t.lowerBranch method condition bodyLabel
        return [.goto conditionLabel, .label bodyLabel] ++ bodyCode ++ [.label conditionLabel] ++
          test ++ [.label endLabel]
    | _ => throw (.unsupportedStatement kind)

def lowerSequence (method : String) (returnType : Ty) : List Node → Lower (List Instruction)
  | [] => return []
  | s :: rest => do
    let first ← lowerStatement method returnType s
    return first ++ (← lowerSequence method returnType rest)
end

/-- A method with its signature from the symbol table. -/
def lowerMethod (n : Node) : Lower CodeMethod := do
  let name ← n.name
  let m ← t.method name
  modify (·.reserve ((m.params ++ m.locals).map (·.name)))
  let empty : CodeMethod :=
    { name, returnType := m.returnType, params := m.params, isStatic := m.isStatic,
      isPublic := m.isPublic }
  let code ← t.lowerSequence name m.returnType n.statements
  (← empty.extend code).finish

/-- The class of a program. -/
def lowerProgram (root : Node) : Lower CodeProgram := do
  let c ← root.classDecl
  modify (·.reserve (t.fields.map (·.name)))
  let methods ← (c.childrenOf [.methodDecl]).mapM t.lowerMethod
  return { className := t.className, superClass := t.superClass, imports := t.imports,
           fields := t.fields, methods }

/-- The three-address code of a program. -/
def generate (root : Node) : Except Failure CodeProgram := do
  return (← (t.lowerProgram root).run {}).1

end SymbolTable
end JmmCompiler

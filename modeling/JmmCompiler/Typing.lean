import JmmCompiler.SymbolTable
import JmmCompiler.Types.Operator
/-! The static types of expressions. -/
namespace JmmCompiler
namespace SymbolTable
variable (t : SymbolTable)

/-- The type of a variable in a method: that of a field, or else of a parameter, or else of a local
variable. -/
def variableType? (method : Option String) (name : String) : Option Ty :=
  (((t.field? name).or (t.param? method name)).or (t.local? method name)).map (·.type)

/-- Assignable, or the class where its superclass is wanted. -/
def compatible (target value : Ty) : Bool :=
  Ty.assignable target value ||
    (!target.isArray && !value.isArray && value.name = t.className &&
      t.superClass = some target.name)

/-- The type of an expression in a method. -/
def typeOf (method : Option String) : Node → Except Failure Ty
  | ⟨kind, attributes, children, position⟩ =>
    let n : Node := ⟨kind, attributes, [], position⟩
    match kind with
    | .binary => do
      let op ← n.op
      match Operator.ofSymbol? op with
      | some o => return o.resultType
      | none => throw (.unknownOperator op)
    | .unary => return .boolean
    | .paren =>
      match children with
      | [] => throw (.missingChild kind 0)
      | inner :: _ => typeOf method inner
    | .varRef => return (t.variableType? method (← n.name)).getD .any
    | .intLiteral => return .int
    | .boolLiteral => return .boolean
    | .thisRef => return t.classType
    | .newObject => return ⟨← n.text "name", false⟩
    | .newArray => return ⟨← n.name, true⟩
    | .arrayLiteral =>
      match n.attribute? "element_type" with
      | some .null | none =>
        match children with
        | [] => return .intArray
        | first :: _ => do return (← typeOf method first).arrayOf
      | some _ => return ⟨← n.word "element_type", true⟩
    | .arrayAccess =>
      match children with
      | [] => throw (.missingChild kind 0)
      | array :: _ => do
        let type ← typeOf method array
        return if type = .any then .any else type.base
    | .length => return .int
    | .call => do
      let name ← n.name
      let other : Ty := if name = "length" ∧ children.length = 1 then .int else .any
      match t.method? name with
      | none => return other
      | some m =>
        match children with
        | [] => throw (.missingChild kind 0)
        | receiver :: _ => do
          if receiver.kind = .thisRef then return m.returnType
          if (← typeOf method receiver) = t.classType then return m.returnType
          return other
    | _ => throw (.unsupportedExpression kind)
termination_by structural n => n

/-- Whether a call on a receiver calls a method of the class. -/
def isOwnReceiver (method : Option String) (receiver : Node) : Except Failure Bool := do
  if receiver.kind = .thisRef then return true
  return (← t.typeOf method receiver) = t.classType

/-- Whether a call calls a method of the class. -/
def isOwnCall (method : Option String) (name : String) (receiver : Node) : Except Failure Bool :=
  if t.hasMethod name then t.isOwnReceiver method receiver else return false

end SymbolTable
end JmmCompiler

import JmmCompiler.Code.Instruction
import JmmCompiler.Lowering.Names
import JmmCompiler.Typing
/-! Expressions in three-address code. Every operator, call and access gets a temporary of its own;
`&&` becomes jumps, so that its right side runs only when the left side holds. -/
namespace JmmCompiler

/-- A lowered expression: `code` is its value once the computation has run, absent for a call that
gives none. -/
structure Lowered where
  code : Element
  computation : List Instruction := []
  deriving DecidableEq, Inhabited

namespace SymbolTable
variable (t : SymbolTable)

def thisElement : Element := .var "this" t.classType

/-- A value that is computed into a new temporary, after `before`. -/
def intoTemp (before : List Instruction) (type : Ty) (value : Instruction) : Lower Lowered := do
  let temp := Element.var (← Lower.temp) type
  return ⟨temp, before ++ [.assign temp value]⟩

/-- A parameter or a local variable stands for itself, a field is read from `this`, and an imported
name is a class. -/
def lowerVariable (method name : String) : Lower Lowered :=
  match t.binding? method name with
  | some s => return ⟨.var name s.type, []⟩
  | none =>
    match t.field? name with
    | some f => intoTemp [] f.type (.getField t.thisElement (.var name f.type))
    | none =>
      if t.isImported name then return ⟨.classRef name ⟨name, false⟩, []⟩
      else throw (.unresolvedVariable name method)

/-- The type wanted of an operand of `op` that stands beside `other`. -/
def operandHint (method : String) (op : String) (other : Node) : Except Failure Ty := do
  match (Operator.ofSymbol? op).bind Operator.operandType? with
  | some type => return type
  | none =>
    let type ← t.typeOf method other
    return if type = .any then .int else type

/-- A new array of a size that is computed before it. -/
def lowerNewArray (element : String) (size : Lowered) : Lower Lowered :=
  intoTemp size.computation ⟨element, true⟩
    (.call .new .absent none [size.code] ⟨element, true⟩)

/-- A name that is no variable but that of an import is a class. -/
def isClassReceiver (method : String) (receiver : Node) : Except Failure Bool := do
  if receiver.kind ≠ .varRef then return false
  let name ← receiver.name
  return (t.binding? method name).isNone && (t.field? name).isNone && t.isImported name

/-- The length of an array that is lowered already. -/
def lengthOf (array : Lowered) : Lower Lowered :=
  intoTemp array.computation .int (.call .arrayLength array.code none [] .int)

/-- The type asked of an array whose element is wanted as `expected`. -/
def elementWanted (expected : Option Ty) : Ty :=
  match expected with
  | some type => if type = .any ∨ type = .void ∨ type.isArray then .int else type
  | none => .int

mutual
/-- An expression of a method. `expected` is the type that its surroundings want; it types calls whose
result cannot be known. -/
def lower (method : String) (expected : Option Ty) : Node → Lower Lowered
  | ⟨kind, attributes, children, position⟩ =>
    let n : Node := ⟨kind, attributes, children, position⟩
    match kind with
    | .intLiteral => do
      match (← n.required "value").toInt? with
      | some i => return ⟨.literal i .int, []⟩
      | none => throw .malformed
    | .boolLiteral => do
      return ⟨.literal (if (← n.required "value").isSet then 1 else 0) .boolean, []⟩
    | .paren =>
      match children with
      | [] => throw (.missingChild kind 0)
      | inner :: _ => lower method expected inner
    | .varRef => do t.lowerVariable method (← n.name)
    | .thisRef => return ⟨t.thisElement, []⟩
    | .binary => do
      let op ← n.op
      if op = "&&" then
        let label ← Lower.label
        match children with
        | [] => throw (.missingChild kind 0)
        | [left] =>
          let _ ← lower method (some .boolean) left
          throw (.missingChild kind 1)
        | left :: right :: _ =>
          let left ← lower method (some .boolean) left
          let right ← lower method (some .boolean) right
          let temp := Element.var (← Lower.temp) .boolean
          let otherwise := "and_false_" ++ toString label
          let done := "and_end_" ++ toString label
          return ⟨temp, left.computation ++
            [.branch (.unary "!" left.code .boolean) otherwise] ++ right.computation ++
            [.assign temp (.single right.code), .goto done, .label otherwise,
             .assign temp (.single (.literal 0 .boolean)), .label done]⟩
      else
        let type ← match Operator.ofSymbol? op with
          | some o => pure o.resultType
          | none => throw (.unknownOperator op)
        match children with
        | [] => throw (.missingChild kind 0)
        | [_] => throw (.missingChild kind 1)
        | left :: right :: _ =>
          let leftHint ← t.operandHint method op right
          let leftValue ← lower method (some leftHint) left
          let rightHint ← t.operandHint method op left
          let rightValue ← lower method (some rightHint) right
          intoTemp (leftValue.computation ++ rightValue.computation) type
            (.binary op leftValue.code rightValue.code type)
    | .unary =>
      match children with
      | [] => throw (.missingChild kind 0)
      | operand :: _ => do
        let operand ← lower method (some .boolean) operand
        intoTemp operand.computation .boolean (.unary (← n.op) operand.code .boolean)
    | .newObject => do
      let type : Ty := ⟨← n.text "name", false⟩
      let temp := Element.var (← Lower.temp) type
      return ⟨temp, [.assign temp (.call .new (.classRef type.name type) none [] type),
        .call .special temp (some "<init>") [] .void]⟩
    | .newArray =>
      match children with
      | [] => throw (.missingChild kind 0)
      | size :: _ => do
        let size ← lower method (some .int) size
        lowerNewArray (← n.name) size
    | .arrayLiteral => do
      let element := (← t.typeOf method n).base
      let array ← lowerNewArray element.name ⟨.literal children.length .int, []⟩
      let name ← array.code.name
      let stores ← lowerElements method name element 0 children
      return ⟨array.code, array.computation ++ stores⟩
    | .arrayAccess =>
      match children with
      | [] => throw (.missingChild kind 0)
      | array :: rest => do
        let array ← lower method (some (elementWanted expected).arrayOf) array
        match rest with
        | [] => throw (.missingChild kind 1)
        | index :: _ =>
          let index ← lower method (some .int) index
          let element := (← array.code.type).base
          let name ← array.code.name
          intoTemp (array.computation ++ index.computation) element
            (.single (.item name element index.code))
    | .length =>
      match children with
      | [] => throw (.missingChild kind 0)
      | array :: _ => do lengthOf (← lower method (some .intArray) array)
    | .call => do
      let name ← n.name
      match children with
      | [] => throw (.missingChild kind 0)
      | receiver :: args =>
        let isOwn ← t.isOwnCall method name receiver
        let isLength ←
          if !isOwn && name = "length" && args.isEmpty then
            pure (← t.typeOf method receiver).isArray
          else pure false
        if isLength then lengthOf (← lower method (some .intArray) receiver)
        else
          let (invocation, target) ←
            if isOwn && t.isStatic name then
              pure (Invocation.static, ⟨.classRef t.className t.classType, []⟩)
            else do
              if ← t.isClassReceiver method receiver then
                let c ← receiver.name
                pure (Invocation.static, ⟨.classRef c ⟨c, false⟩, []⟩)
              else pure (Invocation.virtual, ← lower method none receiver)
          let (type, params) ←
            if isOwn then do
              let m ← t.method name
              pure (m.returnType, m.params.map (·.type))
            else pure (((expected.filter (· ≠ .any)).getD .int), [])
          let (before, codes) ← lowerArguments method params args
          let before := target.computation ++ before
          let call := Instruction.call invocation target.code (← n.name?) codes type
          if type = .void then return ⟨.absent, before ++ [call]⟩
          else intoTemp before type call
    | _ => throw (.unsupportedExpression kind)

/-- Stores elements into an array from `index` on. -/
def lowerElements (method array : String) (element : Ty) (index : Nat) :
    List Node → Lower (List Instruction)
  | [] => return []
  | e :: es => do
    let value ← lower method (some element) e
    let store := Instruction.assign (.item array element (.literal index .int)) (.single value.code)
    return value.computation ++ [store] ++ (← lowerElements method array element (index + 1) es)

/-- Arguments one after the other, each wanted as its parameter's type while there are parameters. -/
def lowerArguments (method : String) (params : List Ty) :
    List Node → Lower (List Instruction × List Element)
  | [] => return ([], [])
  | arg :: args => do
    let value ← lower method params.head? arg
    let (computation, codes) ← lowerArguments method params.tail args
    return (value.computation ++ computation, value.code :: codes)
end

end SymbolTable
end JmmCompiler

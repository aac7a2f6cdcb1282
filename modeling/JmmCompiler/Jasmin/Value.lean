import JmmCompiler.Code.Program
import JmmCompiler.Jasmin.Body
import JmmCompiler.Jasmin.Descriptor
/-! Loading values, storing them and combining them on the operand stack. -/
namespace JmmCompiler.Jasmin

/-- The method whose body is emitted, and the class that it belongs to. -/
structure Scope where
  program : CodeProgram
  method : CodeMethod

namespace Scope
variable (s : Scope)

def slot (op : SlotOp) (name : String) : Emit Unit := do
  Emit.slot op (← Emit.ofExcept (s.method.slot name))

def internalName (name : String) : String := Jasmin.internalName s.program.imports name

def descriptor (t : Ty) : String := Jasmin.descriptor s.program.imports t

def methodDescriptor (params : List Ty) (returnType : Ty) : String :=
  Jasmin.methodDescriptor s.program.imports params returnType

def arrayLoad (element : Ty) : Plain :=
  if element.name = "int" then .iaload else if element.name = "boolean" then .baload else .aaload

def arrayStore (element : Ty) : Plain :=
  if element.name = "int" then .iastore else if element.name = "boolean" then .bastore
  else .aastore

/-- Pushes the value of an element. -/
def load : Element → Emit Unit
  | .literal n _ => Emit.line (.const n)
  | .var name type => s.slot (if type.isIntLike then .iload else .aload) name
  | .classRef name _ => throw (.classAsValue name)
  | .item array type index => do
    s.slot .aload array
    load index
    Emit.plain (arrayLoad type)
  | .absent => throw .absentOperand

def loadAll : List Element → Emit Unit
  | [] => return
  | e :: es => do
    s.load e
    loadAll es

/-- Pops a value into the slot of a variable. -/
def store (dest : Element) : Emit Unit := do
  let name ← Emit.ofExcept dest.name
  let n ← Emit.ofExcept (s.method.slot name)
  let type ← Emit.ofExcept dest.type
  Emit.slot (if type.isIntLike then .istore else .astore) n

def isZero : Element → Bool
  | .literal n _ => n = 0
  | _ => false

/-- Jumps when a comparison holds. Zero on the right need not be loaded. -/
def compareJump (op : String) (left right : Element) (label : String) : Emit Unit := do
  s.load left
  if !(← Emit.ofExcept left.type).isIntLike then
    s.load right
    Emit.referenceJump op label
  else if isZero right then Emit.numberJump .zero op label
  else
    s.load right
    Emit.numberJump .ints op label

/-- Pushes 1 when a jump to `trueLabel` was taken and 0 when not. -/
def booleanResult (trueLabel : String) : Emit Unit := do
  let endLabel ← Emit.newLabel "j_end"
  Emit.line (.const 0)
  Emit.line (.goto endLabel)
  Emit.line (.label trueLabel)
  Emit.line (.const 1)
  Emit.line (.label endLabel)

def opcode : Operator → Option Plain
  | .arithmetic .add => some .iadd
  | .arithmetic .sub => some .isub
  | .arithmetic .mul => some .imul
  | .arithmetic .div => some .idiv
  | .logical .and => some .iand
  | .logical .or => some .ior
  | .comparison _ => none

/-- Pushes the value of a binary operation. -/
def binary (op : String) (left right : Element) : Emit Unit := do
  match Operator.ofSymbol? op with
  | none => throw (.unsupportedBinary op)
  | some o =>
    match opcode o with
    | some p =>
      s.load left
      s.load right
      Emit.plain p
    | none =>
      let trueLabel ← Emit.newLabel "j_true"
      s.compareJump op left right trueLabel
      booleanResult trueLabel

/-- Pushes the value of a unary operation. -/
def unary (op : String) (operand : Element) : Emit Unit := do
  if op ≠ "!" then throw (.unsupportedUnary op)
  let trueLabel ← Emit.newLabel "j_true"
  s.load operand
  Emit.line (.jump .zero .eq trueLabel)
  booleanResult trueLabel

end Scope
end JmmCompiler.Jasmin

import JmmCompiler.Jasmin.Call
/-! The limits that a method declares: how deep the operand stack gets and how many slots there are. -/
namespace JmmCompiler

namespace Instruction

/-- The stack that loading an element takes. -/
def loadDepth (e : Element) : Nat := if e.isItem then 2 else 1

/-- The stack that computing the value of an instruction takes. -/
def valueDepth : Instruction → Nat
  | single e => loadDepth e
  | binary _ l r _ => max (loadDepth l) (1 + loadDepth r)
  | unary _ e _ => loadDepth e
  | call invocation _ _ args _ => max (Jasmin.operandCount invocation args) 1 + 1
  | getField .. => 1
  | _ => 0

/-- The stack that an instruction takes. -/
def depth : Instruction → Nat
  | assign dest i => if dest.isItem then max 3 (2 + i.valueDepth) else i.valueDepth
  | branch condition _ => condition.valueDepth
  | putField _ _ value => 1 + loadDepth value
  | ret .absent _ => 0
  | ret e _ => loadDepth e
  | i => i.valueDepth

end Instruction

namespace CodeMethod

/-- The stack limit of a method, at least 2. -/
def stackLimit (m : CodeMethod) : Nat := (m.code.map Instruction.depth).foldl max 2

/-- The number of slots of a method: those of `this` and the parameters, and all up to the highest that
a variable has. -/
def localsLimit (m : CodeMethod) : Int := max m.reserved (m.slots.highest + 1)

end CodeMethod
end JmmCompiler

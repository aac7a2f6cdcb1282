import JmmCompiler.Jasmin.Call
/-! The lines that a three-address instruction becomes. -/
namespace JmmCompiler.Jasmin.Scope
variable (s : Scope)

/-- Pushes the value of an instruction. -/
def value : Instruction → Emit Unit
  | .single e => s.load e
  | .binary op l r _ => s.binary op l r
  | .unary op e _ => s.unary op e
  | .call invocation receiver method args type => s.call invocation receiver method args type
  | .getField _ f => s.getField f
  | i => throw (.unsupportedValue i.form)

/-- The amount by which an assignment changes an integer variable, if it does just that and the amount
fits an increment. -/
def increment? (dest : Element) (i : Instruction) : Except Failure (Option Int) := do
  match dest, i with
  | .item .., _ => return none
  | dest, .binary op left right _ =>
    if op ≠ "+" ∧ op ≠ "-" then return none
    if (← dest.type) ≠ .int then return none
    match left, right with
    | .var name _, .literal n _ | .classRef name _, .literal n _ =>
      if name ≠ (← dest.name) then return none
      let amount := if op = "+" then n else -n
      return if fitsByte amount then some amount else none
    | _, _ => return none
  | _, _ => return none

def assign (dest : Element) (i : Instruction) : Emit Unit := do
  match dest with
  | .item array type index =>
    s.slot .aload array
    s.load index
    s.value i
    Emit.plain (arrayStore type)
  | _ =>
    match ← Emit.ofExcept (increment? dest i) with
    | some amount =>
      let name ← Emit.ofExcept dest.name
      Emit.increment (← Emit.ofExcept (s.method.slot name)) amount
    | none =>
      s.value i
      s.store dest

/-- Jumps when a condition holds. A comparison or a negation is tested by the jump itself. -/
def branch (condition : Instruction) (label : String) : Emit Unit := do
  match condition with
  | .binary op l r _ =>
    if (Comparison.ofSymbol? op).isSome then s.compareJump op l r label
    else
      s.value condition
      Emit.line (.jump .zero .ne label)
  | .unary "!" e _ =>
    s.load e
    Emit.line (.jump .zero .eq label)
  | _ =>
    s.value condition
    Emit.line (.jump .zero .ne label)

def ret (operand : Element) (type : Ty) : Emit Unit := do
  if operand = .absent ∨ type = .void then Emit.plain .ret
  else
    s.load operand
    Emit.plain (if type.isIntLike then .iret else .aret)

/-- The lines of an instruction. A value that nothing takes is popped. -/
def instruction : Instruction → Emit Unit
  | .assign dest i => s.assign dest i
  | .call invocation receiver method args type => do
    s.call invocation receiver method args type
    if type ≠ .void then Emit.plain .pop
  | .putField _ f value => s.putField f value
  | .ret operand type => s.ret operand type
  | .branch condition label => s.branch condition label
  | .goto label => Emit.line (.goto label)
  | .nop => Emit.plain .nop
  | i@(.single _) | i@(.binary ..) | i@(.unary ..) | i@(.getField ..) => do
    s.value i
    Emit.plain .pop
  | .label name => throw (.unsupportedInstruction (Instruction.label name).form)

end JmmCompiler.Jasmin.Scope

import JmmCompiler.Jasmin.Value
/-! Calls, allocations and field accesses. -/
namespace JmmCompiler.Jasmin

/-- The number of values that a call pops. -/
def operandCount (invocation : Invocation) (args : List Element) : Nat :=
  match invocation with
  | .virtual | .special | .arrayLength => args.length + 1
  | .static | .new => args.length

namespace Scope
variable (s : Scope)

/-- The descriptor of the method that a call reaches. A method of the class has its declared one, and
other methods one that is made from the arguments. -/
def callDescriptor (receiver : Element) (method : Option String) (args : List Element)
    (type : Ty) : Except Failure String := do
  if method = some "<init>" then
    return s.methodDescriptor (← args.mapM Element.type) .void
  let isOwn ← if receiver = .absent then pure false else do
    pure (decide ((← receiver.type).name = s.program.className))
  let declared := s.program.methods.find? fun m => isOwn && some m.name = method
  match declared with
  | some m => return s.methodDescriptor (m.params.map (·.type)) m.returnType
  | none => return s.methodDescriptor (← args.mapM Element.type) type

/-- An instruction that calls a method of a class. -/
def invoke (op : CallOp) (owner : String) (receiver : Element) (method : Option String)
    (args : List Element) (type : Ty) : Emit Unit := do
  let descriptor ← Emit.ofExcept (s.callDescriptor receiver method args type)
  Emit.line (.invoke op (s.internalName owner) (method.getD "None") descriptor)

/-- Pushes what a call, an allocation or an array length gives. -/
def call (invocation : Invocation) (receiver : Element) (method : Option String)
    (args : List Element) (type : Ty) : Emit Unit := do
  match invocation with
  | .new =>
    if type.isArray then
      match args with
      | [size] =>
        s.load size
        Emit.line (.newArray
          (if type.name = "int" ∨ type.name = "boolean" then type.name
            else s.internalName type.name))
      | _ => throw .arrayAllocation
    else Emit.line (.new (s.internalName type.name))
  | .arrayLength =>
    s.load receiver
    Emit.plain .arrayLength
  | .static =>
    s.loadAll args
    s.invoke .static (← Emit.ofExcept receiver.name) receiver method args type
  | .virtual =>
    s.load receiver
    s.loadAll args
    s.invoke .virtual (← Emit.ofExcept receiver.type).name receiver method args type
  | .special =>
    s.load receiver
    s.loadAll args
    s.invoke .special (← Emit.ofExcept receiver.type).name receiver method args type

/-- A field of the class, named and typed by an element. -/
def field (op : FieldOp) (f : Element) : Emit Unit := do
  let name ← Emit.ofExcept f.name
  let type ← Emit.ofExcept f.type
  Emit.line (.field op s.program.className name (s.descriptor type))

def getField (f : Element) : Emit Unit := do
  Emit.slot .aload 0
  s.field .get f

def putField (f value : Element) : Emit Unit := do
  Emit.slot .aload 0
  s.load value
  s.field .put f

end Scope
end JmmCompiler.Jasmin

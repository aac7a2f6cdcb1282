import JmmCompiler.Jasmin.Instruction
import JmmCompiler.Jasmin.Limits
/-! The assembly text of a class. -/
namespace JmmCompiler

namespace Jasmin.Scope
variable (s : Scope)

/-- Instructions with the labels on them, from `index` on. -/
def instructions (index : Nat) : List Instruction → Emit Unit
  | [] => return
  | i :: rest => do
    for label in s.method.labelsAt index do Emit.line (.label label)
    s.instruction i
    instructions (index + 1) rest

def isReturn : Instruction → Bool
  | .ret .. => true
  | _ => false

/-- The body of a method. A void method returns at its end. -/
def body : Emit Unit := do
  s.instructions 0 s.method.code
  if s.method.returnType = .void && !s.method.code.getLast?.any isReturn then Emit.plain .ret

/-- The lines of a method's body. -/
def bodyLines : Except Failure (List Line) :=
  match s.body.run {} with
  | (.ok _, b) => .ok b.lines
  | (.error e, _) => .error e

def header : String :=
  let m := s.method
  let words := [".method"] ++ (if m.isPublic then ["public"] else []) ++
    (if m.isStatic then ["static"] else []) ++
    [m.name ++ s.methodDescriptor (m.params.map (·.type)) m.returnType]
  String.intercalate " " words

def methodLines : Except Failure (List String) := do
  let lines ← s.bodyLines
  return [s.header, "    .limit stack " ++ toString s.method.stackLimit,
    "    .limit locals " ++ toString s.method.localsLimit] ++ lines.map Line.text ++ [".end method"]

end Jasmin.Scope

namespace CodeProgram
variable (p : CodeProgram)

/-- The internal name of the superclass. -/
def superName : String :=
  match p.parent? with
  | some s => Jasmin.internalName p.imports s
  | none => "java/lang/Object"

/-- The assembly text of a class, with a constructor that only calls that of the superclass. -/
def assembly : Except Failure String := do
  let fields := p.fields.map fun f =>
    ".field public " ++ f.name ++ " " ++ Jasmin.descriptor p.imports f.type
  let methods ← p.methods.mapM fun m => do return "" :: (← (Jasmin.Scope.mk p m).methodLines)
  let lines := [".class public " ++ p.className, ".super " ++ p.superName, ""] ++
    fields ++ (if p.fields.isEmpty then [] else [""]) ++
    [".method public <init>()V", "    aload_0",
     "    invokespecial " ++ p.superName ++ "/<init>()V", "    return", ".end method"] ++
    methods.flatten
  return String.intercalate "\n" lines ++ "\n"

end CodeProgram
end JmmCompiler

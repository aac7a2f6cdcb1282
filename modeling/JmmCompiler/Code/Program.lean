import JmmCompiler.Code.Method
/-! A class in three-address code. -/
namespace JmmCompiler

structure CodeProgram where
  className : String
  superClass : Option String := none
  imports : List String := []
  fields : List Symbol := []
  methods : List CodeMethod := []
  deriving DecidableEq, Inhabited

namespace CodeProgram
variable (p : CodeProgram)

/-- The superclass, if one is named. -/
def parent? : Option String := p.superClass.filter (· ≠ "")

def method (name : String) : Except Failure CodeMethod :=
  match p.methods.find? (·.name = name) with
  | some m => .ok m
  | none => .error (.unknownCodeMethod name)

def text : Except Failure String := do
  let header := p.className ++ match p.parent? with
    | some s => " extends " ++ s
    | none => ""
  let methods ← p.methods.mapM CodeMethod.text
  let lines := p.imports.map (fun i => "import " ++ i ++ ";") ++ [header ++ " \x7b"] ++
    p.fields.map (fun f => ".field public " ++ f.name ++ "." ++ f.type.codeName ++ ";") ++
    [".construct " ++ p.className ++ "().V \x7b", "    invokespecial(this, \"<init>\").V;", "\x7d"]
  return String.intercalate "\n" (lines ++ methods ++ ["\x7d"]) ++ "\n"

end CodeProgram
end JmmCompiler

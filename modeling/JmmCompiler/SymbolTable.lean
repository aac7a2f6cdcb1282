import JmmCompiler.Types.OfNode
/-! What a program declares: the class with its imports, its fields and its methods. Of two
declarations of one name the first is found. -/
namespace JmmCompiler

/-- A method: its signature, its local variables and its modifiers. -/
structure MethodInfo where
  name : String
  returnType : Ty
  params : List Symbol
  locals : List Symbol
  isStatic : Bool := false
  isPublic : Bool := false
  /-- The last parameter takes any number of arguments. -/
  isVarargs : Bool := false
  deriving DecidableEq, Inhabited

structure SymbolTable where
  className : String
  superClass : Option String := none
  imports : List String := []
  fields : List Symbol := []
  methods : List MethodInfo := []
  deriving DecidableEq, Inhabited

/-- The part of a dotted name after the last dot. -/
def simpleName (name : String) : String :=
  String.ofList (name.toList.reverse.takeWhile (· ≠ '.')).reverse

namespace Symbol

def lookup? (symbols : List Symbol) (name : String) : Option Symbol :=
  symbols.find? (·.name = name)

end Symbol

namespace MethodInfo

def ofNode (n : Node) : Except Failure MethodInfo := do
  let isVarargs ← match n.params.getLast? with
    | some p => pure ((← p.child 0).flag "is_varargs")
    | none => pure false
  let name ← n.name
  let returnType ← Ty.ofNode (← n.returnType)
  let params ← n.params.mapM Symbol.ofNode
  let locals ← n.locals.mapM Symbol.ofNode
  return { name, returnType, params, locals, isVarargs,
           isStatic := n.flag "is_static", isPublic := n.flag "is_public" }

def text (m : MethodInfo) : String :=
  m.returnType.text ++ " " ++ m.name ++ "(" ++
    String.intercalate ", " (m.params.map fun p => p.type.text ++ " " ++ p.name) ++ ")"

end MethodInfo

namespace SymbolTable

/-- The symbol table of a program. -/
def build (root : Node) : Except Failure SymbolTable := do
  let c ← root.classDecl
  let imports ← (root.childrenOf [.importDecl]).mapM (·.text "name")
  let className ← c.name
  let superClass := match c.attribute? "superclass" with
    | some (.text s) => some s
    | _ => none
  let fields ← (c.childrenOf [.varDecl]).mapM Symbol.ofNode
  let methods ← (c.childrenOf [.methodDecl]).mapM MethodInfo.ofNode
  return { className, superClass, imports, fields, methods }

variable (t : SymbolTable)

def importNames : List String := t.imports.map simpleName

/-- A class is imported under its full name and under the last part of it. -/
def isImported (name : String) : Bool := t.imports.contains name || t.importNames.contains name

def method? (name : String) : Option MethodInfo := t.methods.find? (·.name = name)

def hasMethod (name : String) : Bool := (t.method? name).isSome

def method (name : String) : Except Failure MethodInfo :=
  match t.method? name with
  | some m => .ok m
  | none => .error (.unknownMethod name)

def field? (name : String) : Option Symbol := Symbol.lookup? t.fields name

def param? (method : Option String) (name : String) : Option Symbol :=
  (method.bind t.method?).bind fun m => Symbol.lookup? m.params name

def local? (method : Option String) (name : String) : Option Symbol :=
  (method.bind t.method?).bind fun m => Symbol.lookup? m.locals name

/-- A parameter of a method, or else a local variable of it. -/
def binding? (method : Option String) (name : String) : Option Symbol :=
  (t.param? method name).or (t.local? method name)

def isStatic (method : String) : Bool := (t.method? method).any (·.isStatic)

/-- The type of the class itself. -/
def classType : Ty := ⟨t.className, false⟩

def text : String :=
  let parent := match t.superClass with
    | some s => if s = "" then [] else ["Super: " ++ s]
    | none => []
  String.intercalate "\n" <|
    ["Class: " ++ t.className] ++ parent ++
    t.imports.map ("Import: " ++ ·) ++
    t.fields.map (fun f => "Field: " ++ f.type.text ++ " " ++ f.name) ++
    t.methods.map ("Method: " ++ ·.text)

end SymbolTable
end JmmCompiler

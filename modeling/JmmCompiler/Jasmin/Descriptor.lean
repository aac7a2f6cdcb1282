import JmmCompiler.Types.Basic
/-! Internal names of classes and descriptors of types and methods. -/
namespace JmmCompiler.Jasmin

/-- A dotted name with slashes. -/
def slashed (name : String) : String := name.map fun c => if c = '.' then '/' else c

/-- Whether an imported name ends in a class name. -/
def imports (imported className : String) : Bool :=
  imported = className || ('.' :: className.toList).isSuffixOf imported.toList

/-- The internal name of a class: that of the first import that ends in it, or else of a class that is
always known. -/
def internalName (imported : List String) (className : String) : String :=
  match imported.find? (imports · className) with
  | some i => slashed i
  | none =>
    if className = "String" then "java/lang/String"
    else if className = "Object" ∨ className = "any" then "java/lang/Object"
    else className

/-- The descriptor of a type that is no array. -/
def baseDescriptor (imported : List String) (name : String) : String :=
  if name = "int" then "I" else if name = "boolean" then "Z" else if name = "void" then "V"
  else "L" ++ internalName imported name ++ ";"

def descriptor (imported : List String) (t : Ty) : String :=
  if t.isArray then "[" ++ baseDescriptor imported t.name else baseDescriptor imported t.name

def methodDescriptor (imported : List String) (params : List Ty) (returnType : Ty) : String :=
  "(" ++ String.join (params.map (descriptor imported)) ++ ")" ++ descriptor imported returnType

end JmmCompiler.Jasmin

/-! The types of the language, and when a value of one may stand where another is wanted. -/
namespace JmmCompiler

/-- A base name, and whether the type is an array of that base. -/
structure Ty where
  name : String
  isArray : Bool := false
  deriving DecidableEq, Inhabited

namespace Ty

def int : Ty := ⟨"int", false⟩
def boolean : Ty := ⟨"boolean", false⟩
def void : Ty := ⟨"void", false⟩
/-- The type of what cannot be known, such as the result of a call to an imported class. -/
def any : Ty := ⟨"any", false⟩
def intArray : Ty := ⟨"int", true⟩

def text (t : Ty) : String := if t.isArray then t.name ++ "[]" else t.name

def isPrimitive (t : Ty) : Bool := !t.isArray && ["int", "boolean", "void"].contains t.name

def isReference (t : Ty) : Bool := !t.isPrimitive

/-- The values that the machine holds as integers. -/
def isIntLike (t : Ty) : Bool := !t.isArray && (t.name = "int" || t.name = "boolean")

def arrayOf (t : Ty) : Ty := ⟨t.name, true⟩

/-- The base of a type, whether it is an array or not. -/
def base (t : Ty) : Ty := ⟨t.name, false⟩

/-- A value of type `value` may be stored where `target` is expected. -/
def assignable (target value : Ty) : Bool :=
  target = any || value = any || target = value

end Ty

/-- A named field, parameter or local variable. -/
structure Symbol where
  name : String
  type : Ty
  deriving DecidableEq, Inhabited

end JmmCompiler

import JmmCompiler.Diagnostic.Failure
/-! The values that three-address instructions refer to. -/
namespace JmmCompiler

/-- The name of a type in the text of three-address code. -/
def Ty.codeName (t : Ty) : String :=
  let base :=
    if t.name = "int" then "i32" else if t.name = "boolean" then "bool"
    else if t.name = "void" then "V" else t.name
  if t.isArray then "array." ++ base else base

inductive Element
  | literal (value : Int) (type : Ty)
  | var (name : String) (type : Ty)
  /-- A class, as the receiver of a static call or the target of an allocation. -/
  | classRef (name : String) (type : Ty)
  /-- The element at `index` of an array variable; `type` is that of the element. -/
  | item (array : String) (type : Ty) (index : Element)
  /-- What stands for the value of a call that has none. -/
  | absent
  deriving DecidableEq, Inhabited

namespace Element

def type : Element → Except Failure Ty
  | literal _ t | var _ t | classRef _ t | item _ t _ => .ok t
  | absent => .error .malformed

def name : Element → Except Failure String
  | var n _ | classRef n _ | item n _ _ => .ok n
  | literal .. | absent => .error .malformed

/-- The variables that an element reads. -/
def names : Element → Except Failure (List String)
  | literal .. | classRef .. => .ok []
  | var n _ => .ok [n]
  | item n _ i => do return n :: (← i.names)
  | absent => .error .malformed

def isItem : Element → Bool
  | item .. => true
  | _ => false

def text : Element → String
  | literal v t => toString v ++ "." ++ t.codeName
  | var n t => if n = "this" then "this" else n ++ "." ++ t.codeName
  | classRef n _ => n
  | item n t i => n ++ "[" ++ i.text ++ "]." ++ t.codeName
  | absent => "None"

end Element
end JmmCompiler

import Mathlib
import JmmCompiler.Proofs.Lowerable
import JmmCompiler.Proofs.ValidProgram
/-! Names mean the same to the checks and to the lowering. The checks take a field before a parameter or a
local variable and the lowering takes it after them, so that they agree on every name that is not both. -/
namespace JmmCompiler

/-- What the name of a variable stands for. -/
inductive Declaration
  /-- A parameter or a local variable. -/
  | binding (v : Symbol)
  | field (v : Symbol)
  deriving DecidableEq

namespace Declaration

def symbol : Declaration → Symbol
  | binding v | field v => v

variable (t : SymbolTable)

end Declaration

/-- A lowered expression whose last instruction is a call, perhaps assigned to what stands for its value. -/
def Lowered.EndsWith (l : Lowered) (call : Instruction) : Prop :=
  ∃ before, l.computation = before ++ [call] ∨ l.computation = before ++ [.assign l.code call]

namespace SymbolTable
variable (t : SymbolTable) (method : String)

/-- The declaration whose type the checks take for a name. -/
def checked? (name : String) : Option Declaration :=
  ((t.field? name).map .field).or ((t.binding? method name).map .binding)

theorem variableType?_eq (name : String) :
    t.variableType? method name = (t.checked? method name).map (·.symbol.type) := by
  unfold variableType? checked? binding?
  cases t.field? name with
  | some f => rfl
  | none => cases t.param? method name <;> cases t.local? method name <;> rfl

section
variable {t} {method} {name : String} {d : Declaration}

end

end SymbolTable

namespace SymbolTable.Declares
variable {t : SymbolTable} {decl n : Node} {m : MethodInfo}

theorem isExpression_of_kind (hn : n.IsPart) (hkind : n.kind.isExpression = true) : n.IsExpression := by
  rcases hn with hn | hn
  · exact hn
  · cases hn with
    | simple hn => cases hn <;> cases hkind
    | _ => cases hkind

end SymbolTable.Declares

namespace Node

end Node
end JmmCompiler

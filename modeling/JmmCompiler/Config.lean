import JmmCompiler.Assoc
import JmmCompiler.Tree.Attribute
/-! The options of a compilation. -/
namespace JmmCompiler

/-- A register budget that is no number, or a number below -1. -/
structure InvalidBudget where
  spelling : String
  deriving DecidableEq, Inhabited

def InvalidBudget.message (e : InvalidBudget) : String := "Invalid register budget: " ++ e.spelling

structure Config where
  /-- Fold and propagate constants. -/
  optimize : Bool := false
  /-- The number of slots that a method may use; -1 leaves the slots as they are. -/
  registers : Int := -1
  registers_ge : -1 ≤ registers := by decide
  deriving DecidableEq

namespace Config

instance : Inhabited Config := ⟨{}⟩

def make (optimize : Bool) (registers : Int) : Except InvalidBudget Config :=
  if h : -1 ≤ registers then .ok ⟨optimize, registers, h⟩ else .error ⟨toString registers⟩

/-- Whether registers are allocated. -/
def allocates (c : Config) : Bool := c.registers ≠ -1

/-- The configuration that options ask for. Blanks around a value and the case of `true` do not
matter. A value that is no text counts as it is spelled. -/
def ofOptions (options : Assoc Json) : Except InvalidBudget Config := do
  let value (key : String) (otherwise : String) : String :=
    Text.strip (((options.find? key).map Json.spelling).getD otherwise)
  let registers := value "registerAllocation" "-1"
  match Text.integer? registers with
  | some n => make ((value "optimize" "false").toLower = "true") n
  | none => throw ⟨registers⟩

end Config
end JmmCompiler

import JmmCompiler.Checks.Declarations
import JmmCompiler.Checks.References
import JmmCompiler.Checks.TypeRules
import JmmCompiler.Checks.ControlFlow
/-! The checks that a program has to pass before it is compiled. -/
namespace JmmCompiler.Check

/-- All checks, in the order of their reports. -/
def all : List Check :=
  [duplicateDeclarations, varargsDeclarations, undeclaredVariables, undefinedMethods, typeChecks,
   controlFlow]

/-- The reports of all checks about a program. -/
def validate (table : SymbolTable) (root : Node) : Findings := do
  return (← all.mapM (·.run table root)).flatten

end JmmCompiler.Check

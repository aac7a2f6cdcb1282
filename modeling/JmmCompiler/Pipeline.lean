import JmmCompiler.Checks
import JmmCompiler.Config
import JmmCompiler.Constants.Propagate
import JmmCompiler.Jasmin.Assembly
import JmmCompiler.Lowering.Statement
import JmmCompiler.Registers.Allocation
import JmmCompiler.Varargs
/-! From a tree to assembly text: checks, optimization, three-address code, register allocation and
emission. -/
namespace JmmCompiler

/-- What a compilation did, for those who want to follow it. -/
inductive Event
  | tableBuilt (className : String) (fields methods : Nat)
  | checked (check : String) (reports : Nat)
  | analyzed (reports : Nat)
  | optimizing
  | folded (rounds : Nat)
  | generated (className : String) (methods : Nat)
  | allocating (budget : Int)
  | allocated (method : String) (slots : Int)
  | emitted (className : String)
  deriving DecidableEq, Inhabited

def Event.text : Event → String
  | tableBuilt className fields methods =>
    "pyjmm.symboltable: Built symbol table for " ++ className ++ ": " ++ toString fields ++
      " fields, " ++ toString methods ++ " methods"
  | checked check reports => "pyjmm.analysis: " ++ check ++ ": " ++ toString reports ++ " report(s)"
  | analyzed reports => "pyjmm.compiler: Semantic analysis: " ++ toString reports ++ " report(s)"
  | optimizing => "pyjmm.compiler: Folding and propagating constants"
  | folded rounds =>
    "pyjmm.optimization.constants: Constant folding reached a fixed point after " ++
      toString rounds ++ " round(s)"
  | generated className methods =>
    "pyjmm.ir.generator: Generated IR for " ++ className ++ ": " ++ toString methods ++ " methods"
  | allocating budget =>
    "pyjmm.compiler: Allocating registers with budget " ++ toString budget
  | allocated method slots =>
    "pyjmm.optimization.registers: Method " ++ method ++ " uses " ++ toString slots ++
      " register(s)"
  | emitted className => "pyjmm.backend.generator: Emitted Jasmin for " ++ className

/-- A compilation may fail; what it did before stays on record. -/
abbrev Compile := ExceptT Failure (StateM (List Event))

/-- Everything that a compilation made. What a stage makes is missing when an earlier stage found
errors. -/
structure Compilation where
  reports : List Report := []
  table : Option SymbolTable := none
  code : Option CodeProgram := none
  assembly : Option String := none
  deriving DecidableEq, Inhabited

namespace Compilation

def succeeded (c : Compilation) : Bool := c.assembly.isSome && !Report.anyError c.reports

end Compilation

namespace Compile

def record (e : Event) : Compile Unit := modify (· ++ [e])

def ofExcept {α : Type} : Except Failure α → Compile α
  | .ok a => return a
  | .error e => throw e

/-- Runs the checks one after the other. -/
def validate (table : SymbolTable) (root : Node) : List Check → Compile (List Report)
  | [] => return []
  | c :: rest => do
    let found ← ofExcept (c.run table root)
    record (.checked c.name found.length)
    return found ++ (← validate table root rest)

/-- The symbol table and the reports of the checks. A program without a symbol table has one report
that says why. -/
def analyze (root : Node) : Compile Compilation := do
  match SymbolTable.build root with
  | .error .malformed => throw .malformed
  | .error e =>
    return { reports := [{ stage := .semantic, position := root.position, message := e.message }] }
  | .ok table =>
    record (.tableBuilt table.className table.fields.length table.methods.length)
    let reports ← validate table root Check.all
    record (.analyzed reports.length)
    return { reports, table := some table }

/-- The tree that is lowered: with constants folded if that is wanted, and with normal calls. -/
def prepare (config : Config) (table : SymbolTable) (root : Node) : Compile Node := do
  let root ← if config.optimize then do
      record .optimizing
      let (folded, rounds) ← ofExcept root.foldConstantsCounted
      record (.folded rounds)
      pure folded
    else pure root
  ofExcept (table.normalizeVarargs none root)

def allocateMethods : List CodeMethod → Compile (List CodeMethod)
  | [] => return []
  | m :: rest => do
    let (m, _) ← ofExcept m.allocate
    record (.allocated m.name (m.slots.highest + 1))
    return m :: (← allocateMethods rest)

/-- The code with allocated registers, if that is wanted, and the reports on methods that need too
many. -/
def allocate (config : Config) (code : CodeProgram) : Compile (CodeProgram × List Report) := do
  if config.allocates then
    record (.allocating config.registers)
    let code := { code with methods := ← allocateMethods code.methods }
    return (code, code.overBudget config.registers)
  else return (code, [])

def compile (config : Config) (root : Node) : Compile Compilation := do
  let result ← analyze root
  match result.table with
  | none => return result
  | some table =>
    if Report.anyError result.reports then return result
    let tree ← prepare config table root
    let code ← ofExcept (table.generate tree)
    record (.generated code.className code.methods.length)
    let (code, reports) ← allocate config code
    let assembly ← ofExcept code.assembly
    record (.emitted code.className)
    return { result with
      reports := result.reports ++ reports, code := some code, assembly := some assembly }

/-- The outcome of a compilation, and what it did. -/
def events {α : Type} (c : Compile α) : Except Failure α × List Event := c.run []

end Compile

/-- The compilation of a tree. -/
def Node.compile (config : Config) (root : Node) : Except Failure Compilation :=
  (Compile.compile config root).events.1

/-- The symbol table of a tree and the reports of the checks. -/
def Node.analyze (root : Node) : Except Failure Compilation := (Compile.analyze root).events.1

end JmmCompiler

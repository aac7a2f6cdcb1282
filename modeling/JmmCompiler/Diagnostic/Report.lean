import JmmCompiler.Position
/-! What the compiler says about a program. -/
namespace JmmCompiler

inductive Severity
  | error | warning | log
  deriving DecidableEq, Inhabited

inductive Stage
  | syntactic | semantic | optimization | generation
  deriving DecidableEq, Inhabited

def Severity.name : Severity → String
  | error => "error"
  | warning => "warning"
  | log => "log"

def Stage.name : Stage → String
  | syntactic => "syntactic"
  | semantic => "semantic"
  | optimization => "optimization"
  | generation => "generation"

/-- A message about a place of the program. -/
structure Report where
  severity : Severity := .error
  stage : Stage
  position : Position
  message : String
  deriving DecidableEq, Inhabited

namespace Report

def isError (r : Report) : Bool := r.severity = .error

def text (r : Report) : String :=
  r.severity.name ++ "@" ++ r.stage.name ++ ", line " ++ toString r.position.line ++ ", col " ++
    toString r.position.column ++ ": " ++ r.message

def anyError (reports : List Report) : Bool := reports.any isError

end Report
end JmmCompiler

import JmmCompiler.Code.Program
import JmmCompiler.Diagnostic.Report
import JmmCompiler.Liveness
import JmmCompiler.Registers.Coloring
/-! Register allocation: variables that are never live together share a slot. -/
namespace JmmCompiler

namespace CodeMethod
variable (m : CodeMethod)

/-- The names whose slots are fixed by the calling convention. -/
def fixedNames : NameSet := NameSet.ofList ("this" :: m.params.map (·.name))

/-- Connects what is live together before an instruction or after it, and what the instruction
defines with what is live after it. -/
def connectPoint (fixed : NameSet) (g : InterferenceGraph) (point : FlowPoint) (live : LiveSets) :
    InterferenceGraph :=
  let before := live.before.diff fixed
  let after := live.after.diff fixed
  (point.defs.diff fixed).toList.foldl
    (fun g d => after.toList.foldl (fun g n => g.addEdge d n) g)
    ((g.addClique before).addClique after)

/-- The variables of a method, without `this` and the parameters, and which of them interfere. -/
def interference (l : Liveness) : InterferenceGraph :=
  let g := (l.names.diff m.fixedNames).toList.foldl (fun g n => g.addNode n) {}
  (l.points.zip l.sets).foldl (fun g p => connectPoint m.fixedNames g p.1 p.2) g

/-- Gives a slot of its own, above all others, to a variable that has none. -/
def addHighest (slots : Slots) (name : String) : Slots :=
  if slots.contains name then slots else slots.insert name (slots.highest + 1)

/-- A method with the slots of a colouring of its interference graph, and that graph. -/
def allocate : Except Failure (CodeMethod × InterferenceGraph) := do
  let g := m.interference (← m.liveness)
  let colored := m.fixedSlots.insertAll (g.color m.reserved)
  return ({ m with slots := m.slots.keys.foldl addHighest colored }, g)

/-- The report that a method takes more slots than it may. A negative budget allows any number. -/
def overBudget (budget : Int) : List Report :=
  let needed := m.slots.highest + 1
  if 0 ≤ budget ∧ budget < needed then
    [{ stage := .optimization, position := {},
       message := "Method '" ++ m.name ++ "' needs " ++ toString needed ++
         " registers, more than the allowed " ++ toString budget }]
  else []

end CodeMethod

namespace CodeProgram

/-- Allocates methods in order. After a failure the methods before it stay allocated. -/
def allocateMethods : List CodeMethod → List CodeMethod × Option Failure
  | [] => ([], none)
  | m :: rest =>
    match m.allocate with
    | .error e => (m :: rest, some e)
    | .ok (m, _) =>
      let (rest, failure) := allocateMethods rest
      (m :: rest, failure)

/-- A program with allocated methods, and what made allocation stop if anything did. -/
def allocate (p : CodeProgram) : CodeProgram × Option Failure :=
  let (methods, failure) := allocateMethods p.methods
  ({ p with methods }, failure)

/-- The reports on methods that take more slots than the budget. -/
def overBudget (p : CodeProgram) (budget : Int) : List Report :=
  p.methods.flatMap (·.overBudget budget)

end CodeProgram
end JmmCompiler

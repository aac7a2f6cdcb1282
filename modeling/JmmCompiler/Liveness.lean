import JmmCompiler.Code.Method
import JmmCompiler.NameSet
/-! Which variables are live before and after each instruction of a method: a variable is live where
some path leads to a use of it without a definition on the way. -/
namespace JmmCompiler

/-- What liveness needs to know of an instruction. -/
structure FlowPoint where
  defs : NameSet
  uses : NameSet
  successors : List Nat
  deriving DecidableEq

/-- The variables live before and after an instruction. -/
structure LiveSets where
  before : NameSet
  after : NameSet
  deriving DecidableEq

namespace FlowPoint

/-- The variables live after an instruction, given those live before each instruction. -/
def liveAfter (point : FlowPoint) (before : List NameSet) : NameSet :=
  NameSet.unions (point.successors.map fun s => before[s]?.getD ∅)

def liveBefore (point : FlowPoint) (before : List NameSet) : NameSet :=
  point.uses.union ((point.liveAfter before).diff point.defs)

/-- Finds the sets around the instruction at an index anew, from those that are known so far. -/
def refresh (points : List FlowPoint) (i : Nat) (sets : List LiveSets) : List LiveSets :=
  match points[i]? with
  | some p =>
    let before := sets.map (·.before)
    sets.set i ⟨p.liveBefore before, p.liveAfter before⟩
  | none => sets

/-- Finds all sets anew, those around the last instruction first. -/
def sweep (points : List FlowPoint) (sets : List LiveSets) : List LiveSets :=
  (List.range points.length).foldr (refresh points) sets

/-- Sweeps until one of them changes nothing, at most `fuel` of them. -/
def iterate (points : List FlowPoint) : Nat → List LiveSets → List LiveSets
  | 0, sets => sets
  | fuel + 1, sets =>
    let next := sweep points sets
    if next = sets then sets else iterate points fuel next

/-- Nothing is known to be live. -/
def start (points : List FlowPoint) : List LiveSets := points.map fun _ => ⟨∅, ∅⟩

/-- The sets of the least solution. A variable has all its places once a sweep finds none more, so that as many
sweeps as there are instructions find what is live before them. One more finds what is live after them, and the
next changes nothing. -/
def solve (points : List FlowPoint) : List LiveSets := iterate points (points.length + 2) (start points)

end FlowPoint

/-- The liveness of a method, instruction by instruction. -/
structure Liveness where
  points : List FlowPoint
  sets : List LiveSets
  deriving DecidableEq

namespace Liveness

/-- All variables that are defined or live somewhere. -/
def names (l : Liveness) : NameSet :=
  NameSet.unions (l.points.map (·.defs) ++ l.sets.map (·.before) ++ l.sets.map (·.after))

end Liveness

namespace CodeMethod

def flowPoints (m : CodeMethod) : Except Failure (List FlowPoint) := do
  let defs ← m.code.mapM Instruction.defs
  let uses ← m.code.mapM Instruction.uses
  let successors ← (List.range m.code.length).mapM m.successors
  return (defs.zip (uses.zip successors)).map fun p =>
    ⟨NameSet.ofList p.1, NameSet.ofList p.2.1, p.2.2⟩

def liveness (m : CodeMethod) : Except Failure Liveness := do
  let points ← m.flowPoints
  return ⟨points, FlowPoint.solve points⟩

end CodeMethod
end JmmCompiler

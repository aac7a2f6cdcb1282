import JmmCompiler.Code.Method
import Mathlib.Logic.Function.Basic
/-! A machine that runs three-address code over numbered slots. What an instruction does to values is
a parameter, so that statements about the flow of control and about slots hold whatever it is. -/
namespace JmmCompiler

/-- Where a run goes after an instruction: to one of the successors of the instruction, in their order,
or nowhere. -/
inductive Exit (R : Type)
  | follow (choice : Nat)
  | stop (result : R)

/-- What an instruction does. The value goes to the variable that the instruction defines, and nowhere
if it defines none or the run stops. -/
structure Effect (V H R : Type) where
  heap : H
  value : V
  exit : Exit R := .follow 0

/-- A meaning of instructions, given what variables hold. -/
abbrev Interpretation (V H R : Type) := Instruction → (String → Option V) → H → Effect V H R

/-- An instruction of the code depends on the variables that it uses, on `this` and on the heap only. -/
def Interpretation.Local {V H R : Type} (I : Interpretation V H R) (code : List Instruction) : Prop :=
  ∀ i ∈ code, ∀ names, i.uses = .ok names → ∀ (r r' : String → Option V) (h : H),
    (∀ x, x = "this" ∨ x ∈ names → r x = r' x) → I i r h = I i r' h

/-- Which instruction is next, what the slots hold, and the heap. -/
structure MachineState (V H : Type) where
  pc : Nat
  memory : Int → V
  heap : H

/-- A run goes on, or it has ended: with a result, or without one where control left the code. -/
inductive Status (V H R : Type)
  | running (c : MachineState V H)
  | halted (result : Option R) (heap : H)

/-- What two machines with different slots have in common: the place or the result, and the heap. -/
def Status.seen {V H R : Type} : Status V H R → (Nat ⊕ Option R) × H
  | running c => (.inl c.pc, c.heap)
  | halted result heap => (.inr result, heap)

/-- An executed instruction, the values of the variables that it uses, and the heap that it finds. -/
structure Visit (V H : Type) where
  index : Nat
  values : List (Option V)
  heap : H

/-- The label that an instruction may jump to. -/
def Instruction.target? : Instruction → Option String
  | goto target | branch _ target => some target
  | _ => none

namespace CodeMethod
variable {V H R : Type} (m : CodeMethod) (I : Interpretation V H R)

/-- What a variable holds, if it has a slot. -/
def read (memory : Int → V) (name : String) : Option V := (m.slots.find? name).map memory

def write (memory : Int → V) (name : String) (value : V) : Int → V :=
  match m.slots.find? name with
  | some s => Function.update memory s value
  | none => memory

/-- Gives a value to the variables that an instruction defines. -/
def writeAll (memory : Int → V) (names : List String) (value : V) : Int → V :=
  names.foldl (fun memory name => m.write memory name value) memory

/-- The names that an instruction of the method defines or uses, none where that has no meaning. -/
def namesAt (names : Instruction → Except Failure (List String)) (index : Nat) : List String :=
  match m.code[index]?.map names with
  | some (.ok names) => names
  | _ => []

def step (c : MachineState V H) : Status V H R :=
  match m.code[c.pc]? with
  | none => .halted none c.heap
  | some i =>
    let effect := I i (m.read c.memory) c.heap
    match effect.exit, m.successors c.pc with
    | .stop result, _ => .halted (some result) effect.heap
    | .follow choice, .ok successors =>
      match successors[choice]? with
      | some pc =>
        .running
          ⟨pc, m.writeAll c.memory (m.namesAt Instruction.defs c.pc) effect.value, effect.heap⟩
      | none => .halted none effect.heap
    | .follow _, .error _ => .halted none effect.heap

/-- What there is to say of the instruction at hand, if there is one. -/
def visits (c : MachineState V H) : List (Visit V H) :=
  if c.pc < m.code.length then
    [⟨c.pc, (m.namesAt Instruction.uses c.pc).map (m.read c.memory), c.heap⟩]
  else []

/-- At most `n` steps: the instructions that they execute, and where they lead. -/
def run : Nat → MachineState V H → List (Visit V H) × Status V H R
  | 0, c => ([], .running c)
  | n + 1, c =>
    match m.step I c with
    | .halted result heap => (m.visits c, .halted result heap)
    | .running c' => (m.visits c ++ (run n c').1, (run n c').2)

end CodeMethod
end JmmCompiler

import JmmCompiler.Assoc
import JmmCompiler.Code.Instruction
/-! Methods in three-address code: instructions, the labels on them, and a slot for every variable. -/
namespace JmmCompiler

/-- The slots of variables, in the order in which the variables came. -/
abbrev Slots := Assoc Int

namespace Slots

/-- The highest slot, or -1 when there is none. -/
def highest (s : Slots) : Int := s.values.foldl max (-1)

end Slots

structure CodeMethod where
  name : String
  returnType : Ty
  params : List Symbol := []
  isStatic : Bool := false
  isPublic : Bool := true
  code : List Instruction := []
  /-- The instruction that each label stands at. -/
  labels : Assoc Nat := {}
  slots : Slots := {}
  /-- Labels that wait for the next instruction. -/
  pending : List String := []
  deriving DecidableEq, Inhabited

namespace CodeMethod
variable (m : CodeMethod)

/-- Puts a label on the instruction that comes next. A method has no two labels of one name. -/
def addLabel (label : String) : Except Failure CodeMethod :=
  if m.labels.contains label || m.pending.contains label then .error (.duplicateLabel label)
  else .ok { m with pending := m.pending ++ [label] }

/-- Adds an instruction, to which the pending labels go. -/
def addInstruction (i : Instruction) : CodeMethod :=
  { m with
    labels := m.pending.foldl (fun labels l => labels.insert l m.code.length) m.labels
    pending := []
    code := m.code ++ [i] }

def add : Instruction → Except Failure CodeMethod
  | .label name => m.addLabel name
  | i => .ok (m.addInstruction i)

def extend (instructions : List Instruction) : Except Failure CodeMethod :=
  instructions.foldlM add m

/-- The number of slots that `this` and the parameters take. -/
def reserved : Nat := (if m.isStatic then 0 else 1) + m.params.length

/-- The slots of `this` and of the parameters. -/
def fixedSlots : Slots :=
  m.params.foldl (fun slots p => slots.insert p.name slots.size)
    (if m.isStatic then {} else ⟨[("this", 0)]⟩)

/-- Gives the next slot to a variable that has none. -/
def addSlot (slots : Slots) (name : String) : Slots :=
  if slots.contains name then slots else slots.insert name slots.size

/-- The variables that an instruction writes, then those that it reads. -/
def mentions (i : Instruction) : Except Failure (List String) := do
  let defs ← i.defs
  return defs ++ (← i.uses)

/-- A slot of its own for every variable, in the order in which they are mentioned. -/
def assignSlots : Except Failure CodeMethod := do
  let names := (← m.code.mapM mentions).flatten
  return { m with slots := names.foldl addSlot m.fixedSlots }

/-- Ends a method: labels that still wait go to an instruction without effect, and every variable
gets a slot. -/
def finish : Except Failure CodeMethod :=
  (if m.pending.isEmpty then m else m.addInstruction .nop).assignSlots

def slot (name : String) : Except Failure Int :=
  match m.slots.find? name with
  | some s => .ok s
  | none => .error (.noSlot name m.name)

def labelIndex (label : String) : Except Failure Nat :=
  match m.labels.find? label with
  | some i => .ok i
  | none => .error (.unknownLabel label m.name)

/-- The labels on an instruction. -/
def labelsAt (index : Int) : List String :=
  (m.labels.entries.filter fun e => (e.2 : Int) = index).map (·.1)

/-- Where an instruction may jump to, and whether the one that follows it may run next. -/
def exits : Instruction → Except Failure (List Nat × Bool)
  | .ret .. => .ok ([], false)
  | .goto label => do return ([← m.labelIndex label], false)
  | .branch _ label => do return ([← m.labelIndex label], true)
  | _ => .ok ([], true)

/-- The instructions that may run after the one at an index, its jump target first. -/
def successors (index : Nat) : Except Failure (List Nat) := do
  match m.code[index]? with
  | none => throw .malformed
  | some i =>
    let (targets, continues) ← m.exits i
    return targets ++ if continues && index + 1 < m.code.length then [index + 1] else []

/-- The same for an index that counts from the end of the code when it is negative. What follows it is
counted in the same way. -/
def successorsFromEnd (index : Int) : Except Failure (List Int) := do
  let i := if index < 0 then index + m.code.length else index
  match if i < 0 then none else m.code[i.toNat]? with
  | none => throw .malformed
  | some instruction =>
    let (targets, continues) ← m.exits instruction
    return targets.map Int.ofNat ++
      if continues && index + 1 < m.code.length then [index + 1] else []

/-- The lines of an instruction: its labels, and its text if it has one. -/
def instructionLines (index : Nat) (i : Instruction) : Except Failure (List String) := do
  let text ← i.text
  return (m.labelsAt index).map (· ++ ":") ++ if text = "" then [] else ["    " ++ text ++ ";"]

def text : Except Failure String := do
  let modifiers := (if m.isPublic then ["public"] else []) ++ if m.isStatic then ["static"] else []
  let params := m.params.map fun p => (Element.var p.name p.type).text
  let header := ".method " ++ String.intercalate " " modifiers ++ " " ++ m.name ++ "(" ++
    String.intercalate ", " params ++ ")." ++ m.returnType.codeName ++ " \x7b"
  let body ← m.code.zipIdx.mapM fun i => m.instructionLines i.2 i.1
  return String.intercalate "\n" ([header] ++ body.flatten ++ ["\x7d"])

end CodeMethod
end JmmCompiler

import JmmCompiler.Proofs.Evaluation
import JmmCompiler.Proofs.Results
/-! Running programs on a heap of objects and arrays. A run watches types: it goes wrong where an operation
meets a value that it is not made for, and it notes an expression with a value that is not of its type. All other
ways to end early are no matter of types. -/
namespace JmmCompiler

/-- A value of which the kind is known. -/
inductive Datum
  | int (n : Int)
  | bool (b : Bool)
  | null
  | ref (address : Nat)
  deriving DecidableEq, Inhabited

inductive Cell
  | object (className : String) (fields : String → Datum)
  | array (element : String) (items : List Datum)

abbrev Heap := List Cell

/-- Why a run ends early. -/
inductive Halt
  /-- An operation meets what it is not made for, or a method ends without the value it owes. -/
  | wrong
  /-- An expression has a value that is not of its type. -/
  | mistyped
  /-- A local variable is read before it is assigned. -/
  | unassigned
  | nullReference
  | divisionByZero
  | outOfBounds
  | negativeSize
  /-- The run has more calls within each other, or rounds of a loop, than it may have. -/
  | exhausted
  deriving DecidableEq

abbrev Run := ExceptT Halt (StateM Heap)

/-- Whether an object or an array is of a type. The class counts as its superclass, and an empty array as any
array. -/
def Cell.isOf (t : SymbolTable) (type : Ty) : Cell → Bool
  | object className _ => type.isReference && !type.isArray &&
      (className = type.name || className = t.className && t.superClass = some type.name)
  | array element items => type.isArray && (element = type.name || items.isEmpty)

namespace Datum

/-- What a field or an element is before it is assigned. -/
def initial (type : Ty) : Datum :=
  if type = .int then int 0 else if type = .boolean then bool false else null

def isReference : Datum → Bool
  | null | ref _ => true
  | _ => false

/-- Whether a value is of a type. -/
def isOf (t : SymbolTable) (heap : Heap) (type : Ty) : Datum → Bool
  | int _ => type = .int
  | bool _ => type = .boolean
  | null => type.isReference
  | ref address => heap[address]?.any (·.isOf t type)

end Datum

namespace Run
variable {α : Type} {heap : Heap}

@[simp] theorem runOn_get : runOn (get : Run Heap) heap = (.ok heap, heap) := rfl

@[simp] theorem runOn_set (heap' : Heap) : runOn (set heap' : Run PUnit) heap = (.ok ⟨⟩, heap') := rfl

@[simp] theorem runOn_modify (f : Heap → Heap) : runOn (modify f : Run PUnit) heap = (.ok ⟨⟩, f heap) := rfl

/-- A tree of the wrong shape means nothing. -/
def ofExcept : Except Failure α → Run α
  | .ok a => pure a
  | .error _ => throw .wrong

/-- The value of an expression that has to have one. -/
def required : Option Datum → Run Datum
  | some v => pure v
  | none => throw .wrong

def number : Datum → Run Int
  | .int n => pure n
  | _ => throw .wrong

def truth : Datum → Run Bool
  | .bool b => pure b
  | _ => throw .wrong

def ofOperator : Operator → Datum → Datum → Run Datum
  | .arithmetic op, .int a, .int b =>
    match op.evaluate? a b with
    | some n => pure (.int n)
    | none => throw .divisionByZero
  | .comparison op, .int a, .int b => pure (.bool (op.holds a b))
  | .comparison .eq, .bool a, .bool b => pure (.bool (a = b))
  | .comparison .ne, .bool a, .bool b => pure (.bool (a ≠ b))
  | .comparison .eq, a, b =>
    if a.isReference && b.isReference then pure (.bool (a = b)) else throw .wrong
  | .comparison .ne, a, b =>
    if a.isReference && b.isReference then pure (.bool (a ≠ b)) else throw .wrong
  | .logical .and, .bool a, .bool b => pure (.bool (a && b))
  | .logical .or, .bool a, .bool b => pure (.bool (a || b))
  | _, _, _ => throw .wrong

/-! ## The heap -/

def allocate (cell : Cell) : Run Datum := do
  let heap ← get
  set (heap ++ [cell])
  return .ref heap.length

/-- What a reference leads to. -/
def cell : Datum → Run (Nat × Cell)
  | .null => throw .nullReference
  | .ref address => do
    match (← get)[address]? with
    | some cell => return (address, cell)
    | none => throw .wrong
  | _ => throw .wrong

def getField (object : Datum) (name : String) : Run Datum := do
  match ← cell object with
  | (_, .object _ fields) => return fields name
  | _ => throw .wrong

def putField (object : Datum) (name : String) (value : Datum) : Run Unit := do
  match ← cell object with
  | (address, .object className fields) =>
    modify (·.set address (.object className (Function.update fields name value)))
  | _ => throw .wrong

def length (array : Datum) : Run Datum := do
  match ← cell array with
  | (_, .array _ items) => return .int items.length
  | _ => throw .wrong

def load (array : Datum) (index : Int) : Run Datum := do
  match ← cell array with
  | (_, .array _ items) =>
    if index < 0 then throw .outOfBounds
    else match items[index.toNat]? with
      | some v => return v
      | none => throw .outOfBounds
  | _ => throw .wrong

def store (array : Datum) (index : Int) (value : Datum) : Run Unit := do
  match ← cell array with
  | (address, .array element items) =>
    if index < 0 ∨ items.length ≤ index then throw .outOfBounds
    else modify (·.set address (.array element (items.set index.toNat value)))
  | _ => throw .wrong

def newArray (element : String) (size : Int) : Run Datum :=
  if size < 0 then throw .negativeSize
  else allocate (.array element (List.replicate size.toNat (.initial ⟨element, false⟩)))

/-- Values one after the other. -/
def all : List (Run (Option Datum)) → Run (List Datum)
  | [] => return []
  | x :: xs => do
    let v ← required (← x)
    return v :: (← all xs)

/-- Stores values into an array from an index on, each when it has been computed. -/
def fill (array : Datum) (index : Nat) : List (Run (Option Datum)) → Run Unit
  | [] => return ()
  | x :: xs => do
    store array index (← required (← x))
    fill array (index + 1) xs

/-- A new array that holds given values. -/
def arrayOf (element : String) (parts : List (Run (Option Datum))) : Run Datum := do
  let array ← newArray element parts.length
  fill array 0 parts
  return array

/-- The arguments of a call, the last ones gathered in an array if the method wants that. -/
def arguments (packing : Option (Nat × String)) (parts : List (Run (Option Datum))) : Run (List Datum) :=
  match packing with
  | none => all parts
  | some (fixed, element) => do
    let values ← all (parts.take fixed)
    return values ++ [← arrayOf element (parts.drop fixed)]

end Run

/-- The object that a method runs for, which a static method lacks, and the variables that are assigned. -/
structure Activation where
  self : Option Datum
  vars : String → Option Datum

/-- Where a statement leads: on, or out of the method. -/
inductive Step
  | next (frame : Activation)
  | returned (value : Option Datum)

namespace SymbolTable
variable (t : SymbolTable) (method : String)
variable (invoke : String → Option Datum → List Datum → Run (Option Datum))

/-- A parameter or a local variable, or else a field of `this`. -/
def lookUp (frame : Activation) (name : String) : Run Datum :=
  if (t.binding? method name).isSome then
    match frame.vars name with
    | some v => pure v
    | none => throw .unassigned
  else if (t.field? name).isSome then do Run.getField (← Run.required frame.self) name
  else throw .wrong

/-- A new object of a class, with its fields if it is the class of the program. -/
def newObject (className : String) : Run Datum :=
  Run.allocate (.object className fun name => match t.field? name with
    | some field => .initial field.type
    | none => .null)

/-- A call on a value: a method of the class, or the length of an array. -/
def dispatch (name : String) (object : Datum) (args : List Datum) : Run (Option Datum) := do
  match ← Run.cell object with
  | (_, .object className _) =>
    if className = t.className && t.hasMethod name then invoke name (some object) args else throw .wrong
  | (_, .array _ items) =>
    if name = "length" && args.isEmpty then return some (.int items.length) else throw .wrong

/-- The value of an expression, given what its parts compute. A void call has none. -/
def resultOf (frame : Activation) (n : Node) (parts : List (Run (Option Datum))) : Run (Option Datum) :=
  match n.kind, parts with
  | .intLiteral, _ => do
    match (← Run.ofExcept (n.required "value")).toInt? with
    | some i => return some (.int i)
    | none => throw .wrong
  | .boolLiteral, _ => do return some (.bool (← Run.ofExcept (n.required "value")).isSet)
  | .paren, inner :: _ => inner
  | .varRef, _ => do return some (← t.lookUp method frame (← Run.ofExcept n.name))
  | .thisRef, _ => do return some (← Run.required frame.self)
  | .binary, left :: right :: _ => do
    let op ← Run.ofExcept n.op
    let a ← Run.required (← left)
    if op = "&&" then
      if ← Run.truth a then return some (.bool (← Run.truth (← Run.required (← right))))
      else return some (.bool false)
    else
      let b ← Run.required (← right)
      match Operator.ofSymbol? op with
      | some op => return some (← Run.ofOperator op a b)
      | none => throw .wrong
  | .unary, operand :: _ => do
    let op ← Run.ofExcept n.op
    let a ← Run.required (← operand)
    if op = "!" then return some (.bool !(← Run.truth a)) else throw .wrong
  | .newObject, _ => do return some (← t.newObject (← Run.ofExcept (n.text "name")))
  | .newArray, size :: _ => do
    let element ← Run.ofExcept n.name
    return some (← Run.newArray element (← Run.number (← Run.required (← size))))
  | .arrayLiteral, elements => do
    let type ← Run.ofExcept (t.typeOf method n)
    return some (← Run.arrayOf type.name elements)
  | .arrayAccess, array :: index :: _ => do
    let array ← Run.required (← array)
    return some (← Run.load array (← Run.number (← Run.required (← index))))
  | .length, array :: _ => do return some (← Run.length (← Run.required (← array)))
  | .call, receiver :: args => do
    let name ← Run.ofExcept n.name
    let own ← Run.ofExcept (t.isOwnCall method name (← Run.ofExcept (n.child 0)))
    let packing ← Run.ofExcept (t.packing? method n)
    let object ← Run.required (← receiver)
    let values ← Run.arguments packing args
    if own && t.isStatic name then invoke name none values else t.dispatch invoke name object values
  | _, _ => throw .wrong

/-- Notes a value that is not of the type of its expression. -/
def watched (n : Node) (x : Run (Option Datum)) : Run (Option Datum) := do
  match ← x with
  | none => return none
  | some v =>
    let heap ← get
    if (t.typeOf method n).toOption.any (v.isOf t heap) then return some v else throw .mistyped

mutual
/-- The value of an expression of a method. -/
def result (frame : Activation) : Node → Run (Option Datum)
  | ⟨kind, attributes, children, position⟩ =>
    t.watched method ⟨kind, attributes, children, position⟩
      (t.resultOf method invoke frame ⟨kind, attributes, children, position⟩ (results frame children))

def results (frame : Activation) : List Node → List (Run (Option Datum))
  | [] => []
  | e :: es => result frame e :: results frame es
end

theorem results_eq_map (frame : Activation) (es : List Node) :
    t.results method invoke frame es = es.map (t.result method invoke frame) := by
  induction es with
  | nil => rfl
  | cons e es ih => simp [results, ih]

theorem result_eq (frame : Activation) (n : Node) :
    t.result method invoke frame n = t.watched method n
      (t.resultOf method invoke frame n (n.children.map (t.result method invoke frame))) := by
  cases n
  rw [result, results_eq_map]

/-- The value of an expression that has to have one. -/
def value (frame : Activation) (e : Node) : Run Datum := do
  Run.required (← t.result method invoke frame e)

/-- An assignment to a parameter or a local variable, or else to a field of `this`. -/
def assign (frame : Activation) (name : String) (value : Datum) : Run Step :=
  if (t.binding? method name).isSome then
    return .next { frame with vars := Function.update frame.vars name (some value) }
  else if (t.field? name).isSome then do
    Run.putField (← Run.required frame.self) name value
    return .next frame
  else throw .wrong

/-- The truth of a condition. -/
def decides (condition : Node) (frame : Activation) : Run Bool := do
  Run.truth (← t.value method invoke frame condition)

end SymbolTable

namespace Step

/-- Statements one after the other. -/
def sequence : List (Activation → Run Step) → Activation → Run Step
  | [], frame => return .next frame
  | part :: parts, frame => do
    match ← part frame with
    | .next frame => sequence parts frame
    | .returned value => return .returned value

/-- A loop of at most a number of rounds. -/
def loop (test : Activation → Run Bool) (body : Activation → Run Step) : Nat → Activation → Run Step
  | 0, _ => throw .exhausted
  | n + 1, frame => do
    if ← test frame then
      match ← body frame with
      | .next frame => loop test body n frame
      | .returned value => return .returned value
    else return .next frame

end Step

namespace SymbolTable
variable (t : SymbolTable) (method : String)
variable (invoke : String → Option Datum → List Datum → Run (Option Datum))

/-- What a statement does, given what the statements in it do. Loops go at most `rounds` rounds. -/
def stepOf (rounds : Nat) (n : Node) (parts : List (Activation → Run Step)) (frame : Activation) : Run Step :=
  match n.kind, n.children, parts with
  | .block, _, parts => Step.sequence parts frame
  | .exprStmt, e :: _, _ => do
    let _ ← t.result method invoke frame e
    return .next frame
  | .assign, [target, value], _ => do
    let name ← Run.ofExcept target.name
    t.assign method frame name (← t.value method invoke frame value)
  | .arrayAssign, [array, index, value], _ => do
    let array ← t.value method invoke frame array
    let index ← t.value method invoke frame index
    let value ← t.value method invoke frame value
    Run.store array (← Run.number index) value
    return .next frame
  | .returnStmt, [], _ => return .returned none
  | .returnStmt, value :: _, _ => do return .returned (some (← t.value method invoke frame value))
  | .ifStmt, [condition, _, _], [_, thenPart, elsePart] => do
    if ← t.decides method invoke condition frame then thenPart frame else elsePart frame
  | .ifStmt, condition :: _, _ :: thenPart :: _ => do
    if ← t.decides method invoke condition frame then thenPart frame else return .next frame
  | .whileStmt, condition :: _, _ :: body :: _ =>
    Step.loop (t.decides method invoke condition) body rounds frame
  | _, _, _ => throw .wrong

mutual
/-- What a statement of a method does. -/
def step (rounds : Nat) : Node → Activation → Run Step
  | ⟨kind, attributes, children, position⟩ =>
    t.stepOf method invoke rounds ⟨kind, attributes, children, position⟩ (steps rounds children)

def steps (rounds : Nat) : List Node → List (Activation → Run Step)
  | [] => []
  | s :: rest => step rounds s :: steps rounds rest
end

theorem steps_eq_map (rounds : Nat) (ss : List Node) :
    t.steps method invoke rounds ss = ss.map (t.step method invoke rounds) := by
  induction ss with
  | nil => rfl
  | cons s ss ih => simp [steps, ih]

theorem step_eq (rounds : Nat) (n : Node) :
    t.step method invoke rounds n =
      t.stepOf method invoke rounds n (n.children.map (t.step method invoke rounds)) := by
  cases n
  rw [step, steps_eq_map]

end SymbolTable

namespace MethodInfo

/-- Whether values are the right ones for the parameters of a method, in number and kind. -/
def receives (m : MethodInfo) (t : SymbolTable) (heap : Heap) (args : List Datum) : Bool :=
  args.length = m.params.length && (m.params.zip args).all fun (p, v) => v.isOf t heap p.type

/-- The frame in which a method starts. -/
def frame (m : MethodInfo) (self : Option Datum) (args : List Datum) : Activation where
  self := if m.isStatic then none else self
  vars name := ((m.params.zip args).find? (·.1.name = name)).map (·.2)

end MethodInfo

namespace Node
variable (root : Node) (t : SymbolTable)

/-- The declaration of a method of the class. -/
def declaration? (name : String) : Option Node :=
  root.classDecl.toOption.bind fun c =>
    (c.childrenOf [.methodDecl]).find? fun decl => decl.name.toOption = some name

/-- Runs a method, with at most so many calls within each other and rounds of each loop. -/
def invoke : Nat → String → Option Datum → List Datum → Run (Option Datum)
  | 0, _, _, _ => throw .exhausted
  | fuel + 1, name, self, args => do
    match t.method? name, root.declaration? name with
    | some m, some decl =>
      let heap ← get
      if m.receives t heap args then
        match ← Step.sequence (decl.statements.map (t.step m.name (invoke fuel) fuel)) (m.frame self args) with
        | .returned value => return value
        | .next _ => if m.returnType = .void then return none else throw .wrong
      else throw .wrong
    | _, _ => throw .wrong

end Node
end JmmCompiler

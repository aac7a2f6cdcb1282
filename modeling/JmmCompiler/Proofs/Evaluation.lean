import JmmCompiler.Proofs.Values
import JmmCompiler.Varargs
import Mathlib.Logic.Function.Basic
/-! The meaning of syntax trees: expressions are evaluated from left to right over a store of variables,
and statements lead from store to store. What goes beyond variables is a query to the surroundings, so
that fields, arrays and calls mean whatever these answer. -/
namespace JmmCompiler

/-- What a program asks of its surroundings. -/
inductive Query
  | invokeStatic (className : String) (method : Option String) (args : List Value)
  | invoke (method : Option String) (object : Value) (args : List Value)
  | construct (object : Value)
  | new (className : String)
  | newArray (element : String) (size : Int)
  | length (array : Value)
  | load (array : Value) (index : Int)
  | store (array : Value) (index : Int) (value : Value)
  | getField (name : String) (object : Value)
  | putField (name : String) (object value : Value)
  deriving DecidableEq, Inhabited

/-- The object that a method runs for, which a static method lacks, and its variables. -/
structure Store where
  self : Option Value
  vars : String → Value

namespace Store

def set (store : Store) (name : String) (value : Value) : Store :=
  { store with vars := Function.update store.vars name value }

@[simp] theorem self_set (store : Store) (name : String) (value : Value) :
    (store.set name value).self = store.self := rfl

end Store

namespace Act
variable {W α : Type}

/-- What a tree of the wrong shape means is a fault. -/
def ofExcept : Except Failure α → Act W α
  | .ok a => pure a
  | .error _ => throw .fault

@[simp] theorem ofExcept_ok (a : α) : (ofExcept (.ok a) : Act W α) = pure a := rfl

/-- Computations one after the other. -/
def all : List (Act W α) → Act W (List α)
  | [] => return []
  | x :: xs => do
    let a ← x
    return a :: (← all xs)

end Act

/-- What a call reaches. -/
inductive Callee
  | length
  /-- A static method of a class. The receiver is evaluated where it is an expression. -/
  | ofClass (className : String) (evaluated : Bool)
  | ofObject
  deriving DecidableEq, Inhabited

namespace SymbolTable
variable (t : SymbolTable) (method : String)

/-- A name that is no variable but that of an import. -/
def isClassName (e : Node) : Bool :=
  match e.name with
  | .ok name =>
    e.kind = .varRef && (t.binding? method name).isNone && (t.field? name).isNone && t.isImported name
  | .error _ => false

def callee (n : Node) : Except Failure Callee := do
  let name ← n.name
  let receiver ← n.child 0
  let own ← t.isOwnCall method name receiver
  let length ←
    if !own && name = "length" && n.children.tail.isEmpty then
      pure (← t.typeOf method receiver).isArray
    else pure false
  if length then return .length
  else if own && t.isStatic name then return .ofClass t.className (!t.isClassName method receiver)
  else if t.isClassName method receiver then return .ofClass (← receiver.name) false
  else return .ofObject

/-- How a call to a method with variable arguments gathers them: the number of arguments that come before,
and the element type. -/
def packing? (n : Node) : Except Failure (Option (Nat × String)) := do
  let name ← n.name
  let receiver ← n.child 0
  match t.method? name with
  | none => return none
  | some m =>
    if !(← t.isOwnReceiver method receiver) then return none
    match if m.isVarargs then m.params.getLast? else none with
    | none => return none
    | some last =>
      let fixed := m.params.length - 1
      if n.children.tail.length < fixed then return none
      match n.children.tail.drop fixed with
      | [arg] =>
        if arg.kind = .arrayLiteral then return none
        if (← t.typeOf method arg).isArray then return none
        return some (fixed, last.type.name)
      | _ => return some (fixed, last.type.name)

/-- A call to a method of the class that gives no value, perhaps in parentheses. -/
def isVoidCall : Node → Bool
  | ⟨.paren, _, inner :: _, _⟩ => isVoidCall inner
  | ⟨.call, attributes, receiver :: args, position⟩ =>
    match (⟨.call, attributes, receiver :: args, position⟩ : Node).name with
    | .ok name =>
      (t.isOwnCall method name receiver).toOption = some true &&
        (t.method? name).any (·.returnType = .void)
    | .error _ => false
  | _ => false

variable {W : Type} (ask : Query → Act W Value)

/-- Stores values into an array from an index on, each when it has been computed. -/
def fill (array : Value) (index : Nat) : List (Act W Value) → Act W Unit
  | [] => return ()
  | x :: xs => do
    let value ← x
    let _ ← ask (.store array index value)
    fill array (index + 1) xs

/-- A new array that holds given values. -/
def arrayOf (element : String) (parts : List (Act W Value)) : Act W Value := do
  let array ← ask (.newArray element parts.length)
  fill ask array 0 parts
  return array

/-- The arguments of a call, the last ones gathered in an array if the method wants that. -/
def argumentsOf (packing : Option (Nat × String)) (parts : List (Act W Value)) : Act W (List Value) :=
  match packing with
  | none => Act.all parts
  | some (fixed, element) => do
    let values ← Act.all (parts.take fixed)
    return values ++ [← arrayOf ask element (parts.drop fixed)]

/-- A parameter or a local variable, or else a field of `this`. -/
def readVariable (store : Store) (name : String) : Act W Value :=
  if (t.binding? method name).isSome then pure (store.vars name)
  else if (t.field? name).isSome then
    match store.self with
    | some object => ask (.getField name object)
    | none => throw .fault
  else throw .fault

/-- The value of an expression, given what its parts compute. -/
def valueOf (store : Store) (n : Node) (parts : List (Act W Value)) : Act W Value :=
  match n.kind, parts with
  | .intLiteral, _ => do
    match (← Act.ofExcept (n.required "value")).toInt? with
    | some i => return .int i
    | none => throw .fault
  | .boolLiteral, _ => do return .ofBool (← Act.ofExcept (n.required "value")).isSet
  | .paren, inner :: _ => inner
  | .varRef, _ => do t.readVariable method ask store (← Act.ofExcept n.name)
  | .thisRef, _ =>
    match store.self with
    | some object => pure object
    | none => throw .fault
  | .binary, left :: right :: _ => do
    let op ← Act.ofExcept n.op
    let a ← left
    if op = "&&" then
      if ← Act.truth a then right else return .ofBool false
    else
      let b ← right
      match Operator.ofSymbol? op with
      | some op => op.apply a b
      | none => throw .fault
  | .unary, operand :: _ => do
    let op ← Act.ofExcept n.op
    let a ← operand
    if op = "!" then return .ofBool (!(← Act.truth a)) else throw .fault
  | .newObject, _ => do
    let object ← ask (.new (← Act.ofExcept (n.text "name")))
    let _ ← ask (.construct object)
    return object
  | .newArray, size :: _ => do
    let element ← Act.ofExcept n.name
    ask (.newArray element (← Act.number (← size)))
  | .arrayLiteral, elements => do
    let type ← Act.ofExcept (t.typeOf method n)
    arrayOf ask type.name elements
  | .arrayAccess, array :: index :: _ => do
    let array ← array
    ask (.load array (← Act.number (← index)))
  | .length, array :: _ => do ask (.length (← array))
  | .call, receiver :: args => do
    let name ← Act.ofExcept n.name?
    let packing ← Act.ofExcept (t.packing? method n)
    match ← Act.ofExcept (t.callee method n) with
    | .length => ask (.length (← receiver))
    | .ofClass className evaluated =>
      if evaluated then
        let _ ← receiver
      ask (.invokeStatic className name (← argumentsOf ask packing args))
    | .ofObject =>
      let object ← receiver
      ask (.invoke name object (← argumentsOf ask packing args))
  | _, _ => throw .fault

mutual
/-- The value of an expression of a method. -/
def eval (store : Store) : Node → Act W Value
  | ⟨kind, attributes, children, position⟩ =>
    t.valueOf method ask store ⟨kind, attributes, children, position⟩ (evalAll store children)

def evalAll (store : Store) : List Node → List (Act W Value)
  | [] => []
  | e :: es => eval store e :: evalAll store es
end

theorem evalAll_eq_map (store : Store) (es : List Node) :
    t.evalAll method ask store es = es.map (t.eval method ask store) := by
  induction es with
  | nil => rfl
  | cons e es ih => simp [evalAll, ih]

theorem eval_eq (store : Store) (n : Node) :
    t.eval method ask store n =
      t.valueOf method ask store n (n.children.map (t.eval method ask store)) := by
  cases n
  rw [eval, evalAll_eq_map]

end SymbolTable

/-- Where a statement leads: on, out of the method, or on and on in a loop. -/
inductive Flow
  | next (store : Store)
  | returned (value : Option Value)
  | exhausted

namespace Flow
variable {W : Type}

/-- Statements one after the other. -/
def sequence : List (Store → Act W Flow) → Store → Act W Flow
  | [], store => return .next store
  | part :: parts, store => do
    match ← part store with
    | .next store => sequence parts store
    | flow => return flow

/-- A loop that is left after a number of rounds if it has not come to an end. -/
def loop (test : Store → Act W Bool) (body : Store → Act W Flow) : Nat → Store → Act W Flow
  | 0, _ => return .exhausted
  | n + 1, store => do
    if ← test store then
      match ← body store with
      | .next store => loop test body n store
      | flow => return flow
    else return .next store

end Flow

namespace SymbolTable
variable {W : Type} (t : SymbolTable) (method : String) (returnType : Ty) (ask : Query → Act W Value)

/-- An assignment to a parameter or a local variable, or else to a field of `this`. -/
def assignVariable (store : Store) (name : String) (value : Value) : Act W Flow :=
  if (t.binding? method name).isSome then return .next (store.set name value)
  else if (t.field? name).isSome then
    match store.self with
    | some object => do
      let _ ← ask (.putField name object value)
      return .next store
    | none => throw .fault
  else throw .fault

def storeElement (store : Store) (array index value : Node) : Act W Flow := do
  let array ← t.eval method ask store array
  let index ← t.eval method ask store index
  let value ← t.eval method ask store value
  let _ ← ask (.store array (← Act.number index) value)
  return .next store

/-- The truth of a condition. -/
def holds (condition : Node) (store : Store) : Act W Bool := do
  Act.truth (← t.eval method ask store condition)

/-- What a statement does, given what the statements in it do. Loops go at most `rounds` rounds. -/
def flowOf (rounds : Nat) (n : Node) (parts : List (Store → Act W Flow)) (store : Store) : Act W Flow :=
  match n.kind, n.children, parts with
  | .block, _, parts => Flow.sequence parts store
  | .exprStmt, e :: _, _ => do
    let _ ← t.eval method ask store e
    return .next store
  | .assign, [target, value], _ =>
    if target.kind = .arrayAccess then do
      t.storeElement method ask store (← Act.ofExcept (target.child 0)) (← Act.ofExcept (target.child 1))
        value
    else do
      let name ← Act.ofExcept target.name
      t.assignVariable method ask store name (← t.eval method ask store value)
  | .arrayAssign, [array, index, value], _ => t.storeElement method ask store array index value
  | .returnStmt, [], _ => return .returned none
  | .returnStmt, value :: _, _ => do
    let value ← t.eval method ask store value
    return .returned (if returnType = .void then none else some value)
  | .ifStmt, [condition, _, _], [_, thenPart, elsePart] => do
    if ← t.holds method ask condition store then thenPart store else elsePart store
  | .ifStmt, condition :: _, _ :: thenPart :: _ => do
    if ← t.holds method ask condition store then thenPart store else return .next store
  | .whileStmt, condition :: _, _ :: body :: _ =>
    Flow.loop (t.holds method ask condition) body rounds store
  | _, _, _ => throw .fault

mutual
/-- What a statement of a method does. -/
def exec (rounds : Nat) : Node → Store → Act W Flow
  | ⟨kind, attributes, children, position⟩ =>
    t.flowOf method returnType ask rounds ⟨kind, attributes, children, position⟩ (execAll rounds children)

def execAll (rounds : Nat) : List Node → List (Store → Act W Flow)
  | [] => []
  | s :: rest => exec rounds s :: execAll rounds rest
end

theorem execAll_eq_map (rounds : Nat) (ss : List Node) :
    t.execAll method returnType ask rounds ss = ss.map (t.exec method returnType ask rounds) := by
  induction ss with
  | nil => rfl
  | cons s ss ih => simp [execAll, ih]

theorem exec_eq (rounds : Nat) (n : Node) :
    t.exec method returnType ask rounds n =
      t.flowOf method returnType ask rounds n (n.children.map (t.exec method returnType ask rounds)) := by
  cases n
  rw [exec, execAll_eq_map]

/-- What the body of a method does. -/
def execBody (rounds : Nat) (decl : Node) : Store → Act W Flow :=
  Flow.sequence (decl.statements.map (t.exec method returnType ask rounds))

end SymbolTable
end JmmCompiler

import JmmCompiler.Proofs.Evaluation
import JmmCompiler.Proofs.Execution
/-! Programs that run in their surroundings. Calls of the methods of the class run these methods; all other queries are
answered by the surroundings. The calls that are made are recorded. -/
namespace JmmCompiler

/-- A call of a method of the class, on the object at an address unless the method is static. -/
structure OwnCall where
  method : String
  self : Option Nat
  args : List Value
  deriving DecidableEq

/-- What is `this` in the method that is called. -/
def OwnCall.object? (call : OwnCall) : Option Value := call.self.map .ref

/-- What calls reach the class, and how all other queries are answered. -/
structure Surroundings (H : Type) where
  own? : Query → H → Option OwnCall
  answer : Oracle Query H

namespace Query

def isCall : Query → Bool
  | invokeStatic .. | invoke .. | construct .. => true
  | _ => false

end Query

namespace World
variable {H : Type}

/-- Records a query if it is a call. -/
def record (w : World Query H) (query : Query) : World Query H :=
  if query.isCall then { w with trace := w.trace ++ [query] } else w

@[simp] theorem heap_record (w : World Query H) (query : Query) : (w.record query).heap = w.heap := by
  unfold record
  split <;> rfl

end World

namespace Surroundings
variable {H : Type} (S : Surroundings H)

/-- Makes a query, given what the methods of the class do. A call of a method that returns nothing gives some value. -/
def ask (perform : OwnCall → Act (World Query H) (Option Value)) (query : Query) : Act (World Query H) Value := fun w =>
  match S.own? query w.heap with
  | some call => runOn (do return (← perform call).getD .null) (w.record query)
  | none => ((S.answer query w.heap).1, { w.record query with heap := (S.answer query w.heap).2 })

variable {S} {perform : OwnCall → Act (World Query H) (Option Value)} {query : Query} {w : World Query H}

theorem runOn_ask : runOn (S.ask perform query) w = match S.own? query w.heap with
    | some call => runOn (do return (← perform call).getD .null) (w.record query)
    | none => ((S.answer query w.heap).1, { w.record query with heap := (S.answer query w.heap).2 }) := rfl

theorem runOn_ask_own {call : OwnCall} (h : S.own? query w.heap = some call) :
    runOn (S.ask perform query) w = runOn (do return (← perform call).getD .null) (w.record query) := by
  rw [runOn_ask, h]

theorem runOn_ask_other (h : S.own? query w.heap = none) :
    runOn (S.ask perform query) w = ((S.answer query w.heap).1, { w.record query with heap := (S.answer query w.heap).2 }) := by
  rw [runOn_ask, h]

end Surroundings

/-- A call with what a method wants: one argument for each parameter, and an object unless the method is static. -/
structure OwnCall.Suits (call : OwnCall) (m : MethodInfo) : Prop where
  args : call.args.length = m.params.length
  self : call.self.isSome = !m.isStatic

/-- Calls that one of the methods of the class takes. -/
def SymbolTable.Receives (t : SymbolTable) (call : OwnCall) : Prop := ∃ m, t.method? call.method = some m ∧ call.Suits m

/-- The variables with which a method starts: its parameters have the values that it is called with. -/
def MethodInfo.store (m : MethodInfo) (call : OwnCall) : Store where
  self := call.object?
  vars name := (((m.params.zip call.args).find? (·.1.name = name)).map (·.2)).getD .null

/-- Performs a call of a method, with at most so many calls within each other and rounds of each loop. A call that
needs more is one that does not return. -/
def Node.perform {H : Type} (root : Node) (t : SymbolTable) (S : Surroundings H) :
    Nat → OwnCall → Act (World Query H) (Option Value)
  | 0, _ => throw .hang
  | fuel + 1, call =>
    match t.method? call.method, root.declaration? call.method with
    | some m, some decl => do
      match ← t.execBody m.name m.returnType (S.ask (root.perform t S fuel)) (fuel + 1) decl (m.store call) with
      | .next _ => return none
      | .returned value => return value
      | .exhausted => throw .hang
    | _, _ => throw .fault

/-- How a method has ended, if it has. -/
def Outcome.of? : Except Trap (Option Value) → Option Outcome
  | .ok value => some (.returned value)
  | .error .hang => none
  | .error trap => some (.trapped trap)

end JmmCompiler

import JmmCompiler.Constants.Value
/-! Values at run time, the ways in which a computation ends early, and the operators on values. -/
namespace JmmCompiler

/-- A boolean is the integer 0 or 1. -/
inductive Value
  | int (n : Int)
  | null
  | ref (address : Nat)
  deriving DecidableEq, Inhabited

/-- Why a computation ends without a value. -/
inductive Trap
  | divisionByZero
  | thrown (exception : Value)
  /-- A call does not return. -/
  | hang
  /-- An operand has not the form that an operation needs. -/
  | fault
  /-- A truth value that is neither 0 nor 1. -/
  | notBoolean
  deriving DecidableEq, Inhabited

/-- How a method ends, where control does not run out of its code. -/
inductive Outcome
  | returned (value : Option Value)
  | trapped (trap : Trap)
  deriving DecidableEq, Inhabited

/-- A computation over a world. What it did to the world before it ended early stays. -/
abbrev Act (W : Type) := ExceptT Trap (StateM W)

namespace Value

def ofBool (b : Bool) : Value := .int (if b then 1 else 0)

@[simp] theorem ofBool_inj {a b : Bool} : ofBool a = ofBool b ↔ a = b := by
  cases a <;> cases b <;> decide

def isReference : Value → Bool
  | int _ => false
  | null | ref _ => true

end Value

namespace Act
variable {W : Type}

def number : Value → Act W Int
  | .int n => pure n
  | _ => throw .fault

def truth : Value → Act W Bool
  | .int n => if n = 0 then pure false else if n = 1 then pure true else throw .notBoolean
  | _ => throw .fault

@[simp] theorem truth_zero : (truth (.int 0) : Act W Bool) = pure false := rfl

@[simp] theorem truth_one : (truth (.int 1) : Act W Bool) = pure true := rfl

end Act

namespace Operator
variable {W : Type}

/-- The value of an operator on two values. Integers are compared by size, and references are the same or
not. -/
def apply : Operator → Value → Value → Act W Value
  | arithmetic op, .int a, .int b =>
    match op.evaluate? a b with
    | some n => pure (.int n)
    | none => throw .divisionByZero
  | comparison op, .int a, .int b => pure (.ofBool (op.holds a b))
  | comparison .eq, a, b =>
    if a.isReference && b.isReference then pure (.ofBool (a = b)) else throw .fault
  | comparison .ne, a, b =>
    if a.isReference && b.isReference then pure (.ofBool (a ≠ b)) else throw .fault
  | logical .and, a, b => do
    let a ← Act.truth a
    let b ← Act.truth b
    return .ofBool (a && b)
  | logical .or, a, b => do
    let a ← Act.truth a
    let b ← Act.truth b
    return .ofBool (a || b)
  | _, _, _ => throw .fault

end Operator

/-- What the surroundings answer to a request, and what that makes of the heap. -/
abbrev Oracle (Q H : Type) := Q → H → Except Trap Value × H

/-- A heap, and the requests made so far. -/
structure World (Q H : Type) where
  heap : H
  trace : List Q := []

/-- Makes a request. -/
def Oracle.ask {Q H : Type} (oracle : Oracle Q H) (request : Q) : Act (World Q H) Value := fun w =>
  ((oracle request w.heap).1, ⟨(oracle request w.heap).2, w.trace ++ [request]⟩)

end JmmCompiler

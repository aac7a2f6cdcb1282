import JmmCompiler.Tree.Node
import JmmCompiler.Types.Operator
/-! Constants and the operators on them. Integers have 32 bits and wrap around, and division rounds
toward zero. -/
namespace JmmCompiler

inductive Constant
  | int (n : Int)
  | bool (b : Bool)
  deriving DecidableEq, Inhabited

/-- The 32-bit two's complement integer that a number wraps around to: the one in range that differs
from it by a multiple of 2^32. -/
def wrap (n : Int) : Int := Int.bmod n 4294967296

theorem wrap_range (n : Int) : -2147483648 ≤ wrap n ∧ wrap n < 2147483648 := by
  have h₁ := Int.le_bmod (x := n) (m := 4294967296) (by decide)
  have h₂ := Int.bmod_lt (x := n) (m := 4294967296) (by decide)
  unfold wrap
  omega

namespace Arithmetic

/-- The wrapped result, which a division by zero does not have. -/
def evaluate? : Arithmetic → Int → Int → Option Int
  | add, a, b => some (wrap (a + b))
  | sub, a, b => some (wrap (a - b))
  | mul, a, b => some (wrap (a * b))
  | div, a, b => if b = 0 then none else some (wrap (a.tdiv b))

end Arithmetic

namespace Operator

/-- The value of an operator on constants, if it has one at compile time. -/
def evaluate? : Operator → Constant → Constant → Option Constant
  | logical .and, .bool a, .bool b => some (.bool (a && b))
  | logical .or, .bool a, .bool b => some (.bool (a || b))
  | comparison .eq, .bool a, .bool b => some (.bool (a = b))
  | comparison .ne, .bool a, .bool b => some (.bool (a ≠ b))
  | arithmetic op, .int a, .int b => (op.evaluate? a b).map .int
  | comparison op, .int a, .int b => some (.bool (op.holds a b))
  | _, _, _ => none

end Operator

/-- The value of an operator, given by its symbol, on constants. -/
def Constant.evaluate? (op : String) (left right : Constant) : Option Constant :=
  (Operator.ofSymbol? op).bind (·.evaluate? left right)

/-- A literal that stands for a constant. -/
def Constant.node (position : Position) : Constant → Node
  | .int n => ⟨.intLiteral, ⟨[("value", .int n)]⟩, [], position⟩
  | .bool b => ⟨.boolLiteral, ⟨[("value", .bool b)]⟩, [], position⟩

/-- The constant that a literal stands for; other nodes stand for none. -/
def Node.constant? (n : Node) : Except Failure (Option Constant) :=
  match n.kind with
  | .intLiteral => do
    match (← n.required "value").toInt? with
    | some i => return some (.int i)
    | none => throw .malformed
  | .boolLiteral => do return some (.bool (← n.required "value").isSet)
  | _ => return none

end JmmCompiler

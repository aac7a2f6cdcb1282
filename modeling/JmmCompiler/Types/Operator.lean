import JmmCompiler.Types.Basic
/-! The binary operators and the types of their results. -/
namespace JmmCompiler

inductive Comparison
  | lt | le | gt | ge | eq | ne
  deriving DecidableEq, Inhabited

inductive Arithmetic
  | add | sub | mul | div
  deriving DecidableEq, Inhabited

inductive Logical
  | and | or
  deriving DecidableEq, Inhabited

inductive Operator
  | arithmetic (op : Arithmetic)
  | comparison (op : Comparison)
  | logical (op : Logical)
  deriving DecidableEq, Inhabited

namespace Comparison

/-- Whether an operator compares by size, and so wants numbers. -/
def isOrdering : Comparison → Bool
  | eq | ne => false
  | _ => true

def ofSymbol? : String → Option Comparison
  | "<" => some lt
  | "<=" => some le
  | ">" => some gt
  | ">=" => some ge
  | "==" => some eq
  | "!=" => some ne
  | _ => none

def holds : Comparison → Int → Int → Bool
  | lt, a, b => a < b
  | le, a, b => a ≤ b
  | gt, a, b => b < a
  | ge, a, b => b ≤ a
  | eq, a, b => a = b
  | ne, a, b => a ≠ b

end Comparison

namespace Operator

def ofSymbol? : String → Option Operator
  | "+" => some (arithmetic .add)
  | "-" => some (arithmetic .sub)
  | "*" => some (arithmetic .mul)
  | "/" => some (arithmetic .div)
  | "&&" => some (logical .and)
  | "||" => some (logical .or)
  | s => (Comparison.ofSymbol? s).map comparison

def resultType : Operator → Ty
  | arithmetic _ => .int
  | comparison _ => .boolean
  | logical _ => .boolean

/-- The type of both operands, where the operator fixes it: `==` and `!=` compare values of any
type. -/
def operandType? : Operator → Option Ty
  | arithmetic _ => some .int
  | comparison op => if op.isOrdering then some .int else none
  | logical _ => some .boolean

end Operator

theorem Operator.comparison_ofSymbol {op : String} {c : Comparison}
    (h : Operator.ofSymbol? op = some (.comparison c)) : Comparison.ofSymbol? op = some c := by
  unfold Operator.ofSymbol? at h
  split at h
  case h_7 =>
    obtain ⟨c', hc, heq⟩ := Option.map_eq_some_iff.1 h
    rwa [Operator.comparison.inj heq] at hc
  all_goals simp at h

theorem Comparison.operator_ofSymbol {op : String} {c : Comparison} (h : Comparison.ofSymbol? op = some c) :
    Operator.ofSymbol? op = some (.comparison c) := by
  unfold Comparison.ofSymbol? at h
  split at h <;> first | (obtain rfl := Option.some.inj h; rfl) | simp at h

end JmmCompiler

import JmmCompiler.Tree.Kind
import JmmCompiler.Types.Basic
/-! Why a stage of the compiler gives up, as opposed to the reports it makes about a program. -/
namespace JmmCompiler

inductive Failure
  | missingAttribute (kind : Kind) (key : String)
  | missingChild (kind : Kind) (index : Int)
  | noClass
  | notAType (kind : Kind)
  | notAnArray (type : Ty)
  | unknownOperator (op : String)
  | unknownMethod (name : String)
  | unsupportedExpression (kind : Kind)
  | unsupportedStatement (kind : Kind)
  | unresolvedVariable (name method : String)
  | notAssignable (name method : String)
  | duplicateLabel (label : String)
  | unknownLabel (label method : String)
  | noSlot (name method : String)
  | unknownCodeMethod (name : String)
  | unsupportedInstruction (form : String)
  | unsupportedValue (form : String)
  | unsupportedBinary (op : String)
  | unsupportedUnary (op : String)
  | classAsValue (name : String)
  | absentOperand
  | referenceOrder (op : String)
  | invalidSlot (slot : Int) (opcode : String)
  | incrementRange (amount : Int)
  | arrayAllocation
  /-- A tree or an instruction of a shape that the stage has no rule for. -/
  | malformed
  deriving DecidableEq, Inhabited

def Failure.message : Failure → String
  | missingAttribute kind key => kind.name ++ " node has no attribute '" ++ key ++ "'"
  | missingChild kind index => kind.name ++ " node has no child " ++ toString index
  | noClass => "Program has no class declaration"
  | notAType kind => "Expected a type node, got " ++ kind.name
  | notAnArray type => "Type " ++ type.text ++ " is not an array"
  | unknownOperator op => "Unknown binary operator: " ++ op
  | unknownMethod name => "Unknown method: " ++ name
  | unsupportedExpression kind => "Unsupported expression type: " ++ kind.name
  | unsupportedStatement kind => "Unsupported statement type: " ++ kind.name
  | unresolvedVariable name method =>
    "Unresolved variable '" ++ name ++ "' in method '" ++ method ++ "'"
  | notAssignable name method => "Cannot assign to '" ++ name ++ "' in method '" ++ method ++ "'"
  | duplicateLabel label => "Duplicate label: " ++ label
  | unknownLabel label method => "Unknown label '" ++ label ++ "' in method '" ++ method ++ "'"
  | noSlot name method =>
    "Variable '" ++ name ++ "' has no register in method '" ++ method ++ "'"
  | unknownCodeMethod name => "Unknown IR method: " ++ name
  | unsupportedInstruction form => "Unsupported instruction: " ++ form
  | unsupportedValue form => "Unsupported value instruction: " ++ form
  | unsupportedBinary op => "Unsupported binary operator: " ++ op
  | unsupportedUnary op => "Unsupported unary operator: " ++ op
  | classAsValue name => "Class '" ++ name ++ "' cannot be loaded as a value"
  | absentOperand => "Unsupported element: None"
  | referenceOrder op => "References cannot be compared with '" ++ op ++ "'"
  | invalidSlot slot opcode => "Invalid local slot " ++ toString slot ++ " for " ++ opcode
  | incrementRange amount => "iinc increment out of range: " ++ toString amount
  | arrayAllocation => "Array allocation takes exactly one size"
  | malformed => "internal error"

end JmmCompiler

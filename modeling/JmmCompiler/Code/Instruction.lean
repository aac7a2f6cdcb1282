import JmmCompiler.Code.Element
import JmmCompiler.Types.Operator
/-! Three-address instructions, the variables that they define and use, and their text. -/
namespace JmmCompiler

inductive Invocation
  | virtual | static | special | new | arrayLength
  deriving DecidableEq, Inhabited

def Invocation.name : Invocation → String
  | virtual => "invokevirtual"
  | static => "invokestatic"
  | special => "invokespecial"
  | new => "new"
  | arrayLength => "arraylength"

inductive Instruction
  /-- The value of an element. -/
  | single (operand : Element)
  | binary (op : String) (left right : Element) (type : Ty)
  | unary (op : String) (operand : Element) (type : Ty)
  /-- A call, an allocation or an array length. `receiver` is absent where there is none. -/
  | call (invocation : Invocation) (receiver : Element) (method : Option String)
      (args : List Element) (type : Ty)
  | getField (object field : Element)
  | putField (object field value : Element)
  | assign (dest : Element) (value : Instruction)
  /-- A return, with `operand` absent where no value is returned. -/
  | ret (operand : Element) (type : Ty)
  | branch (condition : Instruction) (label : String)
  | goto (label : String)
  | nop
  /-- Marks the place of a label in a sequence of instructions that belongs to no method yet. -/
  | label (name : String)
  deriving DecidableEq, Inhabited

namespace Instruction

/-- The name of the form of an instruction in messages. -/
def form : Instruction → String
  | single .. => "SingleOp"
  | binary .. => "BinaryOp"
  | unary .. => "UnaryOp"
  | call .. => "Call"
  | getField .. => "GetField"
  | putField .. => "PutField"
  | assign .. => "Assign"
  | ret .. => "Return"
  | branch .. => "CondBranch"
  | goto .. => "Goto"
  | nop => "NoOp"
  | label .. => "Label"

/-- The names that operands read, where an absent operand reads none. -/
def optionalNames : Element → Except Failure (List String)
  | .absent => .ok []
  | e => e.names

/-- The variables that an instruction writes. A store into an array writes none. -/
def defs : Instruction → Except Failure (List String)
  | assign (.item ..) _ => .ok []
  | assign dest _ => do return [← dest.name]
  | _ => .ok []

/-- The variables that an instruction reads. -/
def uses : Instruction → Except Failure (List String)
  | single e => e.names
  | binary _ l r _ => do
    let names ← l.names
    return names ++ (← r.names)
  | unary _ e _ => e.names
  | call _ receiver _ args _ => do
    let names ← optionalNames receiver
    return names ++ (← args.mapM Element.names).flatten
  | getField .. => .ok []
  | putField _ _ value => value.names
  | assign dest value => do
    let names ← value.uses
    if dest.isItem then return (← dest.names) ++ names else return names
  | ret e _ => optionalNames e
  | branch condition _ => condition.uses
  | goto _ | nop | label _ => .ok []

def text : Instruction → Except Failure String
  | single e => .ok e.text
  | binary op l r t => .ok (l.text ++ " " ++ op ++ "." ++ t.codeName ++ " " ++ r.text)
  | unary op e t => .ok (op ++ "." ++ t.codeName ++ " " ++ e.text)
  | call invocation receiver method args t =>
    let subject :=
      if invocation = .new ∧ t.isArray then ["array"]
      else if receiver = .absent then [] else [receiver.text]
    let parts := subject ++ (method.map fun m => "\"" ++ m ++ "\"").toList ++ args.map Element.text
    .ok (invocation.name ++ "(" ++ String.intercalate ", " parts ++ ")." ++ t.codeName)
  | getField object field => do
    return "getfield(" ++ object.text ++ ", " ++ field.text ++ ")." ++ (← field.type).codeName
  | putField object field value =>
    .ok ("putfield(" ++ object.text ++ ", " ++ field.text ++ ", " ++ value.text ++ ").V")
  | assign dest value => do
    let type ← dest.type
    return dest.text ++ " :=." ++ type.codeName ++ " " ++ (← value.text)
  | ret .absent _ => .ok "ret.V"
  | ret e t => .ok ("ret." ++ t.codeName ++ " " ++ e.text)
  | branch condition target => do return "if (" ++ (← condition.text) ++ ") goto " ++ target
  | goto target => .ok ("goto " ++ target)
  | nop => .ok ""
  | label name => .ok (name ++ ":")

end Instruction
end JmmCompiler

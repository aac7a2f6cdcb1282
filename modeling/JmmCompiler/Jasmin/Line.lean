import JmmCompiler.Types.Operator
/-! The lines of a method body, and their text with the shortest encoding of constants and slots. -/
namespace JmmCompiler.Jasmin

/-- Instructions without operands. -/
inductive Plain
  | iadd | isub | imul | idiv | iand | ior
  | iaload | baload | aaload | iastore | bastore | aastore
  | arrayLength | pop | nop | ret | iret | aret
  /-- An instruction known by its mnemonic only. -/
  | other (mnemonic : String)
  deriving DecidableEq, Inhabited

/-- Instructions that move a value between a slot and the operand stack. -/
inductive SlotOp
  | iload | aload | istore | astore
  deriving DecidableEq, Inhabited

/-- What a conditional jump compares: the top of the stack with zero, or the two values on top of it. -/
inductive Compared
  | zero | ints | refs
  deriving DecidableEq, Inhabited

inductive FieldOp
  | get | put
  deriving DecidableEq, Inhabited

inductive CallOp
  | virtual | special | static
  deriving DecidableEq, Inhabited

inductive Line
  | label (name : String)
  | const (value : Int)
  | slot (op : SlotOp) (slot : Int)
  | increment (slot amount : Int)
  | plain (op : Plain)
  | goto (label : String)
  | jump (compared : Compared) (op : Comparison) (label : String)
  | new (className : String)
  /-- A new array of a base type or of a class, given by its internal name. -/
  | newArray (element : String)
  | field (op : FieldOp) (owner name descriptor : String)
  | invoke (op : CallOp) (owner name descriptor : String)
  deriving DecidableEq, Inhabited

def Plain.text : Plain → String
  | iadd => "iadd"
  | isub => "isub"
  | imul => "imul"
  | idiv => "idiv"
  | iand => "iand"
  | ior => "ior"
  | iaload => "iaload"
  | baload => "baload"
  | aaload => "aaload"
  | iastore => "iastore"
  | bastore => "bastore"
  | aastore => "aastore"
  | arrayLength => "arraylength"
  | pop => "pop"
  | nop => "nop"
  | ret => "return"
  | iret => "ireturn"
  | aret => "areturn"
  | other mnemonic => mnemonic

def SlotOp.text : SlotOp → String
  | iload => "iload"
  | aload => "aload"
  | istore => "istore"
  | astore => "astore"

def Compared.text : Compared → String
  | zero => "if"
  | ints => "if_icmp"
  | refs => "if_acmp"

def comparisonText : Comparison → String
  | .lt => "lt"
  | .le => "le"
  | .gt => "gt"
  | .ge => "ge"
  | .eq => "eq"
  | .ne => "ne"

def FieldOp.text : FieldOp → String
  | get => "getfield"
  | put => "putfield"

def CallOp.text : CallOp → String
  | virtual => "invokevirtual"
  | special => "invokespecial"
  | static => "invokestatic"

/-- The amounts that an increment can add. -/
def fitsByte (n : Int) : Bool := -128 ≤ n && n ≤ 127

def fitsShort (n : Int) : Bool := -32768 ≤ n && n ≤ 32767

def constText (n : Int) : String :=
  if n = -1 then "iconst_m1"
  else if 0 ≤ n ∧ n ≤ 5 then "iconst_" ++ toString n
  else if fitsByte n then "bipush " ++ toString n
  else if fitsShort n then "sipush " ++ toString n
  else "ldc " ++ toString n

namespace Line

/-- An instruction without its indentation. -/
def body : Line → String
  | label name => name ++ ":"
  | const n => constText n
  | slot op n => op.text ++ (if n ≤ 3 then "_" else " ") ++ toString n
  | increment n amount => "iinc " ++ toString n ++ " " ++ toString amount
  | plain op => op.text
  | goto target => "goto " ++ target
  | jump compared op target => compared.text ++ comparisonText op ++ " " ++ target
  | new className => "new " ++ className
  | newArray element =>
    if element = "int" ∨ element = "boolean" then "newarray " ++ element
    else "anewarray " ++ element
  | field op owner name descriptor => op.text ++ " " ++ owner ++ "/" ++ name ++ " " ++ descriptor
  | invoke op owner name descriptor => op.text ++ " " ++ owner ++ "/" ++ name ++ descriptor

/-- Instructions are indented and labels are not. -/
def text : Line → String
  | label name => name ++ ":"
  | l => "    " ++ l.body

end Line
end JmmCompiler.Jasmin

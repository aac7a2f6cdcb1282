import JmmCompiler.Text.Blank
import JmmCompiler.Text.Digit
/-! The notation of integers: blanks around it, an optional sign, and digits among which single
underscores may stand. -/
namespace JmmCompiler.Text

/-- Digits with single underscores between them. `value` is what the digits so far stand for. -/
def digits? (value : Nat) : List Char → Option Nat
  | [] => some value
  | ['_'] => none
  | '_' :: c :: cs => (digit? c).bind fun d => digits? (10 * value + d) cs
  | c :: cs => (digit? c).bind fun d => digits? (10 * value + d) cs

def natural? : List Char → Option Nat
  | [] => none
  | c :: cs => (digit? c).bind fun d => digits? d cs

def integer? (s : String) : Option Int :=
  match trim isNumberBlank s.toList with
  | '-' :: cs => (natural? cs).map fun n => -(n : Int)
  | '+' :: cs => (natural? cs).map fun n => (n : Int)
  | cs => (natural? cs).map fun n => (n : Int)

/-- The value of a run of ASCII digits. -/
def decimal (cs : List Char) : Nat := cs.foldl (fun n c => 10 * n + (c.toNat - '0'.toNat)) 0

end JmmCompiler.Text

import JmmCompiler.Source.Token
import JmmCompiler.Text.Blank
/-! Why a text is no program. -/
namespace JmmCompiler

inductive SyntaxError
  | illegalCharacter (spelling : String) (position : Position)
  | unexpectedToken (token : Token)
  | unexpectedEnd
  deriving DecidableEq, Inhabited

namespace SyntaxError

/-- The error of finding `t` where no program goes on with it. -/
def found (t : Token) : SyntaxError :=
  if t.kind = .illegal then illegalCharacter t.text t.position else unexpectedToken t

/-- The end of the text has no place of its own and counts as line and column -1. -/
def position : SyntaxError → Position
  | illegalCharacter _ p => p
  | unexpectedToken t => t.position
  | unexpectedEnd => ⟨-1, -1⟩

/-- What went wrong. The description is one line, so it ends before a character that would end the
line. -/
def description : SyntaxError → String
  | illegalCharacter spelling p =>
    if spelling.toList.any Text.isLineEnd then "No terminal matches '"
    else "No terminal matches '" ++ spelling ++ "' in the current parser context, at line " ++
      toString p.line ++ " col " ++ toString p.column
  | unexpectedToken t =>
    "Unexpected token Token('" ++ t.kind.name ++ "', '" ++ t.text ++ "') at line " ++
      toString t.position.line ++ ", column " ++ toString t.position.column ++ "."
  | unexpectedEnd => "Unexpected end-of-input. Expected one of: "

def located (p : Position) (description : String) : String :=
  toString p.line ++ ":" ++ toString p.column ++ ": " ++ description

def message (e : SyntaxError) : String := located e.position e.description

end SyntaxError
end JmmCompiler

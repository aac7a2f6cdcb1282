import JmmCompiler.Text.Hex
import JmmCompiler.Text.Printable
/-! Texts in quotes, with escapes for what cannot be printed. -/
namespace JmmCompiler.Text

/-- A character between quotes. -/
def escape (quote c : Char) : List Char :=
  let n := c.toNat
  if c = quote ∨ c = '\\' then ['\\', c]
  else if c = '\n' then ['\\', 'n']
  else if c = '\r' then ['\\', 'r']
  else if c = '\t' then ['\\', 't']
  else if isPrintable c then [c]
  else if n < 0x100 then '\\' :: 'x' :: hex 2 n
  else if n < 0x10000 then '\\' :: 'u' :: hex 4 n
  else '\\' :: 'U' :: hex 8 n

/-- The quotes that a text stands in: single ones, unless it holds single ones and no double ones. -/
def quoteOf (cs : List Char) : Char :=
  if cs.contains '\x27' && !cs.contains '"' then '"' else '\x27'

def quoted (s : String) : String :=
  let cs := s.toList
  let quote := quoteOf cs
  String.ofList (quote :: cs.flatMap (escape quote) ++ [quote])

end JmmCompiler.Text

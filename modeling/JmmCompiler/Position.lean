/-! Places in a source text. -/
namespace JmmCompiler

/-- A place in a source text. Lines and columns count from 1; line 0 belongs to a tree that was
built rather than read. -/
structure Position where
  line : Int := 0
  column : Int := 0
  deriving DecidableEq, Inhabited

/-- The place after one more character. Only a line feed starts a new line. -/
def Position.next (p : Position) (c : Char) : Position :=
  if c = '\n' then ⟨p.line + 1, 1⟩ else ⟨p.line, p.column + 1⟩

end JmmCompiler

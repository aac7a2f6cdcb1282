import JmmCompiler.Source.Token
/-! Cutting a text into tokens. The longest token wins; blanks and comments separate tokens and are
dropped. -/
namespace JmmCompiler

/-- A character and its place. -/
structure Glyph where
  char : Char
  position : Position

namespace Glyph

/-- The characters of a text with their places. -/
def ofChars (p : Position) : List Char → List Glyph
  | [] => []
  | c :: cs => ⟨c, p⟩ :: ofChars (p.next c) cs

@[simp] theorem map_char_ofChars (p : Position) (cs : List Char) :
    (ofChars p cs).map char = cs := by
  induction cs generalizing p <;> simp_all [ofChars]

def text (gs : List Glyph) : String := String.ofList (gs.map char)

end Glyph

namespace Lexer

def isBlank (c : Char) : Bool := c = ' ' || c = '\t' || c = '\x0c' || c = '\r' || c = '\n'

def isWordStart (c : Char) : Bool := c.isAlpha || c = '_' || c = '$'

def isWordPart (c : Char) : Bool := isWordStart c || c.isDigit

/-- The length of a block comment after its opening, if it is closed. -/
def commentEnd? : List Glyph → Option Nat
  | [] => none
  | [_] => none
  | a :: b :: gs =>
    if a.char = '*' ∧ b.char = '/' then some 2 else (commentEnd? (b :: gs)).map (· + 1)

/-- How many characters a blank or a comment at the front takes; 0 when a token stands there. A block
comment that is never closed is none. -/
def ignored : List Glyph → Nat
  | [] => 0
  | [a] => if isBlank a.char then 1 else 0
  | a :: b :: gs =>
    if isBlank a.char then 1
    else if a.char = '/' ∧ b.char = '/' then 2 + (gs.takeWhile (·.char ≠ '\n')).length
    else if a.char = '/' ∧ b.char = '*' then ((commentEnd? gs).map (· + 2)).getD 0
    else 0

def wordKind (word : String) : TokenKind := (TokenKind.keywords.lookup word).getD .identifier

/-- The class and the length of the token at the front. -/
def lexeme : List Glyph → TokenKind × Nat
  | [] => (.illegal, 0)
  | g :: gs =>
    if isWordStart g.char then
      let word := g :: gs.takeWhile (isWordPart ·.char)
      (wordKind (Glyph.text word), word.length)
    else if g.char.isDigit then (.integer, 1 + (gs.takeWhile (·.char.isDigit)).length)
    else
      match TokenKind.symbols.find? fun s => s.1.isPrefixOf (g.char :: (gs.take 2).map (·.char)) with
      | some (spelling, kind) => (kind, spelling.length)
      | none => (.illegal, 1)

def scan : List Glyph → List Token
  | [] => []
  | g :: gs =>
    match ignored (g :: gs) with
    | n + 1 => scan (gs.drop n)
    | 0 =>
      let (kind, length) := lexeme (g :: gs)
      ⟨kind, Glyph.text ((g :: gs).take length), g.position⟩ :: scan (gs.drop (length - 1))
termination_by gs => gs.length
decreasing_by all_goals simp only [List.length_drop, List.length_cons]; omega

def tokens (source : String) : List Token := scan (Glyph.ofChars ⟨1, 1⟩ source.toList)

end Lexer
end JmmCompiler

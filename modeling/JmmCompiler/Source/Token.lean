import JmmCompiler.Position
/-! The tokens of the language. -/
namespace JmmCompiler

inductive TokenKind
  | publicWord | privateWord | protectedWord | staticWord | intWord | booleanWord | voidWord
  | trueWord | falseWord | thisWord | newWord | lengthWord | importWord | classWord | extendsWord
  | ifWord | elseWord | whileWord | returnWord
  | ellipsis | not | orOp | andOp | equalityOp | orderOp | addOp | mulOp
  | integer | identifier
  | semicolon | dot | comma | leftBrace | rightBrace | leftParen | rightParen
  | leftBracket | rightBracket | equals
  /-- A character that no token starts with. -/
  | illegal
  deriving DecidableEq, Inhabited

namespace TokenKind

/-- The name of a token class in messages. -/
def name : TokenKind → String
  | publicWord => "PUBLIC"
  | privateWord => "PRIVATE"
  | protectedWord => "PROTECTED"
  | staticWord => "STATIC"
  | intWord => "INT_TYPE"
  | booleanWord => "BOOLEAN_TYPE"
  | voidWord => "VOID_TYPE"
  | trueWord => "TRUE"
  | falseWord => "FALSE"
  | thisWord => "THIS"
  | newWord => "NEW"
  | lengthWord => "LENGTH"
  | importWord => "IMPORT"
  | classWord => "CLASS"
  | extendsWord => "EXTENDS"
  | ifWord => "IF"
  | elseWord => "ELSE"
  | whileWord => "WHILE"
  | returnWord => "RETURN"
  | ellipsis => "ELLIPSIS"
  | not => "NOT"
  | orOp => "OR_OP"
  | andOp => "AND_OP"
  | equalityOp => "EQ_OP"
  | orderOp => "REL_OP"
  | addOp => "ADD_OP"
  | mulOp => "MUL_OP"
  | integer => "INT_LIT"
  | identifier => "ID"
  | semicolon => "SEMICOLON"
  | dot => "DOT"
  | comma => "COMMA"
  | leftBrace => "LBRACE"
  | rightBrace => "RBRACE"
  | leftParen => "LPAR"
  | rightParen => "RPAR"
  | leftBracket => "LSQB"
  | rightBracket => "RSQB"
  | equals => "EQUAL"
  | illegal => "ILLEGAL"

/-- The words that no identifier may spell. -/
def keywords : List (String × TokenKind) :=
  [("public", publicWord), ("private", privateWord), ("protected", protectedWord),
   ("static", staticWord), ("int", intWord), ("boolean", booleanWord), ("void", voidWord),
   ("true", trueWord), ("false", falseWord), ("this", thisWord), ("new", newWord),
   ("length", lengthWord), ("import", importWord), ("class", classWord), ("extends", extendsWord),
   ("if", ifWord), ("else", elseWord), ("while", whileWord), ("return", returnWord)]

/-- The tokens made of punctuation, each before those that are shorter. -/
def symbols : List (List Char × TokenKind) :=
  [(['.', '.', '.'], ellipsis), (['|', '|'], orOp), (['&', '&'], andOp), (['=', '='], equalityOp),
   (['!', '='], equalityOp), (['<', '='], orderOp), (['>', '='], orderOp), (['<'], orderOp),
   (['>'], orderOp), (['+'], addOp), (['-'], addOp), (['*'], mulOp), (['/'], mulOp), (['!'], not),
   ([';'], semicolon), (['.'], dot), ([','], comma), (['\x7b'], leftBrace), (['\x7d'], rightBrace),
   (['('], leftParen), ([')'], rightParen), (['['], leftBracket), ([']'], rightBracket),
   (['='], equals)]

end TokenKind

structure Token where
  kind : TokenKind
  text : String
  position : Position := {}
  deriving DecidableEq, Inhabited

end JmmCompiler

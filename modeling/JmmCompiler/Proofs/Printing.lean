import JmmCompiler.Source.Reader
/-! Printing a tree: the tokens that it is written with. Parentheses stand where the tree has them and
braces where it has a block, and the declarations of a method come first in its body. -/
namespace JmmCompiler

/-- A token without its place. -/
abbrev Lexeme := TokenKind × String

def Token.lexeme (t : Token) : Lexeme := (t.kind, t.text)

namespace TokenKind

/-- The spelling of a token class that has only one. -/
def spelling (k : TokenKind) : String :=
  match keywords.find? (·.2 = k), symbols.find? (·.2 = k) with
  | some word, _ => word.1
  | none, some symbol => String.ofList symbol.1
  | none, none => ""

/-- The token of a class that has only one spelling. -/
def lexeme (k : TokenKind) : Lexeme := (k, k.spelling)

end TokenKind

namespace Lexeme

/-- A keyword or an identifier. -/
def word (s : String) : Lexeme := (Lexer.wordKind s, s)

def operator (s : String) : Lexeme := ((TokenKind.symbols.lookup s.toList).getD .illegal, s)

end Lexeme

namespace Node

/-- The text of an attribute, empty if that is no text. -/
def spelled (n : Node) (key : String) : String :=
  match n.attribute? key with
  | some (.text s) => s
  | _ => ""

/-- What stands between brackets or parentheses. -/
def listed (parts : List (List Lexeme)) : List Lexeme := List.intercalate [TokenKind.comma.lexeme] parts

/-- A dotted name. -/
def dotted (name : String) : List Lexeme :=
  List.intercalate [TokenKind.dot.lexeme]
    ((name.toList.splitOn '.').map fun cs => [Lexeme.word (String.ofList cs)])

/-- The tokens of a node, given those of its children. -/
@[simp] def layout (n : Node) (parts : List (Kind × List Lexeme)) : List Lexeme :=
  let token := TokenKind.lexeme
  let name := Lexeme.word (n.spelled "name")
  match n.kind, parts with
  | .program, parts => parts.flatMap (·.2)
  | .importDecl, _ => [token .importWord] ++ dotted (n.spelled "name") ++ [token .semicolon]
  | .classDecl, parts =>
    let parent :=
      if (n.attribute? "superclass").isSome then
        [token .extendsWord, Lexeme.word (n.spelled "superclass")]
      else []
    [token .classWord, name] ++ parent ++ [token .leftBrace] ++ parts.flatMap (·.2) ++
      [token .rightBrace]
  | .varDecl, [(_, type)] => type ++ [name, token .semicolon]
  | .methodDecl, (_, type) :: parts =>
    (if n.flag "is_public" then [token .publicWord] else []) ++
      (if n.flag "is_static" then [token .staticWord] else []) ++ type ++ [name, token .leftParen] ++
      listed ((parts.filter (·.1 = .param)).map (·.2)) ++ [token .rightParen, token .leftBrace] ++
      (parts.filter (·.1 ≠ .param)).flatMap (·.2) ++ [token .rightBrace]
  | .param, [(_, type)] => type ++ [name]
  | .typeRef, _ =>
    [name] ++
      if n.flag "is_varargs" then [token .ellipsis]
      else if n.flag "is_array" then [token .leftBracket, token .rightBracket] else []
  | .block, parts => [token .leftBrace] ++ parts.flatMap (·.2) ++ [token .rightBrace]
  | .exprStmt, [(_, e)] => e ++ [token .semicolon]
  | .ifStmt, [(_, condition), (_, thenPart)] =>
    [token .ifWord, token .leftParen] ++ condition ++ [token .rightParen] ++ thenPart
  | .ifStmt, [(_, condition), (_, thenPart), (_, elsePart)] =>
    [token .ifWord, token .leftParen] ++ condition ++ [token .rightParen] ++ thenPart ++
      [token .elseWord] ++ elsePart
  | .whileStmt, [(_, condition), (_, body)] =>
    [token .whileWord, token .leftParen] ++ condition ++ [token .rightParen] ++ body
  | .assign, [(_, target), (_, value)] => target ++ [token .equals] ++ value ++ [token .semicolon]
  | .arrayAssign, [(_, array), (_, index), (_, value)] =>
    array ++ [token .leftBracket] ++ index ++ [token .rightBracket, token .equals] ++ value ++
      [token .semicolon]
  | .returnStmt, [] => [token .returnWord, token .semicolon]
  | .returnStmt, [(_, value)] => [token .returnWord] ++ value ++ [token .semicolon]
  | .binary, [(_, left), (_, right)] => left ++ [Lexeme.operator (n.spelled "op")] ++ right
  | .unary, [(_, operand)] => [Lexeme.operator (n.spelled "op")] ++ operand
  | .paren, [(_, inner)] => [token .leftParen] ++ inner ++ [token .rightParen]
  | .varRef, _ => [name]
  | .intLiteral, _ =>
    match n.attribute? "value" with
    | some (.int value) => [(.integer, toString value)]
    | _ => []
  | .boolLiteral, _ => [token (if n.flag "value" then .trueWord else .falseWord)]
  | .thisRef, _ => [token .thisWord]
  | .newObject, _ => [token .newWord, name, token .leftParen, token .rightParen]
  | .newArray, [(_, size)] =>
    [token .newWord, name, token .leftBracket] ++ size ++ [token .rightBracket]
  | .arrayLiteral, parts =>
    [token .leftBracket] ++ listed (parts.map (·.2)) ++ [token .rightBracket]
  | .arrayAccess, [(_, array), (_, index)] =>
    array ++ [token .leftBracket] ++ index ++ [token .rightBracket]
  | .length, [(_, array)] => array ++ [token .dot, token .lengthWord]
  | .call, (_, receiver) :: args =>
    receiver ++ [token .dot, name, token .leftParen] ++ listed (args.map (·.2)) ++ [token .rightParen]
  | _, _ => []

mutual
/-- The tokens that a tree is written with. -/
def lexemes : Node → List Lexeme
  | ⟨kind, attributes, children, position⟩ =>
    layout ⟨kind, attributes, children, position⟩ (allLexemes children)

def allLexemes : List Node → List (Kind × List Lexeme)
  | [] => []
  | c :: cs => (c.kind, c.lexemes) :: allLexemes cs
end

theorem allLexemes_eq_map (cs : List Node) : allLexemes cs = cs.map fun c => (c.kind, c.lexemes) := by
  induction cs with
  | nil => rfl
  | cons c cs ih => rw [allLexemes, ih, List.map_cons]

theorem lexemes_eq (n : Node) :
    n.lexemes = n.layout (n.children.map fun c => (c.kind, c.lexemes)) := by
  cases n
  rw [lexemes, allLexemes_eq_map]

/-! How each expression is printed. -/

section
variable (p : Position)

theorem lexemes_intLiteral (value : Nat) :
    lexemes ⟨.intLiteral, ⟨[("value", .int value)]⟩, [], p⟩ = [(.integer, toString value)] := rfl

theorem lexemes_boolLiteral (value : Bool) :
    lexemes ⟨.boolLiteral, ⟨[("value", .bool value)]⟩, [], p⟩ =
      [TokenKind.lexeme (if value then .trueWord else .falseWord)] := rfl

theorem lexemes_thisRef : lexemes ⟨.thisRef, {}, [], p⟩ = [TokenKind.lexeme .thisWord] := rfl

theorem lexemes_varRef (name : String) :
    lexemes ⟨.varRef, ⟨[("name", .text name)]⟩, [], p⟩ = [Lexeme.word name] := rfl

theorem lexemes_paren (inner : Node) :
    lexemes ⟨.paren, {}, [inner], p⟩ =
      TokenKind.lexeme .leftParen :: (inner.lexemes ++ [TokenKind.lexeme .rightParen]) := rfl

theorem lexemes_newObject (name : String) :
    lexemes ⟨.newObject, ⟨[("name", .text name)]⟩, [], p⟩ =
      [TokenKind.lexeme .newWord, Lexeme.word name, TokenKind.lexeme .leftParen,
        TokenKind.lexeme .rightParen] := rfl

theorem lexemes_newArray (name : String) (size : Node) :
    lexemes ⟨.newArray, ⟨[("name", .text name)]⟩, [size], p⟩ =
      TokenKind.lexeme .newWord :: Lexeme.word name :: TokenKind.lexeme .leftBracket ::
        (size.lexemes ++ [TokenKind.lexeme .rightBracket]) := rfl

theorem lexemes_arrayLiteral (elements : List Node) :
    lexemes ⟨.arrayLiteral, {}, elements, p⟩ =
      TokenKind.lexeme .leftBracket ::
        (listed (elements.map lexemes) ++ [TokenKind.lexeme .rightBracket]) := by
  rw [lexemes_eq]
  simp [layout, Function.comp_def]

theorem lexemes_arrayAccess (array index : Node) :
    lexemes ⟨.arrayAccess, {}, [array, index], p⟩ =
      array.lexemes ++ TokenKind.lexeme .leftBracket ::
        (index.lexemes ++ [TokenKind.lexeme .rightBracket]) := by
  rw [lexemes_eq]
  simp [layout]

theorem lexemes_length (array : Node) :
    lexemes ⟨.length, {}, [array], p⟩ =
      array.lexemes ++ [TokenKind.lexeme .dot, TokenKind.lexeme .lengthWord] := rfl

theorem lexemes_call (name : String) (receiver : Node) (args : List Node) :
    lexemes ⟨.call, ⟨[("name", .text name)]⟩, receiver :: args, p⟩ =
      receiver.lexemes ++ TokenKind.lexeme .dot :: Lexeme.word name :: TokenKind.lexeme .leftParen ::
        (listed (args.map lexemes) ++ [TokenKind.lexeme .rightParen]) := by
  rw [lexemes_eq]
  simp [layout, Function.comp_def, spelled, attribute?, Assoc.find?, Assoc.findEntry]

theorem lexemes_unary (op : String) (operand : Node) :
    lexemes ⟨.unary, ⟨[("op", .text op)]⟩, [operand], p⟩ = Lexeme.operator op :: operand.lexemes := rfl

theorem lexemes_binary (op : String) (left right : Node) :
    lexemes ⟨.binary, ⟨[("op", .text op)]⟩, [left, right], p⟩ =
      left.lexemes ++ Lexeme.operator op :: right.lexemes := by
  rw [lexemes_eq]
  simp [layout, spelled, attribute?, Assoc.find?, Assoc.findEntry]

/-! How each statement is printed. -/

theorem lexemes_block (items : List Node) :
    lexemes ⟨.block, {}, items, p⟩ =
      TokenKind.lexeme .leftBrace :: (items.flatMap lexemes ++ [TokenKind.lexeme .rightBrace]) := by
  rw [lexemes_eq]
  simp [layout, List.flatMap_map]

theorem lexemes_exprStmt (e : Node) :
    lexemes ⟨.exprStmt, {}, [e], p⟩ = e.lexemes ++ [TokenKind.lexeme .semicolon] := rfl

theorem lexemes_ifThen (c t : Node) :
    lexemes ⟨.ifStmt, {}, [c, t], p⟩ =
      TokenKind.lexeme .ifWord :: TokenKind.lexeme .leftParen ::
        (c.lexemes ++ TokenKind.lexeme .rightParen :: t.lexemes) := by
  rw [lexemes_eq]
  simp [layout]

theorem lexemes_ifElse (c t e : Node) :
    lexemes ⟨.ifStmt, {}, [c, t, e], p⟩ =
      TokenKind.lexeme .ifWord :: TokenKind.lexeme .leftParen ::
        (c.lexemes ++ TokenKind.lexeme .rightParen :: (t.lexemes ++
          TokenKind.lexeme .elseWord :: e.lexemes)) := by
  rw [lexemes_eq]
  simp [layout]

theorem lexemes_whileStmt (c b : Node) :
    lexemes ⟨.whileStmt, {}, [c, b], p⟩ =
      TokenKind.lexeme .whileWord :: TokenKind.lexeme .leftParen ::
        (c.lexemes ++ TokenKind.lexeme .rightParen :: b.lexemes) := by
  rw [lexemes_eq]
  simp [layout]

theorem lexemes_assign (target value : Node) :
    lexemes ⟨.assign, {}, [target, value], p⟩ =
      target.lexemes ++ TokenKind.lexeme .equals :: (value.lexemes ++ [TokenKind.lexeme .semicolon]) := by
  rw [lexemes_eq]
  simp [layout]

theorem lexemes_arrayAssign (array index value : Node) :
    lexemes ⟨.arrayAssign, {}, [array, index, value], p⟩ =
      array.lexemes ++ TokenKind.lexeme .leftBracket :: (index.lexemes ++
        TokenKind.lexeme .rightBracket :: TokenKind.lexeme .equals ::
          (value.lexemes ++ [TokenKind.lexeme .semicolon])) := by
  rw [lexemes_eq]
  simp [layout]

theorem lexemes_returnNothing :
    lexemes ⟨.returnStmt, {}, [], p⟩ = [TokenKind.lexeme .returnWord, TokenKind.lexeme .semicolon] := rfl

theorem lexemes_returnValue (value : Node) :
    lexemes ⟨.returnStmt, {}, [value], p⟩ =
      TokenKind.lexeme .returnWord :: (value.lexemes ++ [TokenKind.lexeme .semicolon]) := rfl

/-! How declarations are printed. -/

theorem lexemes_typeRef (name : String) (isArray isVarargs : Bool) :
    lexemes ⟨.typeRef, ⟨[("name", .text name), ("is_array", .bool isArray),
      ("is_varargs", .bool isVarargs)]⟩, [], p⟩ =
      Lexeme.word name ::
        if isVarargs then [TokenKind.lexeme .ellipsis]
        else if isArray then [TokenKind.lexeme .leftBracket, TokenKind.lexeme .rightBracket] else [] := rfl

theorem lexemes_varDecl (name : String) (type : Node) :
    lexemes ⟨.varDecl, ⟨[("name", .text name)]⟩, [type], p⟩ =
      type.lexemes ++ [Lexeme.word name, TokenKind.lexeme .semicolon] := rfl

theorem lexemes_param (name : String) (type : Node) :
    lexemes ⟨.param, ⟨[("name", .text name)]⟩, [type], p⟩ = type.lexemes ++ [Lexeme.word name] := rfl

/-- The parameters of a method stand before what is in its body. -/
theorem lexemes_methodDecl (name : String) (isPublic isStatic : Bool) (type : Node) {params body : List Node}
    (hparams : ∀ q ∈ params, q.kind = .param) (hbody : ∀ n ∈ body, n.kind ≠ .param) :
    lexemes ⟨.methodDecl, ⟨[("name", .text name), ("is_public", .bool isPublic),
      ("is_static", .bool isStatic)]⟩, type :: params ++ body, p⟩ =
      (if isPublic then [TokenKind.lexeme .publicWord] else []) ++
        ((if isStatic then [TokenKind.lexeme .staticWord] else []) ++ (type.lexemes ++
          Lexeme.word name :: TokenKind.lexeme .leftParen :: (listed (params.map lexemes) ++
            TokenKind.lexeme .rightParen :: TokenKind.lexeme .leftBrace :: (body.flatMap lexemes ++
              [TokenKind.lexeme .rightBrace])))) := by
  have hfirst : (params ++ body).filter (·.kind = .param) = params := by
    rw [List.filter_append, List.filter_eq_self.2 (by simpa using hparams),
      List.filter_eq_nil_iff.2 (by simpa using hbody), List.append_nil]
  have hsecond : (params ++ body).filter (·.kind ≠ .param) = body := by
    rw [List.filter_append, List.filter_eq_nil_iff.2 (by simpa using hparams),
      List.filter_eq_self.2 (by simpa using hbody), List.nil_append]
  rw [lexemes_eq]
  simp only [List.cons_append, List.map_cons, layout, List.filter_map, Function.comp_def, hfirst, hsecond,
    List.map_map, List.flatMap_map]
  simp [spelled, flag, attribute?, Assoc.find?, Assoc.findEntry, Json.isSet]

theorem lexemes_classDecl (name : String) (members : List Node) :
    lexemes ⟨.classDecl, ⟨[("name", .text name)]⟩, members, p⟩ =
      TokenKind.lexeme .classWord :: Lexeme.word name :: TokenKind.lexeme .leftBrace ::
        (members.flatMap lexemes ++ [TokenKind.lexeme .rightBrace]) := by
  rw [lexemes_eq]
  simp [layout, List.flatMap_map, spelled, attribute?, Assoc.find?, Assoc.findEntry]

theorem lexemes_classDecl_extends (name parent : String) (members : List Node) :
    lexemes ⟨.classDecl, ⟨[("name", .text name), ("superclass", .text parent)]⟩, members, p⟩ =
      TokenKind.lexeme .classWord :: Lexeme.word name :: TokenKind.lexeme .extendsWord ::
        Lexeme.word parent :: TokenKind.lexeme .leftBrace ::
          (members.flatMap lexemes ++ [TokenKind.lexeme .rightBrace]) := by
  rw [lexemes_eq]
  simp [layout, List.flatMap_map, spelled, attribute?, Assoc.find?, Assoc.findEntry]

theorem lexemes_importDecl (name : String) :
    lexemes ⟨.importDecl, ⟨[("name", .text name)]⟩, [], p⟩ =
      TokenKind.lexeme .importWord :: (dotted name ++ [TokenKind.lexeme .semicolon]) := rfl

theorem lexemes_program (children : List Node) :
    lexemes ⟨.program, {}, children, p⟩ = children.flatMap lexemes := by
  rw [lexemes_eq]
  simp [layout, List.flatMap_map]

end

mutual
/-- A tree without its places. -/
def bare : Node → Node
  | ⟨kind, attributes, children, _⟩ => ⟨kind, attributes, allBare children, {}⟩

def allBare : List Node → List Node
  | [] => []
  | c :: cs => c.bare :: allBare cs
end

theorem allBare_eq_map (cs : List Node) : allBare cs = cs.map bare := by
  induction cs with
  | nil => rfl
  | cons c cs ih => rw [allBare, ih, List.map_cons]

theorem bare_eq (n : Node) : n.bare = ⟨n.kind, n.attributes, n.children.map bare, {}⟩ := by
  cases n
  rw [bare, allBare_eq_map]

theorem bare_mk (kind : Kind) (attributes : Assoc Attribute) (children : List Node) (p : Position) :
    bare ⟨kind, attributes, children, p⟩ = ⟨kind, attributes, children.map bare, {}⟩ :=
  bare_eq _

/-- A tree that agrees with a node up to places. -/
theorem eq_of_bare_eq {n : Node} {kind : Kind} {attributes : Assoc Attribute} {children : List Node}
    {p : Position} (h : n.bare = bare ⟨kind, attributes, children, p⟩) :
    ∃ children' q, n = ⟨kind, attributes, children', q⟩ ∧ children'.map bare = children.map bare := by
  obtain ⟨kind', attributes', children', q⟩ := n
  simp only [bare_mk, mk.injEq, and_true] at h
  obtain ⟨rfl, rfl, hchildren⟩ := h
  exact ⟨children', q, rfl, hchildren⟩

end Node

/-- Characters in which tokens stand one after the other. Blanks may stand anywhere around them, and at
least one stands between two tokens. -/
inductive Spaced : List Lexeme → List Char → Prop
  | nil : Spaced [] []
  | blank {ls : List Lexeme} {c : Char} {cs : List Char} (hc : Lexer.isBlank c) (h : Spaced ls cs) :
      Spaced ls (c :: cs)
  | token {l : Lexeme} {ls : List Lexeme} {cs : List Char}
      (hnext : cs = [] ∨ ∃ c ∈ cs.head?, Lexer.isBlank c) (h : Spaced ls cs) :
      Spaced (l :: ls) (l.2.toList ++ cs)

/-- Characters in which a blank stands after each token. -/
def spread (ls : List Lexeme) : List Char := ls.flatMap fun l => l.2.toList ++ [' ']

theorem spaced_spread (ls : List Lexeme) : Spaced ls (spread ls) := by
  induction ls with
  | nil => exact .nil
  | cons l ls ih =>
    rw [spread, List.flatMap_cons, List.append_assoc]
    exact .token (.inr ⟨' ', rfl, rfl⟩) (.blank rfl ih)

end JmmCompiler

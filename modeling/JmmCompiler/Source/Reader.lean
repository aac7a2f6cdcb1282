import JmmCompiler.Source.DanglingElse
import JmmCompiler.Source.Lexer
import JmmCompiler.Source.SyntaxError
import JmmCompiler.Text.Integer
/-! Reading a program from its tokens. Every step takes tokens from the front and returns those that
are left, with a bound on their number, so that a reader may call itself on them. The first token that
no program goes on with is reported.

Binary operators have six levels of precedence and group to the left; `!` binds tighter, and indexing,
length and calls bind tightest. -/
namespace JmmCompiler

/-- A value read from the front of `ts` by taking at least `least` tokens. -/
structure Read (least : Nat) (α : Type) (ts : List Token) where
  value : α
  rest : List Token
  bound : rest.length + least ≤ ts.length := by simp_all; try omega

abbrev Reading (least : Nat) (α : Type) (ts : List Token) := Except SyntaxError (Read least α ts)

namespace Reader

/-- The error of the token at the front. -/
def reject : List Token → SyntaxError
  | [] => .unexpectedEnd
  | t :: _ => .found t

/-- A token of one class. -/
def take (kind : TokenKind) : (ts : List Token) → Reading 1 Token ts
  | [] => .error .unexpectedEnd
  | t :: ts => if t.kind = kind then .ok ⟨t, ts, by simp⟩ else .error (.found t)

/-- The class of the token at the front. -/
def front? (ts : List Token) : Option TokenKind := ts.head?.map (·.kind)

/-- The base name of a type. -/
def baseType : (ts : List Token) → Reading 1 Token ts
  | [] => .error .unexpectedEnd
  | t :: ts =>
    if t.kind ∈ [.intWord, .booleanWord, .voidWord, .identifier] then .ok ⟨t, ts, by simp⟩
    else .error (.found t)

/-! ## Expressions -/

/-- The operators of a level, from the tightest, 0, to the loosest, 5. -/
def operatorAt : Nat → TokenKind
  | 0 => .mulOp
  | 1 => .addOp
  | 2 => .orderOp
  | 3 => .equalityOp
  | 4 => .andOp
  | _ => .orOp

def binaryNode (op : Token) (left right : Node) : Node :=
  ⟨.binary, ⟨[("op", .text op.text)]⟩, [left, right], left.position⟩

def literal (kind : Kind) (value : Attribute) (position : Position) : Node :=
  ⟨kind, ⟨[("value", value)]⟩, [], position⟩

/-- The name after a dot: an identifier or `length`. -/
def member (ts : List Token) : Reading 1 Token ts :=
  match ts with
  | [] => throw .unexpectedEnd
  | t :: rest =>
    if t.kind = .identifier ∨ t.kind = .lengthWord then return ⟨t, rest, by simp⟩
    else throw (.found t)

mutual
def expression (ts : List Token) : Reading 1 Node ts := binary 6 ts
termination_by 16 * ts.length + 10

/-- An expression without operators of `level` or looser. -/
def binary (level : Nat) (ts : List Token) : Reading 1 Node ts :=
  match level with
  | 0 => unary ts
  | n + 1 => do
    let ⟨left, rest, _⟩ ← binary n ts
    let ⟨e, rest', _⟩ ← operands n left rest
    return ⟨e, rest', by omega⟩
termination_by 16 * ts.length + 3 + level

/-- The operators of a level after their first operand. -/
def operands (level : Nat) (left : Node) (ts : List Token) : Reading 0 Node ts :=
  match ts with
  | [] => return ⟨left, [], Nat.le_refl _⟩
  | op :: rest =>
    if op.kind = operatorAt level then do
      let ⟨right, rest', _⟩ ← binary level rest
      let ⟨e, rest'', _⟩ ← operands level (binaryNode op left right) rest'
      return ⟨e, rest'', by simp; omega⟩
    else return ⟨left, op :: rest, Nat.le_refl _⟩
termination_by 16 * ts.length + 3 + level

def unary (ts : List Token) : Reading 1 Node ts :=
  match ts with
  | [] => throw .unexpectedEnd
  | op :: rest =>
    if op.kind = .not then do
      let ⟨operand, rest', _⟩ ← unary rest
      return ⟨⟨.unary, ⟨[("op", .text op.text)]⟩, [operand], op.position⟩, rest', by simp; omega⟩
    else do
      let ⟨receiver, rest', _⟩ ← primary (op :: rest)
      let ⟨e, rest'', _⟩ ← suffixes receiver rest'
      return ⟨e, rest'', by omega⟩
termination_by 16 * ts.length + 2
decreasing_by all_goals (simp_all <;> omega)

/-- Indexing, `.length` and calls after what they apply to. -/
def suffixes (receiver : Node) (ts : List Token) : Reading 0 Node ts :=
  match ts with
  | [] => return ⟨receiver, [], Nat.le_refl _⟩
  | t :: rest =>
    match t.kind with
    | .leftBracket => do
      let ⟨index, rest₁, _⟩ ← expression rest
      let ⟨_, rest₂, _⟩ ← take .rightBracket rest₁
      let access := Node.plain .arrayAccess [receiver, index] receiver.position
      let ⟨e, rest₃, _⟩ ← suffixes access rest₂
      return ⟨e, rest₃, by simp; omega⟩
    | .dot => do
      let ⟨name, rest₁, _⟩ ← member rest
      if name.kind = .lengthWord ∧ front? rest₁ ≠ some .leftParen then
        let ⟨e, rest₂, _⟩ ←
          suffixes (Node.plain .length [receiver] receiver.position) rest₁
        return ⟨e, rest₂, by simp; omega⟩
      else
        let ⟨_, rest₂, _⟩ ← take .leftParen rest₁
        let ⟨arguments, rest₃, _⟩ ← listUntil .rightParen rest₂
        let call := Node.named .call name.text (receiver :: arguments) receiver.position
        let ⟨e, rest₄, _⟩ ← suffixes call rest₃
        return ⟨e, rest₄, by simp; omega⟩
    | _ => return ⟨receiver, t :: rest, Nat.le_refl _⟩
termination_by 16 * ts.length

/-- Expressions between commas up to a closing token, which is taken as well. -/
def listUntil (close : TokenKind) (ts : List Token) : Reading 1 (List Node) ts :=
  if front? ts = some close then do
    let ⟨_, rest, _⟩ ← take close ts
    return ⟨[], rest, by omega⟩
  else do
    let ⟨first, rest, _⟩ ← expression ts
    let ⟨others, rest', _⟩ ← moreUntil close rest
    return ⟨first :: others, rest', by omega⟩
termination_by 16 * ts.length + 11

def moreUntil (close : TokenKind) (ts : List Token) : Reading 1 (List Node) ts :=
  match ts with
  | [] => throw .unexpectedEnd
  | t :: rest =>
    if t.kind = close then return ⟨[], rest, by simp⟩
    else if t.kind = .comma then do
      let ⟨next, rest', _⟩ ← expression rest
      let ⟨others, rest'', _⟩ ← moreUntil close rest'
      return ⟨next :: others, rest'', by simp; omega⟩
    else throw (.found t)
termination_by 16 * ts.length

def primary (ts : List Token) : Reading 1 Node ts :=
  match ts with
  | [] => throw .unexpectedEnd
  | t :: rest =>
    match t.kind with
    | .integer =>
      return ⟨literal .intLiteral (.int (Text.decimal t.text.toList)) t.position, rest, by simp⟩
    | .trueWord => return ⟨literal .boolLiteral (.bool true) t.position, rest, by simp⟩
    | .falseWord => return ⟨literal .boolLiteral (.bool false) t.position, rest, by simp⟩
    | .thisWord => return ⟨Node.plain .thisRef [] t.position, rest, by simp⟩
    | .identifier => return ⟨Node.reference t, rest, by simp⟩
    | .leftParen => do
      let ⟨e, rest₁, _⟩ ← expression rest
      let ⟨_, rest₂, _⟩ ← take .rightParen rest₁
      return ⟨Node.plain .paren [e] t.position, rest₂, by simp; omega⟩
    | .leftBracket => do
      let ⟨elements, rest₁, _⟩ ← listUntil .rightBracket rest
      return ⟨Node.plain .arrayLiteral elements t.position, rest₁, by simp; omega⟩
    | .newWord => do
      let ⟨name, rest₁, _⟩ ← baseType rest
      if name.kind = .identifier ∧ front? rest₁ ≠ some .leftBracket then
        let ⟨_, rest₂, _⟩ ← take .leftParen rest₁
        let ⟨_, rest₃, _⟩ ← take .rightParen rest₂
        return ⟨Node.named .newObject name.text [] t.position, rest₃, by simp; omega⟩
      else
        let ⟨_, rest₂, _⟩ ← take .leftBracket rest₁
        let ⟨size, rest₃, _⟩ ← expression rest₂
        let ⟨_, rest₄, _⟩ ← take .rightBracket rest₃
        return ⟨Node.named .newArray name.text [size] t.position, rest₄, by simp; omega⟩
    | _ => throw (.found t)
termination_by 16 * ts.length
end

/-! ## Statements -/

def typeRef (name : Token) (isArray isVarargs : Bool) : Node :=
  ⟨.typeRef, ⟨[("name", .text name.text), ("is_array", .bool isArray),
    ("is_varargs", .bool isVarargs)]⟩, [], name.position⟩

/-- A type: a base name, which `[]` makes an array and `...` the type of variable arguments. -/
def type (ts : List Token) : Reading 1 Node ts := do
  let ⟨name, rest, _⟩ ← baseType ts
  match front? rest with
  | some .leftBracket =>
    let ⟨_, rest₁, _⟩ ← take .leftBracket rest
    let ⟨_, rest₂, _⟩ ← take .rightBracket rest₁
    return ⟨typeRef name true false, rest₂, by omega⟩
  | some .ellipsis =>
    let ⟨_, rest₁, _⟩ ← take .ellipsis rest
    return ⟨typeRef name true true, rest₁, by omega⟩
  | _ => return ⟨typeRef name false false, rest, by omega⟩

/-- Whether a declaration stands at the front of a body. A type name that is an identifier is one
when a name, `...` or `[]` follows it. -/
def startsDeclaration (ts : List Token) : Bool :=
  match (ts.take 3).map Token.kind with
  | .intWord :: _ | .booleanWord :: _ | .voidWord :: _ => true
  | .identifier :: .identifier :: _ | .identifier :: .ellipsis :: _ => true
  | .identifier :: .leftBracket :: .rightBracket :: _ => true
  | _ => false

def declaration (ts : List Token) : Reading 1 Item ts := do
  let ⟨type, rest, _⟩ ← type ts
  let ⟨name, rest₁, _⟩ ← take .identifier rest
  if front? rest₁ = some .equals then
    let ⟨_, rest₂, _⟩ ← take .equals rest₁
    let ⟨value, rest₃, _⟩ ← expression rest₂
    let ⟨_, rest₄, _⟩ ← take .semicolon rest₃
    return ⟨.declaration type name (some value), rest₄, by omega⟩
  else
    let ⟨_, rest₂, _⟩ ← take .semicolon rest₁
    return ⟨.declaration type name none, rest₂, by omega⟩

/-- A statement that starts with an expression. Before `=` it has to be a variable or an element of
an array variable. -/
def assignment (ts : List Token) : Reading 1 Node ts := do
  let ⟨target, rest, _⟩ ← expression ts
  if front? rest = some .equals then
    let assign ← match target with
      | ⟨.varRef, _, _, p⟩ => pure fun value => Node.plain .assign [target, value] p
      | ⟨.arrayAccess, _, [array, index], p⟩ =>
        if array.kind = .varRef then
          pure fun value => Node.plain .arrayAssign [array, index, value] p
        else throw (reject rest)
      | _ => throw (reject rest)
    let ⟨_, rest₁, _⟩ ← take .equals rest
    let ⟨value, rest₂, _⟩ ← expression rest₁
    let ⟨_, rest₃, _⟩ ← take .semicolon rest₂
    return ⟨assign value, rest₃, by omega⟩
  else
    let ⟨_, rest₁, _⟩ ← take .semicolon rest
    return ⟨Node.plain .exprStmt [target] target.position, rest₁, by omega⟩

def returnStatement (ts : List Token) : Reading 1 Node ts := do
  let ⟨word, rest, _⟩ ← take .returnWord ts
  if front? rest = some .semicolon then
    let ⟨_, rest₁, _⟩ ← take .semicolon rest
    return ⟨Node.plain .returnStmt [] word.position, rest₁, by omega⟩
  else
    let ⟨value, rest₁, _⟩ ← expression rest
    let ⟨_, rest₂, _⟩ ← take .semicolon rest₁
    return ⟨Node.plain .returnStmt [value] word.position, rest₂, by omega⟩

/-- `if (…)` or `while (…)`. -/
def header (ts : List Token) : Reading 1 Header ts :=
  match ts with
  | [] => throw .unexpectedEnd
  | word :: rest => do
    let ⟨_, rest₁, _⟩ ← take .leftParen rest
    let ⟨condition, rest₂, _⟩ ← expression rest₁
    let ⟨_, rest₃, _⟩ ← take .rightParen rest₂
    let header :=
      if word.kind = .ifWord then Header.ifHeader word.position condition
      else Header.whileHeader word.position condition
    return ⟨header, rest₃, by simp; omega⟩

mutual
/-- The items of a body up to its closing brace, which is taken as well. -/
def items (ts : List Token) : Reading 1 (List Item) ts :=
  if front? ts = some .rightBrace then do
    let ⟨_, rest, _⟩ ← take .rightBrace ts
    return ⟨[], rest, by omega⟩
  else do
    let ⟨first, rest, _⟩ ← item ts
    let ⟨others, rest₁, _⟩ ← items rest
    return ⟨first :: others, rest₁, by omega⟩
termination_by 8 * ts.length + 4

def item (ts : List Token) : Reading 1 Item ts :=
  if startsDeclaration ts then declaration ts
  else do
    let ⟨s, rest, _⟩ ← statement ts
    return ⟨.statement s, rest, by omega⟩
termination_by 8 * ts.length + 3

def statement (ts : List Token) : Reading 1 Statement ts := do
  let ⟨(first, others), rest, _⟩ ← chain 0 ts
  return ⟨Segment.resolve first others, rest, by omega⟩
termination_by 8 * ts.length + 2

/-- Segments with `else` between them. The chain goes on at an `else` as long as some `if` before it
has none; `waiting` counts the `if`s without `else` so far. -/
def chain (waiting : Nat) (ts : List Token) : Reading 1 (Segment × List Segment) ts := do
  let ⟨first, rest, _⟩ ← segment ts
  if front? rest = some .elseWord ∧ 0 < waiting + first.ifs then
    let ⟨_, rest₁, _⟩ ← take .elseWord rest
    let ⟨(second, others), rest₂, _⟩ ← chain (waiting + first.ifs - 1) rest₁
    return ⟨(first, second :: others), rest₂, by omega⟩
  else return ⟨(first, []), rest, by omega⟩
termination_by 8 * ts.length + 1

def segment (ts : List Token) : Reading 1 Segment ts :=
  match front? ts with
  | some .ifWord | some .whileWord => do
    let ⟨h, rest, _⟩ ← header ts
    let ⟨s, rest₁, _⟩ ← segment rest
    return ⟨⟨h :: s.headers, s.body⟩, rest₁, by omega⟩
  | some .leftBrace => do
    let ⟨brace, rest, _⟩ ← take .leftBrace ts
    let ⟨body, rest₁, _⟩ ← items rest
    return ⟨⟨[], .block brace.position body⟩, rest₁, by omega⟩
  | some .returnWord => do
    let ⟨s, rest, _⟩ ← returnStatement ts
    return ⟨⟨[], .simple s⟩, rest, by omega⟩
  | _ => do
    let ⟨s, rest, _⟩ ← assignment ts
    return ⟨⟨[], .simple s⟩, rest, by omega⟩
termination_by 8 * ts.length
end

/-! ## Classes and programs -/

def modifiers (ts : List Token) : Read 0 (List Token) ts :=
  match ts with
  | [] => ⟨[], [], Nat.le_refl _⟩
  | t :: rest =>
    if t.kind ∈ [.publicWord, .privateWord, .protectedWord, .staticWord] then
      let ⟨others, rest₁, _⟩ := modifiers rest
      ⟨t :: others, rest₁, by simp; omega⟩
    else ⟨[], t :: rest, Nat.le_refl _⟩

def param (ts : List Token) : Reading 1 Node ts := do
  let ⟨type, rest, _⟩ ← type ts
  let ⟨name, rest₁, _⟩ ← take .identifier rest
  return ⟨Node.named .param name.text [type] type.position, rest₁, by omega⟩

/-- Parameters after the first, and the closing parenthesis. -/
def moreParams (ts : List Token) : Reading 1 (List Node) ts :=
  match ts with
  | [] => throw .unexpectedEnd
  | t :: rest =>
    if t.kind = .rightParen then return ⟨[], rest, by simp⟩
    else if t.kind = .comma then do
      let ⟨next, rest₁, _⟩ ← param rest
      let ⟨others, rest₂, _⟩ ← moreParams rest₁
      return ⟨next :: others, rest₂, by simp; omega⟩
    else throw (.found t)
termination_by ts.length

/-- The parameters of a method and the closing parenthesis. -/
def params (ts : List Token) : Reading 1 (List Node) ts :=
  if front? ts = some .rightParen then do
    let ⟨_, rest, _⟩ ← take .rightParen ts
    return ⟨[], rest, by omega⟩
  else do
    let ⟨first, rest, _⟩ ← param ts
    let ⟨others, rest₁, _⟩ ← moreParams rest
    return ⟨first :: others, rest₁, by omega⟩

/-- A method: its return type, its parameters, the local variables declared anywhere in its body, and
the statements of the body. -/
def methodNode (modifiers : List Token) (type : Node) (name : Token) (params : List Node)
    (body : List Item) (position : Position) : Node :=
  let has (kind : TokenKind) : Attribute := .bool (modifiers.any (·.kind = kind))
  ⟨.methodDecl,
    ⟨[("name", .text name.text), ("is_public", has .publicWord), ("is_static", has .staticWord)]⟩,
    type :: params ++ Item.allLocals body ++ Item.allNodes body, position⟩

/-- A field or a method. It starts where its modifiers do, or else its type. -/
def classMember (ts : List Token) : Reading 1 Node ts := do
  let ⟨modifiers, rest, _⟩ := modifiers ts
  let ⟨type, rest₁, _⟩ ← type rest
  let ⟨name, rest₂, _⟩ ← take .identifier rest₁
  let position := (modifiers.head?.map (·.position)).getD type.position
  if front? rest₂ = some .leftParen then
    let ⟨_, rest₃, _⟩ ← take .leftParen rest₂
    let ⟨params, rest₄, _⟩ ← params rest₃
    let ⟨_, rest₅, _⟩ ← take .leftBrace rest₄
    let ⟨body, rest₆, _⟩ ← items rest₅
    return ⟨methodNode modifiers type name params body position, rest₆, by omega⟩
  else
    let ⟨_, rest₃, _⟩ ← take .semicolon rest₂
    return ⟨Node.named .varDecl name.text [type] position, rest₃, by omega⟩

/-- The members of a class up to its closing brace, which is taken as well. -/
def classMembers (ts : List Token) : Reading 1 (List Node) ts :=
  if front? ts = some .rightBrace then do
    let ⟨_, rest, _⟩ ← take .rightBrace ts
    return ⟨[], rest, by omega⟩
  else do
    let ⟨first, rest, _⟩ ← classMember ts
    let ⟨others, rest₁, _⟩ ← classMembers rest
    return ⟨first :: others, rest₁, by omega⟩
termination_by ts.length

def classDecl (ts : List Token) : Reading 1 Node ts := do
  let ⟨word, rest, _⟩ ← take .classWord ts
  let ⟨name, rest₁, _⟩ ← take .identifier rest
  let own : String × Attribute := ("name", .text name.text)
  if front? rest₁ = some .extendsWord then
    let ⟨_, rest₂, _⟩ ← take .extendsWord rest₁
    let ⟨parent, rest₃, _⟩ ← take .identifier rest₂
    let ⟨_, rest₄, _⟩ ← take .leftBrace rest₃
    let ⟨members, rest₅, _⟩ ← classMembers rest₄
    return ⟨⟨.classDecl, ⟨[own, ("superclass", .text parent.text)]⟩, members, word.position⟩, rest₅,
      by omega⟩
  else
    let ⟨_, rest₂, _⟩ ← take .leftBrace rest₁
    let ⟨members, rest₃, _⟩ ← classMembers rest₂
    return ⟨⟨.classDecl, ⟨[own]⟩, members, word.position⟩, rest₃, by omega⟩

/-- The names after the first of a dotted name, and the semicolon that ends it. -/
def moreNames (ts : List Token) : Reading 1 (List String) ts :=
  match ts with
  | [] => throw .unexpectedEnd
  | t :: rest =>
    if t.kind = .semicolon then return ⟨[], rest, by simp⟩
    else if t.kind = .dot then do
      let ⟨name, rest₁, _⟩ ← take .identifier rest
      let ⟨others, rest₂, _⟩ ← moreNames rest₁
      return ⟨name.text :: others, rest₂, by simp; omega⟩
    else throw (.found t)
termination_by ts.length

def importDecl (ts : List Token) : Reading 1 Node ts := do
  let ⟨word, rest, _⟩ ← take .importWord ts
  let ⟨first, rest₁, _⟩ ← take .identifier rest
  let ⟨others, rest₂, _⟩ ← moreNames rest₁
  let name := String.intercalate "." (first.text :: others)
  return ⟨Node.named .importDecl name [] word.position, rest₂, by omega⟩

/-- The imports and the class. -/
def declarations (ts : List Token) : Reading 1 (List Node) ts :=
  if front? ts = some .importWord then do
    let ⟨first, rest, _⟩ ← importDecl ts
    let ⟨others, rest₁, _⟩ ← declarations rest
    return ⟨first :: others, rest₁, by omega⟩
  else do
    let ⟨c, rest, _⟩ ← classDecl ts
    return ⟨[c], rest, by omega⟩
termination_by ts.length

def program (ts : List Token) : Except SyntaxError Node := do
  let ⟨children, rest, _⟩ ← declarations ts
  match rest with
  | [] => return Node.plain .program children ((ts.head?.map (·.position)).getD {})
  | t :: _ => throw (.found t)

end Reader

/-- The tree of a source text. -/
def Node.parse (source : String) : Except SyntaxError Node := Reader.program (Lexer.tokens source)

end JmmCompiler

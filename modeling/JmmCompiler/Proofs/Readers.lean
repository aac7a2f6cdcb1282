import JmmCompiler.Proofs.Printing
/-! What each reader makes of the tokens in front of it, as equations that leave out the bounds on the
number of tokens. -/
namespace JmmCompiler.Reader
variable {least : Nat} {α β : Type} {ts : List Token}

/-- What was read and what is left. -/
def outcome (r : Reading least α ts) : Except SyntaxError (α × List Token) :=
  r.map fun r => (r.value, r.rest)

theorem outcome_bind {least' : Nat} {ts' : List Token} {x : Reading least α ts}
    {f : Read least α ts → Reading least' β ts'} {g : α × List Token → Except SyntaxError (β × List Token)}
    (h : ∀ r, outcome (f r) = g (r.value, r.rest)) : outcome (x >>= f) = outcome x >>= g := by
  cases x with
  | error e => rfl
  | ok r => exact h r

/-- A reader whose last step passes on what another one read. -/
theorem outcome_bind_return {least' : Nat} {ts' : List Token} {x : Reading least α ts}
    {f : Read least α ts → Reading least' α ts'} (h : ∀ r, outcome (f r) = .ok (r.value, r.rest)) :
    outcome (x >>= f) = outcome x :=
  (outcome_bind h).trans (bind_pure _)

theorem outcome_take_cons (kind : TokenKind) (t : Token) (ts : List Token) :
    outcome (take kind (t :: ts)) = if t.kind = kind then .ok (t, ts) else .error (.found t) := by
  rw [take]
  split <;> rfl

theorem outcome_baseType_cons (t : Token) (ts : List Token) :
    outcome (baseType (t :: ts)) =
      if t.kind ∈ [.intWord, .booleanWord, .voidWord, .identifier] then .ok (t, ts)
      else .error (.found t) := by
  rw [baseType]
  split <;> rfl

theorem outcome_member_cons (t : Token) (ts : List Token) :
    outcome (member (t :: ts)) =
      if t.kind = .identifier ∨ t.kind = .lengthWord then .ok (t, ts) else .error (.found t) := by
  rw [member]
  split <;> rfl

/-! ## Expressions -/

theorem outcome_expression (ts : List Token) : outcome (expression ts) = outcome (binary 6 ts) := by
  rw [expression]

theorem outcome_binary_zero (ts : List Token) : outcome (binary 0 ts) = outcome (unary ts) := by
  rw [binary]

theorem outcome_binary_succ (n : Nat) (ts : List Token) : outcome (binary (n + 1) ts) = (do
    let (left, rest) ← outcome (binary n ts)
    outcome (operands n left rest)) := by
  rw [binary]
  exact outcome_bind fun _ => outcome_bind_return fun _ => rfl

theorem outcome_operands_nil (level : Nat) (left : Node) :
    outcome (operands level left []) = .ok (left, []) := by
  rw [operands]
  rfl

theorem outcome_operands_cons (level : Nat) (left : Node) (op : Token) (ts : List Token) :
    outcome (operands level left (op :: ts)) =
      if op.kind = operatorAt level then do
        let (right, rest) ← outcome (binary level ts)
        outcome (operands level (binaryNode op left right) rest)
      else .ok (left, op :: ts) := by
  rw [operands]
  split
  · exact outcome_bind fun _ => outcome_bind_return fun _ => rfl
  · rfl

theorem outcome_unary_nil : outcome (unary []) = .error .unexpectedEnd := by
  rw [unary]
  rfl

theorem outcome_unary_cons (op : Token) (ts : List Token) :
    outcome (unary (op :: ts)) =
      (if op.kind = .not then do
        let (operand, rest) ← outcome (unary ts)
        return (⟨.unary, ⟨[("op", .text op.text)]⟩, [operand], op.position⟩, rest)
      else do
        let (receiver, rest) ← outcome (primary (op :: ts))
        outcome (suffixes receiver rest)) := by
  rw [unary]
  split
  · exact outcome_bind fun _ => rfl
  · exact outcome_bind fun _ => outcome_bind_return fun _ => rfl

theorem outcome_suffixes_nil (receiver : Node) : outcome (suffixes receiver []) = .ok (receiver, []) := by
  rw [suffixes]
  rfl

section
variable {t : Token} (receiver : Node) (ts : List Token)

theorem outcome_suffixes_bracket (ht : t.kind = .leftBracket) :
    outcome (suffixes receiver (t :: ts)) = (do
      let (index, ts) ← outcome (expression ts)
      let (_, ts) ← outcome (take .rightBracket ts)
      outcome (suffixes (Node.plain .arrayAccess [receiver, index] receiver.position) ts)) := by
  rw [suffixes]
  simp only [ht]
  exact outcome_bind fun _ => outcome_bind fun _ => outcome_bind_return fun _ => rfl

theorem outcome_suffixes_dot (ht : t.kind = .dot) :
    outcome (suffixes receiver (t :: ts)) = (do
      let (name, ts) ← outcome (member ts)
      if name.kind = .lengthWord ∧ front? ts ≠ some .leftParen then
        outcome (suffixes (Node.plain .length [receiver] receiver.position) ts)
      else do
        let (_, ts) ← outcome (take .leftParen ts)
        let (arguments, ts) ← outcome (listUntil .rightParen ts)
        outcome (suffixes (Node.named .call name.text (receiver :: arguments) receiver.position) ts)) := by
  rw [suffixes]
  simp only [ht]
  refine outcome_bind ?_
  rintro ⟨name, rest, _⟩
  dsimp only
  split
  · exact outcome_bind_return fun _ => rfl
  · exact outcome_bind fun _ => outcome_bind fun _ => outcome_bind_return fun _ => rfl

theorem outcome_suffixes_other (hbracket : t.kind ≠ .leftBracket) (hdot : t.kind ≠ .dot) :
    outcome (suffixes receiver (t :: ts)) = .ok (receiver, t :: ts) := by
  rw [suffixes]
  split
  · contradiction
  · contradiction
  · rfl

end

theorem outcome_listUntil (close : TokenKind) (ts : List Token) :
    outcome (listUntil close ts) =
      if front? ts = some close then do
        let (_, ts) ← outcome (take close ts)
        return ([], ts)
      else do
        let (first, ts) ← outcome (expression ts)
        let (others, ts) ← outcome (moreUntil close ts)
        return (first :: others, ts) := by
  rw [listUntil]
  split
  · exact outcome_bind fun _ => rfl
  · exact outcome_bind fun _ => outcome_bind fun _ => rfl

theorem outcome_moreUntil_nil (close : TokenKind) :
    outcome (moreUntil close []) = .error .unexpectedEnd := by
  rw [moreUntil]
  rfl

theorem outcome_moreUntil_cons (close : TokenKind) (t : Token) (ts : List Token) :
    outcome (moreUntil close (t :: ts)) =
      if t.kind = close then .ok ([], ts)
      else if t.kind = .comma then do
        let (next, ts) ← outcome (expression ts)
        let (others, ts) ← outcome (moreUntil close ts)
        return (next :: others, ts)
      else .error (.found t) := by
  rw [moreUntil]
  split
  · rfl
  split
  · exact outcome_bind fun _ => outcome_bind fun _ => rfl
  · rfl

theorem outcome_primary_nil : outcome (primary []) = .error .unexpectedEnd := by
  rw [primary]
  rfl

theorem outcome_primary_cons (t : Token) (ts : List Token) :
    outcome (primary (t :: ts)) =
      match t.kind with
      | .integer => .ok (literal .intLiteral (.int (Text.decimal t.text.toList)) t.position, ts)
      | .trueWord => .ok (literal .boolLiteral (.bool true) t.position, ts)
      | .falseWord => .ok (literal .boolLiteral (.bool false) t.position, ts)
      | .thisWord => .ok (Node.plain .thisRef [] t.position, ts)
      | .identifier => .ok (Node.reference t, ts)
      | .leftParen => do
        let (e, ts) ← outcome (expression ts)
        let (_, ts) ← outcome (take .rightParen ts)
        return (Node.plain .paren [e] t.position, ts)
      | .leftBracket => do
        let (elements, ts) ← outcome (listUntil .rightBracket ts)
        return (Node.plain .arrayLiteral elements t.position, ts)
      | .newWord => do
        let (name, ts) ← outcome (baseType ts)
        if name.kind = .identifier ∧ front? ts ≠ some .leftBracket then do
          let (_, ts) ← outcome (take .leftParen ts)
          let (_, ts) ← outcome (take .rightParen ts)
          return (Node.named .newObject name.text [] t.position, ts)
        else do
          let (_, ts) ← outcome (take .leftBracket ts)
          let (size, ts) ← outcome (expression ts)
          let (_, ts) ← outcome (take .rightBracket ts)
          return (Node.named .newArray name.text [size] t.position, ts)
      | _ => .error (.found t) := by
  rw [primary]
  cases hkind : t.kind
  case leftParen => exact outcome_bind fun _ => outcome_bind fun _ => rfl
  case leftBracket => exact outcome_bind fun _ => rfl
  case newWord =>
    refine outcome_bind ?_
    rintro ⟨name, rest, _⟩
    dsimp only
    split
    · exact outcome_bind fun _ => outcome_bind fun _ => rfl
    · exact outcome_bind fun _ => outcome_bind fun _ => outcome_bind fun _ => rfl
  all_goals rfl

/-! ## Statements -/

theorem outcome_type (ts : List Token) :
    outcome (type ts) = (do
      let (name, ts) ← outcome (baseType ts)
      match front? ts with
      | some .leftBracket => do
        let (_, ts) ← outcome (take .leftBracket ts)
        let (_, ts) ← outcome (take .rightBracket ts)
        return (typeRef name true false, ts)
      | some .ellipsis => do
        let (_, ts) ← outcome (take .ellipsis ts)
        return (typeRef name true true, ts)
      | _ => .ok (typeRef name false false, ts)) := by
  rw [type]
  refine outcome_bind ?_
  rintro ⟨name, rest, _⟩
  dsimp only
  cases front? rest with
  | none => rfl
  | some kind =>
    cases kind
    case leftBracket => exact outcome_bind fun _ => outcome_bind fun _ => rfl
    case ellipsis => exact outcome_bind fun _ => rfl
    all_goals rfl

theorem outcome_declaration (ts : List Token) :
    outcome (declaration ts) = (do
      let (type, ts) ← outcome (type ts)
      let (name, ts) ← outcome (take .identifier ts)
      if front? ts = some .equals then do
        let (_, ts) ← outcome (take .equals ts)
        let (value, ts) ← outcome (expression ts)
        let (_, ts) ← outcome (take .semicolon ts)
        return (.declaration type name (some value), ts)
      else do
        let (_, ts) ← outcome (take .semicolon ts)
        return (.declaration type name none, ts)) := by
  rw [declaration]
  refine outcome_bind fun _ => outcome_bind ?_
  rintro ⟨name, _, _⟩
  dsimp only
  split
  · exact outcome_bind fun _ => outcome_bind fun _ => outcome_bind fun _ => rfl
  · exact outcome_bind fun _ => rfl

/-- What an assignment to an expression is, if there can be one. -/
def assignTo? : Node → Option (Node → Node)
  | ⟨.varRef, a, cs, p⟩ => some fun value => Node.plain .assign [⟨.varRef, a, cs, p⟩, value] p
  | ⟨.arrayAccess, _, [array, index], p⟩ =>
    if array.kind = .varRef then some fun value => Node.plain .arrayAssign [array, index, value] p else none
  | _ => none

theorem outcome_assignment (ts : List Token) :
    outcome (assignment ts) = (do
      let (target, ts) ← outcome (expression ts)
      if front? ts = some .equals then
        match assignTo? target with
        | some assign => do
          let (_, ts) ← outcome (take .equals ts)
          let (value, ts) ← outcome (expression ts)
          let (_, ts) ← outcome (take .semicolon ts)
          return (assign value, ts)
        | none => .error (reject ts)
      else do
        let (_, ts) ← outcome (take .semicolon ts)
        return (Node.plain .exprStmt [target] target.position, ts)) := by
  rw [assignment]
  refine outcome_bind ?_
  rintro ⟨target, rest, _⟩
  dsimp only
  split
  · split
    · exact outcome_bind fun _ => outcome_bind fun _ => outcome_bind fun _ => rfl
    · rename_i array index p
      by_cases harray : array.kind = .varRef
      · simp only [assignTo?, harray, if_true]
        exact outcome_bind fun _ => outcome_bind fun _ => outcome_bind fun _ => rfl
      · simp only [assignTo?, harray, if_false]
        rfl
    · rename_i hvar haccess
      rw [assignTo?.eq_3 target hvar haccess]
      rfl
  · exact outcome_bind fun _ => rfl

theorem outcome_returnStatement (ts : List Token) :
    outcome (returnStatement ts) = (do
      let (word, ts) ← outcome (take .returnWord ts)
      if front? ts = some .semicolon then do
        let (_, ts) ← outcome (take .semicolon ts)
        return (Node.plain .returnStmt [] word.position, ts)
      else do
        let (value, ts) ← outcome (expression ts)
        let (_, ts) ← outcome (take .semicolon ts)
        return (Node.plain .returnStmt [value] word.position, ts)) := by
  rw [returnStatement]
  refine outcome_bind ?_
  rintro ⟨word, rest, _⟩
  dsimp only
  split
  · exact outcome_bind fun _ => rfl
  · exact outcome_bind fun _ => outcome_bind fun _ => rfl

theorem outcome_header_cons (word : Token) (ts : List Token) :
    outcome (header (word :: ts)) = (do
      let (_, ts) ← outcome (take .leftParen ts)
      let (condition, ts) ← outcome (expression ts)
      let (_, ts) ← outcome (take .rightParen ts)
      return (if word.kind = .ifWord then Header.ifHeader word.position condition
        else Header.whileHeader word.position condition, ts)) := by
  rw [header]
  exact outcome_bind fun _ => outcome_bind fun _ => outcome_bind fun _ => rfl

theorem outcome_items (ts : List Token) :
    outcome (items ts) =
      if front? ts = some .rightBrace then do
        let (_, ts) ← outcome (take .rightBrace ts)
        return ([], ts)
      else do
        let (first, ts) ← outcome (item ts)
        let (others, ts) ← outcome (items ts)
        return (first :: others, ts) := by
  rw [items]
  split
  · exact outcome_bind fun _ => rfl
  · exact outcome_bind fun _ => outcome_bind fun _ => rfl

theorem outcome_item (ts : List Token) :
    outcome (item ts) =
      if startsDeclaration ts then outcome (declaration ts)
      else do
        let (s, ts) ← outcome (statement ts)
        return (.statement s, ts) := by
  rw [item]
  split
  · rfl
  · exact outcome_bind fun _ => rfl

theorem outcome_statement (ts : List Token) :
    outcome (statement ts) = (do
      let ((first, others), ts) ← outcome (chain 0 ts)
      return (Segment.resolve first others, ts)) := by
  rw [statement]
  exact outcome_bind fun _ => rfl

theorem outcome_chain (waiting : Nat) (ts : List Token) :
    outcome (chain waiting ts) = (do
      let (first, ts) ← outcome (segment ts)
      if front? ts = some .elseWord ∧ 0 < waiting + first.ifs then do
        let (_, ts) ← outcome (take .elseWord ts)
        let ((second, others), ts) ← outcome (chain (waiting + first.ifs - 1) ts)
        return ((first, second :: others), ts)
      else .ok ((first, []), ts)) := by
  rw [chain]
  refine outcome_bind ?_
  rintro ⟨first, rest, _⟩
  dsimp only
  split
  · exact outcome_bind fun _ => outcome_bind fun _ => rfl
  · rfl

theorem outcome_segment (ts : List Token) :
    outcome (segment ts) =
      match front? ts with
      | some .ifWord | some .whileWord => do
        let (h, ts) ← outcome (header ts)
        let (s, ts) ← outcome (segment ts)
        return (⟨h :: s.headers, s.body⟩, ts)
      | some .leftBrace => do
        let (brace, ts) ← outcome (take .leftBrace ts)
        let (body, ts) ← outcome (items ts)
        return (⟨[], .block brace.position body⟩, ts)
      | some .returnWord => do
        let (s, ts) ← outcome (returnStatement ts)
        return (⟨[], .simple s⟩, ts)
      | _ => do
        let (s, ts) ← outcome (assignment ts)
        return (⟨[], .simple s⟩, ts) := by
  rw [segment]
  cases front? ts with
  | none => exact outcome_bind fun _ => rfl
  | some kind =>
    cases kind
    case ifWord => exact outcome_bind fun _ => outcome_bind fun _ => rfl
    case whileWord => exact outcome_bind fun _ => outcome_bind fun _ => rfl
    case leftBrace => exact outcome_bind fun _ => outcome_bind fun _ => rfl
    all_goals exact outcome_bind fun _ => rfl

/-! ## Classes and programs -/

theorem outcome_param (ts : List Token) :
    outcome (param ts) = (do
      let (type, ts) ← outcome (type ts)
      let (name, ts) ← outcome (take .identifier ts)
      return (Node.named .param name.text [type] type.position, ts)) := by
  rw [param]
  exact outcome_bind fun _ => outcome_bind fun _ => rfl

theorem outcome_moreParams_nil : outcome (moreParams []) = .error .unexpectedEnd := by
  rw [moreParams]
  rfl

theorem outcome_moreParams_cons (t : Token) (ts : List Token) :
    outcome (moreParams (t :: ts)) =
      if t.kind = .rightParen then .ok ([], ts)
      else if t.kind = .comma then do
        let (next, ts) ← outcome (param ts)
        let (others, ts) ← outcome (moreParams ts)
        return (next :: others, ts)
      else .error (.found t) := by
  rw [moreParams]
  split
  · rfl
  split
  · exact outcome_bind fun _ => outcome_bind fun _ => rfl
  · rfl

theorem outcome_params (ts : List Token) :
    outcome (params ts) =
      if front? ts = some .rightParen then do
        let (_, ts) ← outcome (take .rightParen ts)
        return ([], ts)
      else do
        let (first, ts) ← outcome (param ts)
        let (others, ts) ← outcome (moreParams ts)
        return (first :: others, ts) := by
  rw [params]
  split
  · exact outcome_bind fun _ => rfl
  · exact outcome_bind fun _ => outcome_bind fun _ => rfl

theorem outcome_classMember (ts : List Token) :
    outcome (classMember ts) = (do
      let words := (modifiers ts).value
      let (type, ts) ← outcome (type (modifiers ts).rest)
      let (name, ts) ← outcome (take .identifier ts)
      let position := (words.head?.map (·.position)).getD type.position
      if front? ts = some .leftParen then do
        let (_, ts) ← outcome (take .leftParen ts)
        let (params, ts) ← outcome (params ts)
        let (_, ts) ← outcome (take .leftBrace ts)
        let (body, ts) ← outcome (items ts)
        return (methodNode words type name params body position, ts)
      else do
        let (_, ts) ← outcome (take .semicolon ts)
        return (Node.named .varDecl name.text [type] position, ts)) := by
  rw [classMember]
  refine outcome_bind fun _ => outcome_bind ?_
  rintro ⟨name, _, _⟩
  dsimp only
  split
  · exact outcome_bind fun _ => outcome_bind fun _ => outcome_bind fun _ =>
      outcome_bind fun _ => rfl
  · exact outcome_bind fun _ => rfl

theorem outcome_classMembers (ts : List Token) :
    outcome (classMembers ts) =
      if front? ts = some .rightBrace then do
        let (_, ts) ← outcome (take .rightBrace ts)
        return ([], ts)
      else do
        let (first, ts) ← outcome (classMember ts)
        let (others, ts) ← outcome (classMembers ts)
        return (first :: others, ts) := by
  rw [classMembers]
  split
  · exact outcome_bind fun _ => rfl
  · exact outcome_bind fun _ => outcome_bind fun _ => rfl

theorem outcome_classDecl (ts : List Token) :
    outcome (classDecl ts) = (do
      let (word, ts) ← outcome (take .classWord ts)
      let (name, ts) ← outcome (take .identifier ts)
      let own : String × Attribute := ("name", .text name.text)
      if front? ts = some .extendsWord then do
        let (_, ts) ← outcome (take .extendsWord ts)
        let (parent, ts) ← outcome (take .identifier ts)
        let (_, ts) ← outcome (take .leftBrace ts)
        let (members, ts) ← outcome (classMembers ts)
        return (⟨.classDecl, ⟨[own, ("superclass", .text parent.text)]⟩, members, word.position⟩, ts)
      else do
        let (_, ts) ← outcome (take .leftBrace ts)
        let (members, ts) ← outcome (classMembers ts)
        return (⟨.classDecl, ⟨[own]⟩, members, word.position⟩, ts)) := by
  rw [classDecl]
  refine outcome_bind fun _ => outcome_bind ?_
  rintro ⟨name, _, _⟩
  dsimp only
  split
  · exact outcome_bind fun _ => outcome_bind fun _ => outcome_bind fun _ =>
      outcome_bind fun _ => rfl
  · exact outcome_bind fun _ => outcome_bind fun _ => rfl

theorem outcome_moreNames_nil : outcome (moreNames []) = .error .unexpectedEnd := by
  rw [moreNames]
  rfl

theorem outcome_moreNames_cons (t : Token) (ts : List Token) :
    outcome (moreNames (t :: ts)) =
      if t.kind = .semicolon then .ok ([], ts)
      else if t.kind = .dot then do
        let (name, ts) ← outcome (take .identifier ts)
        let (others, ts) ← outcome (moreNames ts)
        return (name.text :: others, ts)
      else .error (.found t) := by
  rw [moreNames]
  split
  · rfl
  split
  · exact outcome_bind fun _ => outcome_bind fun _ => rfl
  · rfl

theorem outcome_importDecl (ts : List Token) :
    outcome (importDecl ts) = (do
      let (word, ts) ← outcome (take .importWord ts)
      let (first, ts) ← outcome (take .identifier ts)
      let (others, ts) ← outcome (moreNames ts)
      return (Node.named .importDecl (String.intercalate "." (first.text :: others)) [] word.position,
        ts)) := by
  rw [importDecl]
  exact outcome_bind fun _ => outcome_bind fun _ => outcome_bind fun _ => rfl

theorem outcome_declarations (ts : List Token) :
    outcome (declarations ts) =
      if front? ts = some .importWord then do
        let (first, ts) ← outcome (importDecl ts)
        let (others, ts) ← outcome (declarations ts)
        return (first :: others, ts)
      else do
        let (c, ts) ← outcome (classDecl ts)
        return ([c], ts) := by
  rw [declarations]
  split
  · exact outcome_bind fun _ => outcome_bind fun _ => rfl
  · exact outcome_bind fun _ => rfl

theorem program_eq (ts : List Token) :
    program ts = (do
      let (children, rest) ← outcome (declarations ts)
      match rest with
      | [] => return Node.plain .program children ((ts.head?.map (·.position)).getD {})
      | t :: _ => throw (.found t)) := by
  rw [program]
  cases declarations ts with
  | error e => rfl
  | ok r => rfl

/-! ## What a reader ensures -/

/-- What holds of every value that is read and of the tokens that are left after it. -/
def Ensures (x : Except SyntaxError (α × List Token)) (P : α → List Token → Prop) : Prop :=
  ∀ a rest, x = .ok (a, rest) → P a rest

section
variable {P : α → List Token → Prop} {Q : β → List Token → Prop}

theorem Ensures.ok {a : α} {rest : List Token} (h : P a rest) : Ensures (.ok (a, rest)) P := by
  intro b rest' heq
  cases heq
  exact h

theorem Ensures.error (e : SyntaxError) : Ensures (.error e) P := fun _ _ heq => nomatch heq

theorem Ensures.mono {P' : α → List Token → Prop} {x : Except SyntaxError (α × List Token)}
    (hx : Ensures x P) (h : ∀ a rest, P a rest → P' a rest) : Ensures x P' :=
  fun a rest heq => h a rest (hx a rest heq)

/-- The second reader may rely on what the first one ensures, and on how many tokens that one took. -/
theorem Ensures.bind {x : Reading least α ts} {f : α × List Token → Except SyntaxError (β × List Token)}
    (hx : Ensures (outcome x) P)
    (hf : ∀ a rest, P a rest → rest.length + least ≤ ts.length → Ensures (f (a, rest)) Q) :
    Ensures (outcome x >>= f) Q := by
  cases x with
  | error e => exact Ensures.error e
  | ok r => exact hf r.value r.rest (hx _ _ rfl) r.bound

end

/-- The first value that is read is as wanted, and the tokens `ls` are left after it. -/
def Yields (x : Except SyntaxError (α × List Token)) (P : α → Prop) (ls : List Lexeme) : Prop :=
  ∃ a rest, x = .ok (a, rest) ∧ P a ∧ rest.map Token.lexeme = ls

section
variable {P : α → Prop} {Q : β → Prop} {ls : List Lexeme}

theorem Yields.ok {a : α} {rest : List Token} (h : P a) (hrest : rest.map Token.lexeme = ls) :
    Yields (.ok (a, rest)) P ls :=
  ⟨a, rest, rfl, h, hrest⟩

theorem Yields.bind {ls' : List Lexeme} {x : Except SyntaxError (α × List Token)}
    {f : α × List Token → Except SyntaxError (β × List Token)} (hx : Yields x P ls)
    (hf : ∀ a rest, P a → rest.map Token.lexeme = ls → Yields (f (a, rest)) Q ls') :
    Yields (x >>= f) Q ls' := by
  obtain ⟨a, rest, rfl, ha, hrest⟩ := hx
  exact hf a rest ha hrest

end

end JmmCompiler.Reader

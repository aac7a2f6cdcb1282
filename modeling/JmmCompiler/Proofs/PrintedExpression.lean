import JmmCompiler.Proofs.ExpressionShape
/-! Reading an expression back from the tokens that it is printed with. What may follow the expression is
part of the statement: nothing that goes on with it. -/
namespace JmmCompiler

namespace Text

theorem decimal_toString (n : Nat) : decimal (toString n).toList = n := by
  rw [Nat.toString_eq_ofList_toDigits, String.toList_ofList]
  exact Nat.ofDigitChars_ten_toDigits

end Text

namespace Lexeme

theorem word_of_isName {s : String} (h : IsName s) : word s = (.identifier, s) := by
  rw [word, h.2]

theorem word_of_isTypeName {s : String} (h : IsTypeName s) :
    (word s).1 ∈ [TokenKind.intWord, .booleanWord, .voidWord, .identifier] := by
  rcases h with h | rfl | rfl | rfl
  · simp [word_of_isName h]
  all_goals decide

theorem isNumber_toString (n : Nat) : IsNumber (toString n) := by
  rw [Nat.toString_eq_ofList_toDigits]
  constructor
  · intro h
    have hlist := congrArg String.toList h
    rw [String.toList_ofList] at hlist
    exact Nat.toDigits_ne_nil hlist
  · intro c hc
    rw [String.toList_ofList] at hc
    exact Nat.isDigit_of_mem_toDigits (by decide) (by decide) hc

end Lexeme

namespace Node

theorem listed_cons (part : List Lexeme) (parts : List (List Lexeme)) :
    listed (part :: parts) = part ++ parts.flatMap (TokenKind.comma.lexeme :: ·) := by
  induction parts generalizing part with
  | nil => simp [listed, List.intercalate]
  | cons next parts ih =>
    have h := ih next
    simp only [listed, List.intercalate, List.intersperse_cons_cons, List.flatten_cons] at h ⊢
    rw [h]
    simp

end Node

namespace Reader
variable {ts : List Token} {ls : List Lexeme} {l : Lexeme}

/-- The tokens that an expression starts with. -/
def starters : List TokenKind :=
  [.not, .integer, .trueWord, .falseWord, .thisWord, .identifier, .leftParen, .leftBracket, .newWord]

/-- Nothing in front goes on with an expression whose operators are of levels below `level`. -/
def Ends (level : Nat) (ls : List Lexeme) : Prop :=
  ∀ l ∈ ls.head?, l.1 ∉ [.leftBracket, .dot, .leftParen] ∧ ∀ k < level, l.1 ≠ operatorAt k

theorem Ends.mono {m n : Nat} (h : Ends n ls) (hmn : m ≤ n) : Ends m ls :=
  fun l hl => ⟨(h l hl).1, fun k hk => (h l hl).2 k (by omega)⟩

/-- Closing tokens, commas and the like end every expression. -/
theorem ends_of_kind {level : Nat} (hl : l.1 ∈ [TokenKind.rightParen, .rightBracket, .comma, .semicolon,
    .equals]) : Ends level (l :: ls) := by
  intro l' hl'
  obtain rfl : l = l' := by simpa using hl'
  refine ⟨?_, fun k _ => ?_⟩
  · intro h
    generalize l.1 = kind at hl h
    revert kind
    decide
  · rw [operatorAt.eq_def]
    intro h
    rw [h] at hl
    split at hl <;> simp at hl

/-- An operator ends its left operand. -/
theorem ends_of_operator {level : Nat} (hlevel : level < 6) (op : String) (ls : List Lexeme) :
    Ends level ((operatorAt level, op) :: ls) := by
  intro l hl
  obtain rfl : (operatorAt level, op) = l := by simpa using hl
  have hall : ∀ level < 6, operatorAt level ∉ [.leftBracket, .dot, .leftParen] ∧
      ∀ k < level, operatorAt level ≠ operatorAt k := by decide
  exact hall level hlevel

theorem exists_cons_of_map (h : ts.map Token.lexeme = l :: ls) :
    ∃ t rest, ts = t :: rest ∧ t.kind = l.1 ∧ t.text = l.2 ∧ rest.map Token.lexeme = ls := by
  obtain ⟨t, rest, rfl, rfl, hrest⟩ := List.map_eq_cons_iff.1 h
  exact ⟨t, rest, rfl, rfl, rfl, hrest⟩

theorem front?_of_map (h : ts.map Token.lexeme = ls) : front? ts = ls.head?.map (·.1) := by
  subst h
  cases ts <;> rfl

theorem yields_take {kind : TokenKind} {s : String} (h : ts.map Token.lexeme = (kind, s) :: ls) :
    Yields (outcome (take kind ts)) (fun t => t.kind = kind ∧ t.text = s) ls := by
  obtain ⟨t, rest, rfl, hkind, htext, hrest⟩ := exists_cons_of_map h
  rw [outcome_take_cons, if_pos hkind]
  exact Yields.ok ⟨hkind, htext⟩ hrest

theorem yields_baseType (hl : l.1 ∈ [TokenKind.intWord, .booleanWord, .voidWord, .identifier])
    (h : ts.map Token.lexeme = l :: ls) :
    Yields (outcome (baseType ts)) (fun t => t.kind = l.1 ∧ t.text = l.2) ls := by
  obtain ⟨t, rest, rfl, hkind, htext, hrest⟩ := exists_cons_of_map h
  rw [outcome_baseType_cons, if_pos (hkind ▸ hl)]
  exact Yields.ok ⟨hkind, htext⟩ hrest

theorem yields_member (hl : l.1 = .identifier ∨ l.1 = .lengthWord) (h : ts.map Token.lexeme = l :: ls) :
    Yields (outcome (member ts)) (fun t => t.kind = l.1 ∧ t.text = l.2) ls := by
  obtain ⟨t, rest, rfl, hkind, htext, hrest⟩ := exists_cons_of_map h
  rw [outcome_member_cons, if_pos (hkind ▸ hl)]
  exact Yields.ok ⟨hkind, htext⟩ hrest

/-! ## What is to be shown of an expression -/

/-- Where the expression stands, and nothing goes on with it, it is read at a level. -/
def ReadsAt (level : Nat) (e : Node) : Prop :=
  ∀ (ts : List Token) (ls : List Lexeme), ts.map Token.lexeme = e.lexemes ++ ls → Ends level ls →
    Yields (outcome (binary level ts)) (·.bare = e.bare) ls

/-- The expression is read as the operand before operators of a level. -/
def ReadsBefore (level : Nat) (e : Node) : Prop :=
  ∀ (ts : List Token) (ls : List Lexeme), ts.map Token.lexeme = e.lexemes ++ ls → Ends level ls →
    ∃ e' rest, e'.bare = e.bare ∧ rest.map Token.lexeme = ls ∧
      outcome (binary (level + 1) ts) = outcome (operands level e' rest)

/-- The expression is read as what stands before an index, `.length` or a call. -/
def ReadsReceiver (e : Node) : Prop :=
  ∀ (ts : List Token) (ls : List Lexeme), ts.map Token.lexeme = e.lexemes ++ ls →
    (∀ l ∈ ls.head?, l.1 ≠ .leftParen) →
    ∃ e' rest, e'.bare = e.bare ∧ rest.map Token.lexeme = ls ∧
      outcome (unary ts) = outcome (suffixes e' rest)

/-- The expression is read at every level that it fits. -/
structure ReadsBack (e : Node) : Prop where
  receiver (h : e.looseness = 0) : ReadsReceiver e
  operand (level : Nat) (h : e.looseness ≤ level + 2) : ReadsBefore level e
  whole (level : Nat) (h : e.looseness ≤ level + 1) : ReadsAt level e

theorem suffixes_of_ends {level : Nat} (hend : Ends level ls) (hrest : ts.map Token.lexeme = ls) (e : Node) :
    outcome (suffixes e ts) = .ok (e, ts) := by
  cases ts with
  | nil => exact outcome_suffixes_nil e
  | cons t ts =>
    subst hrest
    have hfront := (hend t.lexeme rfl).1
    exact outcome_suffixes_other e ts (fun h => hfront (by simp [Token.lexeme, h]))
      fun h => hfront (by simp [Token.lexeme, h])

theorem operands_of_ends {level : Nat} (hend : Ends (level + 1) ls) (hrest : ts.map Token.lexeme = ls)
    (e : Node) : outcome (operands level e ts) = .ok (e, ts) := by
  cases ts with
  | nil => exact outcome_operands_nil level e
  | cons t ts =>
    subst hrest
    have hne : t.kind ≠ operatorAt level := (hend t.lexeme rfl).2 level (Nat.lt_succ_self _)
    rw [outcome_operands_cons, if_neg hne]

theorem ReadsReceiver.readsAt {e : Node} (h : ReadsReceiver e) : ReadsAt 0 e := by
  intro ts ls hts hend
  obtain ⟨e', rest, he', hrest, heq⟩ := h ts ls hts fun l hl hparen => (hend l hl).1 (by simp [hparen])
  rw [outcome_binary_zero, heq, suffixes_of_ends hend hrest]
  exact Yields.ok he' hrest

theorem ReadsAt.readsBefore {e : Node} {level : Nat} (h : ReadsAt level e) : ReadsBefore level e := by
  intro ts ls hts hend
  obtain ⟨e', rest, heq, he', hrest⟩ := h ts ls hts hend
  refine ⟨e', rest, he', hrest, ?_⟩
  rw [outcome_binary_succ, heq]
  rfl

theorem ReadsBefore.readsAt {e : Node} {level : Nat} (h : ReadsBefore level e) : ReadsAt (level + 1) e := by
  intro ts ls hts hend
  obtain ⟨e', rest, he', hrest, heq⟩ := h ts ls hts (hend.mono (Nat.le_succ _))
  rw [heq, operands_of_ends hend hrest]
  exact Yields.ok he' hrest

theorem ReadsAt.mono {e : Node} {m n : Nat} (h : ReadsAt m e) (hmn : m ≤ n) : ReadsAt n e := by
  induction n, hmn using Nat.le_induction with
  | base => exact h
  | succ n _ ih => exact ih.readsBefore.readsAt

theorem ReadsReceiver.readsBack {e : Node} (h : ReadsReceiver e) : ReadsBack e where
  receiver _ := h
  operand _ _ := (h.readsAt.mono (Nat.zero_le _)).readsBefore
  whole _ _ := h.readsAt.mono (Nat.zero_le _)

theorem ReadsAt.readsBack {e : Node} (h : ReadsAt 0 e) (he : e.looseness = 1) : ReadsBack e where
  receiver he' := by omega
  operand _ _ := (h.mono (Nat.zero_le _)).readsBefore
  whole _ _ := h.mono (Nat.zero_le _)

theorem ReadsBefore.readsBack {e : Node} {k : Nat} (h : ReadsBefore k e) (he : e.looseness = k + 2) :
    ReadsBack e where
  receiver he' := by omega
  operand level hle := by
    obtain rfl | hlt : level = k ∨ k + 1 ≤ level := by omega
    · exact h
    · exact (h.readsAt.mono hlt).readsBefore
  whole _ hle := h.readsAt.mono (by omega)

theorem ReadsBack.expression {e : Node} (h : ReadsBack e) (hle : e.looseness ≤ 7)
    (hts : ts.map Token.lexeme = e.lexemes ++ ls) (hend : Ends 6 ls) :
    Yields (outcome (expression ts)) (·.bare = e.bare) ls := by
  rw [outcome_expression]
  exact h.whole 6 hle ts ls hts hend

/-! ## Lists of expressions -/

/-- What stands after an expression of a list ends it. -/
theorem ends_of_list {close : TokenKind} (hclose : close ∈ [TokenKind.rightParen, .rightBracket])
    (parts : List (List Lexeme)) (level : Nat) (ls : List Lexeme) :
    Ends level (parts.flatMap (TokenKind.comma.lexeme :: ·) ++ close.lexeme :: ls) := by
  cases parts with
  | nil =>
    refine ends_of_kind ?_
    simp only [List.mem_cons, List.not_mem_nil, or_false] at hclose
    rcases hclose with rfl | rfl <;> decide
  | cons part parts => exact ends_of_kind (by decide)

theorem yields_moreUntil {es : List Node} (hes : ∀ e ∈ es, ReadsAt 6 e) {close : TokenKind}
    (hclose : close ∈ [TokenKind.rightParen, .rightBracket])
    (hts : ts.map Token.lexeme =
      (es.map Node.lexemes).flatMap (TokenKind.comma.lexeme :: ·) ++ close.lexeme :: ls) :
    Yields (outcome (moreUntil close ts)) (·.map Node.bare = es.map Node.bare) ls := by
  induction es generalizing ts with
  | nil =>
    obtain ⟨t, rest, rfl, hkind, -, hrest⟩ := exists_cons_of_map hts
    have hclosing : t.kind = close := hkind
    rw [outcome_moreUntil_cons, if_pos hclosing]
    exact Yields.ok rfl hrest
  | cons e es ih =>
    rw [List.map_cons, List.flatMap_cons, List.append_assoc] at hts
    obtain ⟨t, rest, rfl, hkind, -, hrest⟩ := exists_cons_of_map hts
    have hcomma : t.kind = .comma := hkind
    have hne : t.kind ≠ close := by
      rintro rfl
      rw [hcomma] at hclose
      simp at hclose
    rw [outcome_moreUntil_cons, if_neg hne, if_pos hcomma]
    have hends := ends_of_list hclose (es.map Node.lexemes) 6 ls
    rw [outcome_expression]
    refine Yields.bind (hes e (by simp) rest _ hrest hends)
      fun next rest hnext hrest => ?_
    refine Yields.bind (ih (fun e he => hes e (by simp [he])) hrest) fun others rest hothers hrest => ?_
    exact Yields.ok (by simp [hnext, hothers]) hrest

theorem yields_listUntil {es : List Node} (hes : ∀ e ∈ es, ReadsAt 6 e)
    (hstart : ∀ e ∈ es, ∃ l tail, e.lexemes = l :: tail ∧ l.1 ∈ starters) {close : TokenKind}
    (hclose : close ∈ [TokenKind.rightParen, .rightBracket])
    (hts : ts.map Token.lexeme = Node.listed (es.map Node.lexemes) ++ close.lexeme :: ls) :
    Yields (outcome (listUntil close ts)) (·.map Node.bare = es.map Node.bare) ls := by
  rw [outcome_listUntil, front?_of_map hts]
  cases es with
  | nil =>
    rw [if_pos (by rfl)]
    rw [List.map_nil, Node.listed, List.intercalate_nil, List.nil_append] at hts
    exact Yields.bind (yields_take hts) fun _ rest _ hrest => Yields.ok rfl hrest
  | cons e es =>
    obtain ⟨l, tail, hl, hmem⟩ := hstart e (by simp)
    have hne : l.1 ≠ close := by
      rintro rfl
      simp only [List.mem_cons, List.not_mem_nil, or_false] at hclose
      rcases hclose with h | h <;> rw [h] at hmem <;> revert hmem <;> decide
    rw [List.map_cons, Node.listed_cons, hl] at hts ⊢
    rw [if_neg (by simpa using hne), outcome_expression]
    have hends := ends_of_list hclose (es.map Node.lexemes) 6 ls
    refine Yields.bind (hes e (by simp) ts _ (by rw [hts, hl, List.append_assoc]) hends)
      fun first rest hfirst hrest => ?_
    refine Yields.bind (yields_moreUntil (fun e he => hes e (by simp [he])) hclose hrest)
      fun others rest hothers hrest => ?_
    exact Yields.ok (by simp [hfirst, hothers]) hrest

end Reader

/-! ## Expressions -/

namespace Node
open Reader

/-- The first token of an expression. -/
theorem IsExpression.starts {e : Node} (h : e.IsExpression) :
    ∃ l tail, e.lexemes = l :: tail ∧ l.1 ∈ starters := by
  induction h with
  | intLiteral value p => exact ⟨_, _, lexemes_intLiteral p value, by simp [starters]⟩
  | boolLiteral value p => exact ⟨_, _, lexemes_boolLiteral p value, by cases value <;> decide⟩
  | thisRef p => exact ⟨_, _, lexemes_thisRef p, by decide⟩
  | @varRef name hname p =>
    exact ⟨_, _, lexemes_varRef p name, by simp [Lexeme.word_of_isName hname, starters]⟩
  | @paren inner _ p _ => exact ⟨_, _, lexemes_paren p inner, by decide⟩
  | @newObject name hname p => exact ⟨_, _, lexemes_newObject p name, by decide⟩
  | @newArray name size _ _ p _ => exact ⟨_, _, lexemes_newArray p name size, by decide⟩
  | @arrayLiteral elements _ p _ => exact ⟨_, _, lexemes_arrayLiteral p elements, by decide⟩
  | @arrayAccess array index _ _ _ p ih _ =>
    obtain ⟨l, tail, hl, hmem⟩ := ih
    exact ⟨l, _, by rw [lexemes_arrayAccess, hl]; rfl, hmem⟩
  | @length array _ _ p ih =>
    obtain ⟨l, tail, hl, hmem⟩ := ih
    exact ⟨l, _, by rw [lexemes_length, hl]; rfl, hmem⟩
  | @call name receiver args _ _ _ _ p ih _ =>
    obtain ⟨l, tail, hl, hmem⟩ := ih
    exact ⟨l, _, by rw [lexemes_call, hl]; rfl, hmem⟩
  | @unary operand _ _ p _ => exact ⟨_, _, lexemes_unary p "!" operand, by decide⟩
  | @binary op left right _ _ _ _ _ p ih _ =>
    obtain ⟨l, tail, hl, hmem⟩ := ih
    exact ⟨l, _, by rw [lexemes_binary, hl]; rfl, hmem⟩

theorem allValid_listed {parts : List (List Lexeme)} (h : ∀ part ∈ parts, Lexeme.AllValid part) :
    Lexeme.AllValid (listed parts) := by
  cases parts with
  | nil => simp [listed]
  | cons part parts =>
    simp only [List.forall_mem_cons] at h
    rw [listed_cons, Lexeme.allValid_append]
    refine ⟨h.1, fun l hl => ?_⟩
    obtain ⟨part', hpart', hl⟩ := List.mem_flatMap.1 hl
    rcases List.mem_cons.1 hl with rfl | hl
    · exact Lexeme.valid_lexeme (by decide)
    · exact h.2 part' hpart' l hl

/-- The tokens of an expression are spelled as their classes demand. -/
theorem IsExpression.allValid {e : Node} (h : e.IsExpression) : Lexeme.AllValid e.lexemes := by
  induction h with
  | intLiteral value p =>
    rw [lexemes_intLiteral, Lexeme.allValid_cons]
    exact ⟨Lexeme.isNumber_toString value, Lexeme.allValid_nil⟩
  | boolLiteral value p =>
    rw [lexemes_boolLiteral]
    cases value <;> simp [Lexeme.valid_lexeme]
  | thisRef p => simp [lexemes_thisRef, Lexeme.valid_lexeme]
  | varRef hname p => simp [lexemes_varRef, Lexeme.valid_word hname.1]
  | paren hinner p ih => simp [lexemes_paren, Lexeme.valid_lexeme, ih]
  | newObject hname p => simp [lexemes_newObject, Lexeme.valid_lexeme, Lexeme.valid_word hname.1]
  | newArray hname hsize p ih =>
    simp [lexemes_newArray, Lexeme.valid_lexeme, Lexeme.valid_word hname.isWord, ih]
  | arrayLiteral helements p ih =>
    simp [lexemes_arrayLiteral, Lexeme.valid_lexeme, allValid_listed (List.forall_mem_map.2 ih)]
  | arrayAccess harray hindex htight p iharray ihindex =>
    simp [lexemes_arrayAccess, Lexeme.valid_lexeme, iharray, ihindex]
  | length harray htight p ih => simp [lexemes_length, Lexeme.valid_lexeme, ih]
  | @call name _ _ hname hreceiver hargs htight p ih ihargs =>
    have hword : Lexeme.IsWord name := by
      rcases hname with hname | rfl
      · exact hname.1
      · exact ⟨'l', "ength".toList, by decide, by decide, List.all_eq_true.1 (by decide)⟩
    simp [lexemes_call, Lexeme.valid_lexeme, Lexeme.valid_word hword, ih,
      allValid_listed (List.forall_mem_map.2 ihargs)]
  | unary hoperand htight p ih =>
    have hnot : (Lexeme.operator "!").Valid := .inr (by decide)
    simp [lexemes_unary, hnot, ih]
  | binary hop hleft hright hleftTight hrightTight p ihleft ihright =>
    obtain ⟨_, -, -, -, hoperator⟩ := Lexeme.level_of_operator hop
    simp [lexemes_binary, hoperator, ihleft, ihright]

theorem IsExpression.looseness_le {e : Node} (h : e.IsExpression) : e.looseness ≤ 7 := by
  cases h with
  | unary => exact Nat.succ_le_succ (Nat.zero_le 6)
  | @binary op left right _ _ _ _ _ p =>
    change Lexeme.looseness op ≤ 7
    unfold Lexeme.looseness
    split <;> decide
  | _ => exact Nat.zero_le 7

/-- What the reader of primary expressions reads is read back everywhere. -/
theorem readsBack_of_primary {e : Node} {l : Lexeme} {tail : List Lexeme} (hl : e.lexemes = l :: tail)
    (hne : l.1 ≠ .not)
    (h : ∀ (t : Token) (rest : List Token) (ls : List Lexeme), t.kind = l.1 → t.text = l.2 →
      rest.map Token.lexeme = tail ++ ls → Yields (outcome (primary (t :: rest))) (·.bare = e.bare) ls) :
    ReadsBack e := by
  refine ReadsReceiver.readsBack fun ts ls hts _ => ?_
  rw [hl, List.cons_append] at hts
  obtain ⟨t, rest, rfl, hkind, htext, hrest⟩ := exists_cons_of_map hts
  obtain ⟨e', rest', hread, he', hrest'⟩ := h t rest ls hkind htext hrest
  refine ⟨e', rest', he', hrest', ?_⟩
  rw [outcome_unary_cons, if_neg (hkind ▸ hne), hread]
  rfl

theorem readsBack_newObject {name : String} (hname : Lexeme.IsName name) (p : Position) :
    ReadsBack ⟨.newObject, ⟨[("name", .text name)]⟩, [], p⟩ := by
  have hword := lexemes_newObject p name
  rw [Lexeme.word_of_isName hname] at hword
  refine readsBack_of_primary hword (by decide) fun t rest ls hkind _ hrest => ?_
  rw [outcome_primary_cons, hkind]
  refine Yields.bind (yields_baseType (by simp) hrest) ?_
  rintro t rest ⟨hname', htext⟩ hrest
  dsimp only
  rw [if_pos ⟨hname', by rw [front?_of_map hrest]; simp [TokenKind.lexeme]⟩]
  refine Yields.bind (yields_take hrest) fun _ rest _ hrest => ?_
  refine Yields.bind (yields_take hrest) fun _ rest _ hrest => ?_
  refine Yields.ok ?_ hrest
  rw [named, htext]
  rfl

theorem readsBack_newArray {name : String} {size : Node} (hname : Lexeme.IsTypeName name) (hsize : size.IsExpression)
    (ih : ReadsBack size) (p : Position) : ReadsBack ⟨.newArray, ⟨[("name", .text name)]⟩, [size], p⟩ := by
  refine readsBack_of_primary (lexemes_newArray p name size) (by decide) fun t rest ls hkind _ hrest => ?_
  simp only [List.cons_append, List.append_assoc] at hrest
  rw [outcome_primary_cons, hkind]
  refine Yields.bind (yields_baseType (Lexeme.word_of_isTypeName hname) hrest) ?_
  rintro t rest ⟨_, htext⟩ hrest
  dsimp only
  rw [if_neg (by rw [front?_of_map hrest]; simp [TokenKind.lexeme])]
  refine Yields.bind (yields_take hrest) fun _ rest _ hrest => ?_
  refine Yields.bind (ih.expression hsize.looseness_le hrest (ends_of_kind (by decide))) fun size' rest hsize' hrest => ?_
  refine Yields.bind (yields_take hrest) fun _ rest _ hrest => ?_
  have htext : t.text = name := htext
  exact Yields.ok (by simp [named, bare_mk, hsize', htext]) hrest

theorem readsBack_arrayAccess {array index : Node} (hindex : index.IsExpression) (htight : array.looseness = 0)
    (iharray : ReadsBack array) (ihindex : ReadsBack index) (p : Position) :
    ReadsBack ⟨.arrayAccess, {}, [array, index], p⟩ := by
  refine ReadsReceiver.readsBack fun ts ls hts _ => ?_
  simp only [lexemes_arrayAccess, List.append_assoc, List.cons_append, List.nil_append] at hts
  obtain ⟨array', rest, harray', hrest, heq⟩ := iharray.receiver htight ts _ hts (by simp [TokenKind.lexeme])
  obtain ⟨t, rest, rfl, hkind, -, hrest⟩ := exists_cons_of_map hrest
  obtain ⟨index', rest, hread, hindex', hrest⟩ := ihindex.expression hindex.looseness_le hrest (ends_of_kind (by decide))
  obtain ⟨_, rest, htake, -, hrest⟩ := yields_take hrest
  refine ⟨plain .arrayAccess [array', index'] array'.position, rest, ?_, hrest, ?_⟩
  · simp [plain, bare_mk, harray', hindex']
  · rw [heq, outcome_suffixes_bracket _ _ hkind]
    simp only [hread, htake, ok_bind]

theorem readsBack_length {array : Node} (htight : array.looseness = 0) (ih : ReadsBack array) (p : Position) :
    ReadsBack ⟨.length, {}, [array], p⟩ := by
  refine ReadsReceiver.readsBack fun ts ls hts hparen => ?_
  simp only [lexemes_length, List.append_assoc, List.cons_append, List.nil_append] at hts
  obtain ⟨array', rest, harray', hrest, heq⟩ := ih.receiver htight ts _ hts (by simp [TokenKind.lexeme])
  obtain ⟨t, rest, rfl, hkind, -, hrest⟩ := exists_cons_of_map hrest
  obtain ⟨t, rest, hmember, ⟨hlength, -⟩, hrest⟩ := yields_member (.inr rfl) hrest
  have hfront : front? rest ≠ some .leftParen := by
    rw [front?_of_map hrest]
    cases ls with
    | nil => simp
    | cons l ls => simpa using hparen l
  refine ⟨plain .length [array'] array'.position, rest, ?_, hrest, ?_⟩
  · simp [plain, bare_mk, harray']
  · rw [heq, outcome_suffixes_dot _ _ hkind]
    simp only [hmember, ok_bind]
    rw [if_pos ⟨hlength, hfront⟩]

theorem readsBack_call {name : String} {receiver : Node} {args : List Node} (hname : Lexeme.IsName name ∨ name = "length")
    (hargs : ∀ e ∈ args, e.IsExpression) (htight : receiver.looseness = 0) (ih : ReadsBack receiver)
    (ihargs : ∀ e ∈ args, ReadsBack e) (p : Position) : ReadsBack ⟨.call, ⟨[("name", .text name)]⟩, receiver :: args, p⟩ := by
  refine ReadsReceiver.readsBack fun ts ls hts _ => ?_
  simp only [lexemes_call, List.append_assoc, List.cons_append, List.nil_append] at hts
  obtain ⟨receiver', rest, hreceiver', hrest, heq⟩ :=
    ih.receiver htight ts _ hts (by simp [TokenKind.lexeme])
  obtain ⟨t, rest, rfl, hkind, -, hrest⟩ := exists_cons_of_map hrest
  have hmember : (Lexeme.word name).1 = .identifier ∨ (Lexeme.word name).1 = .lengthWord := by
    rcases hname with hname | rfl
    · simp [Lexeme.word_of_isName hname]
    · exact .inr (by decide)
  obtain ⟨t, rest, hmember, ⟨-, htext⟩, hrest⟩ := yields_member hmember hrest
  have htext : t.text = name := htext
  have hfront : front? rest = some .leftParen := by rw [front?_of_map hrest]; rfl
  obtain ⟨_, rest, htake, -, hrest⟩ := yields_take hrest
  obtain ⟨args', rest, hlist, hargs', hrest⟩ :=
    yields_listUntil (fun e he => (ihargs e he).whole 6 (hargs e he).looseness_le)
      (fun e he => (hargs e he).starts) (by decide) hrest
  refine ⟨named .call t.text (receiver' :: args') receiver'.position, rest, ?_, hrest, ?_⟩
  · simp [named, bare_mk, hreceiver', hargs', htext]
  · rw [heq, outcome_suffixes_dot _ _ hkind]
    simp only [hmember, htake, hlist, hfront, ok_bind, ne_eq, not_true_eq_false, and_false, if_false]

theorem readsBack_unary {operand : Node} (htight : operand.looseness ≤ 1) (ih : ReadsBack operand) (p : Position) :
    ReadsBack ⟨.unary, ⟨[("op", .text "!")]⟩, [operand], p⟩ := by
  refine ReadsAt.readsBack (fun ts ls hts hend => ?_) rfl
  rw [lexemes_unary] at hts
  obtain ⟨t, rest, rfl, hkind, htext, hrest⟩ := exists_cons_of_map hts
  have hkind : t.kind = .not := hkind
  rw [outcome_binary_zero, outcome_unary_cons, if_pos hkind, ← outcome_binary_zero]
  refine Yields.bind (ih.whole 0 htight rest ls hrest hend) fun operand' rest hoperand' hrest => ?_
  exact Yields.ok (by simp [bare_mk, hoperand', htext, Lexeme.operator]) hrest

/-- The left operand binds as loosely as the operator at most, the right one more tightly. -/
theorem readsBack_binary {op : String} {left right : Node} (hop : (Operator.ofSymbol? op).isSome)
    (hleftTight : left.looseness ≤ Lexeme.looseness op) (hrightTight : right.looseness < Lexeme.looseness op)
    (ihleft : ReadsBack left) (ihright : ReadsBack right) (p : Position) :
    ReadsBack ⟨.binary, ⟨[("op", .text op)]⟩, [left, right], p⟩ := by
  obtain ⟨level, hlevel, hloose, hoperator, -⟩ := Lexeme.level_of_operator hop
  refine ReadsBefore.readsBack (k := level) (fun ts ls hts hend => ?_) hloose
  rw [lexemes_binary, List.append_assoc, List.cons_append, hoperator] at hts
  have hends := ends_of_operator hlevel op (right.lexemes ++ ls)
  obtain ⟨left', rest, hleft', hrest, heq⟩ := ihleft.operand level (by omega) ts _ hts hends
  obtain ⟨t, rest, rfl, hkind, htext, hrest⟩ := exists_cons_of_map hrest
  obtain ⟨right', rest, hread, hright', hrest⟩ := ihright.whole level (by omega) rest ls hrest hend
  refine ⟨binaryNode t left' right', rest, ?_, hrest, ?_⟩
  · have htext : t.text = op := htext
    simp [binaryNode, bare_mk, hleft', hright', htext]
  · rw [heq, outcome_operands_cons, if_pos hkind]
    simp only [hread, ok_bind]

/-- An expression is read back from its tokens. -/
theorem IsExpression.readsBack {e : Node} (h : e.IsExpression) : ReadsBack e := by
  induction h with
  | intLiteral value p =>
    refine readsBack_of_primary (lexemes_intLiteral p value) (by simp) fun t rest ls hkind htext hrest => ?_
    rw [outcome_primary_cons, hkind, htext]
    refine Yields.ok ?_ hrest
    simp only [Text.decimal_toString]
    rfl
  | boolLiteral value p =>
    refine readsBack_of_primary (lexemes_boolLiteral p value) (by cases value <;> decide)
      fun t rest ls hkind _ hrest => ?_
    rw [outcome_primary_cons, hkind]
    cases value
    · exact Yields.ok rfl hrest
    · exact Yields.ok rfl hrest
  | thisRef p =>
    refine readsBack_of_primary (lexemes_thisRef p) (by decide) fun t rest ls hkind _ hrest => ?_
    rw [outcome_primary_cons, hkind]
    exact Yields.ok rfl hrest
  | @varRef name hname p =>
    have hword := lexemes_varRef p name
    rw [Lexeme.word_of_isName hname] at hword
    refine readsBack_of_primary hword (by simp) fun t rest ls hkind htext hrest => ?_
    rw [outcome_primary_cons, hkind]
    refine Yields.ok ?_ hrest
    rw [reference, htext]
    rfl
  | @paren inner hinner p ih =>
    refine readsBack_of_primary (lexemes_paren p inner) (by decide) fun t rest ls hkind _ hrest => ?_
    rw [List.append_assoc] at hrest
    rw [outcome_primary_cons, hkind]
    refine Yields.bind (ih.expression hinner.looseness_le hrest (ends_of_kind (by decide))) fun inner' rest hinner' hrest => ?_
    refine Yields.bind (yields_take hrest) fun _ rest _ hrest => ?_
    exact Yields.ok (by simp [plain, bare_mk, hinner']) hrest
  | newObject hname p => exact readsBack_newObject hname p
  | newArray hname hsize p ih => exact readsBack_newArray hname hsize ih p
  | @arrayLiteral elements helements p ih =>
    refine readsBack_of_primary (lexemes_arrayLiteral p elements) (by decide)
      fun t rest ls hkind _ hrest => ?_
    rw [List.append_assoc] at hrest
    rw [outcome_primary_cons, hkind]
    refine Yields.bind (yields_listUntil (fun e he => (ih e he).whole 6 (helements e he).looseness_le)
      (fun e he => (helements e he).starts) (by decide) hrest) fun elements' rest helements' hrest => ?_
    exact Yields.ok (by simp [plain, bare_mk, helements']) hrest
  | arrayAccess harray hindex htight p iharray ihindex => exact readsBack_arrayAccess hindex htight iharray ihindex p
  | length harray htight p ih => exact readsBack_length htight ih p
  | call hname hreceiver hargs htight p ih ihargs => exact readsBack_call hname hargs htight ih ihargs p
  | unary hoperand htight p ih => exact readsBack_unary htight ih p
  | binary hop hleft hright hleftTight hrightTight p ihleft ihright =>
    exact readsBack_binary hop hleftTight hrightTight ihleft ihright p

end Node
end JmmCompiler

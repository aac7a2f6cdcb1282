import JmmCompiler.Proofs.PrintedExpression
/-! The tokens that a reader spends. They are those that its value is printed with: reading leaves no
token out and makes none up. Only the leading zeros of a number are lost. -/
namespace JmmCompiler

/-- A token without its place, where a number counts by its value. -/
def Token.normal (t : Token) : Lexeme :=
  if t.kind = .integer then (.integer, toString (Text.decimal t.text.toList)) else t.lexeme

theorem Token.normal_of_kind {t : Token} {k : TokenKind} (h : t.kind = k) (hk : k ≠ .integer) :
    t.normal = (k, t.text) := by
  rw [normal, if_neg (h ▸ hk), lexeme, h]

namespace Lexer.AllValid
variable {t : Token} {ts : List Token} {k : TokenKind}

theorem tail (hts : AllValid (t :: ts)) : AllValid ts := fun u hu => hts u (List.mem_cons_of_mem t hu)

theorem valid_head (hts : AllValid (t :: ts)) (h : t.kind = k) (hk : k ≠ .illegal) :
    Lexeme.Valid (k, t.text) := by
  have hvalid : Lexeme.Valid (t.kind, t.text) := hts t (by simp) (h ▸ hk)
  exact h ▸ hvalid

/-- The token in front, if its class has only one spelling. -/
theorem normal_head (hts : AllValid (t :: ts)) (h : t.kind = k) (hk : k ∉ TokenKind.several) :
    t.normal = k.lexeme := by
  have hne : k ≠ .integer ∧ k ≠ .illegal := by
    constructor <;> rintro rfl <;> simp [TokenKind.several] at hk
  rw [Token.normal_of_kind h hne.1, Lexeme.spelling_of_valid (hts.valid_head h hne.2) hk, TokenKind.lexeme]

/-- The token in front, if it is a name or one of the words that stand for a name. -/
theorem normal_word (hts : AllValid (t :: ts))
    (h : t.kind ∈ [.intWord, .booleanWord, .voidWord, .lengthWord, .identifier]) :
    t.normal = Lexeme.word t.text := by
  have hword {k : TokenKind} (hkind : t.kind = k) (hk : k ∉ TokenKind.several)
      (hspelling : Lexeme.word k.spelling = k.lexeme) : t.normal = Lexeme.word t.text := by
    have hillegal : k ≠ .illegal := by
      rintro rfl
      simp [TokenKind.several] at hk
    rw [hts.normal_head hkind hk, Lexeme.spelling_of_valid (hts.valid_head hkind hillegal) hk, hspelling]
  simp only [List.mem_cons, List.not_mem_nil, or_false] at h
  rcases h with h | h | h | h | h
  · exact hword h (by decide) (by decide)
  · exact hword h (by decide) (by decide)
  · exact hword h (by decide) (by decide)
  · exact hword h (by decide) (by decide)
  · rw [Token.normal_of_kind h (by decide), Lexeme.word_of_isName (hts.valid_head h (by decide))]

end Lexer.AllValid

/-- The operators of a level are tokens of its class. -/
theorem Lexeme.operator_of_level {level : Nat} (hlevel : level < 6) {op : String}
    (h : Valid (Reader.operatorAt level, op)) : operator op = (Reader.operatorAt level, op) := by
  obtain ⟨hop, hloose⟩ := operator_of_valid hlevel h
  obtain ⟨level', -, hloose', hoperator, -⟩ := level_of_operator hop
  obtain rfl : level = level' := by omega
  exact hoperator

namespace Reader
variable {α : Type} {ts : List Token} {n : Nat}
open Lexer (AllValid)

/-- The tokens `ls` are those of the value that is read and then those that are left. -/
def Spends (ls : List Lexeme) (printed : α → List Lexeme) (a : α) (rest : List Token) : Prop :=
  ls = printed a ++ rest.map Token.normal ∧ AllValid rest

theorem Ensures.and {P Q : α → List Token → Prop} {x : Except SyntaxError (α × List Token)}
    (hP : Ensures x P) (hQ : Ensures x Q) : Ensures x fun a rest => P a rest ∧ Q a rest :=
  fun a rest heq => ⟨hP a rest heq, hQ a rest heq⟩

theorem spends_take {kind : TokenKind} (hkind : kind ∉ TokenKind.several) (hts : AllValid ts) :
    Ensures (outcome (take kind ts)) (Spends (ts.map Token.normal) fun _ => [kind.lexeme]) := by
  cases ts with
  | nil => exact Ensures.error _
  | cons t ts =>
    rw [outcome_take_cons]
    split
    case isFalse => exact Ensures.error _
    case isTrue h => exact Ensures.ok ⟨by simp [hts.normal_head h hkind], hts.tail⟩

theorem spends_name (hts : AllValid ts) :
    Ensures (outcome (take .identifier ts))
      (Spends (ts.map Token.normal) fun t => [Lexeme.word t.text]) := by
  cases ts with
  | nil => exact Ensures.error _
  | cons t ts =>
    rw [outcome_take_cons]
    split
    case isFalse => exact Ensures.error _
    case isTrue h => exact Ensures.ok ⟨by simp [hts.normal_word (by simp [h])], hts.tail⟩

theorem spends_baseType (hts : AllValid ts) :
    Ensures (outcome (baseType ts)) (Spends (ts.map Token.normal) fun t => [Lexeme.word t.text]) := by
  cases ts with
  | nil => exact Ensures.error _
  | cons t ts =>
    rw [outcome_baseType_cons]
    split
    case isFalse => exact Ensures.error _
    case isTrue h =>
      have hkind : t.kind ∈ [TokenKind.intWord, .booleanWord, .voidWord, .lengthWord, .identifier] := by
        revert h
        cases t.kind <;> decide
      exact Ensures.ok ⟨by simp [hts.normal_word hkind], hts.tail⟩

theorem spends_member (hts : AllValid ts) :
    Ensures (outcome (member ts)) fun t rest => (t.kind = .lengthWord → t.text = "length") ∧
      Spends (ts.map Token.normal) (fun t => [Lexeme.word t.text]) t rest := by
  cases ts with
  | nil => exact Ensures.error _
  | cons t ts =>
    rw [outcome_member_cons]
    split
    case isFalse => exact Ensures.error _
    case isTrue h =>
      refine Ensures.ok ⟨fun hlength => ?_, ?_, hts.tail⟩
      · exact Lexeme.spelling_of_valid (hts.valid_head hlength (by decide)) (by decide)
      · simp [hts.normal_word (by rcases h with h | h <;> simp [h])]

/-! Every reader of expressions, where those that are read from fewer than `n` tokens are known to spend
what they are printed with. -/

section

def SpendsBelow (n : Nat) : Prop :=
  ∀ ts : List Token, ts.length < n → AllValid ts →
    Ensures (outcome (expression ts)) (Spends (ts.map Token.normal) Node.lexemes)

theorem spends_moreUntil (ih : SpendsBelow n) {close : TokenKind} (hclose : close ∉ TokenKind.several)
    (hlength : ts.length ≤ n) (hts : AllValid ts) :
    Ensures (outcome (moreUntil close ts)) (Spends (ts.map Token.normal) fun es =>
      (es.map Node.lexemes).flatMap (TokenKind.comma.lexeme :: ·) ++ [close.lexeme]) := by
  induction hl : ts.length using Nat.strong_induction_on generalizing ts with
  | _ l ihl =>
    subst hl
    cases ts with
    | nil =>
      rw [outcome_moreUntil_nil]
      exact Ensures.error _
    | cons t ts =>
      rw [List.length_cons] at hlength ihl
      rw [outcome_moreUntil_cons]
      split
      case isTrue h => exact Ensures.ok ⟨by simp [hts.normal_head h hclose], hts.tail⟩
      split
      case isTrue h =>
        have ht := hts.normal_head h (by decide)
        refine Ensures.bind (ih ts hlength hts.tail) ?_
        rintro next rest ⟨hnext, hrest⟩ _
        refine Ensures.bind (ihl rest.length (by omega) (by omega) hrest rfl) ?_
        rintro others rest ⟨hothers, hrest⟩ _
        exact Ensures.ok ⟨by simp [ht, hnext, hothers], hrest⟩
      case isFalse => exact Ensures.error _

theorem spends_listUntil (ih : SpendsBelow n) {close : TokenKind} (hclose : close ∉ TokenKind.several)
    (hlength : ts.length < n) (hts : AllValid ts) :
    Ensures (outcome (listUntil close ts)) (Spends (ts.map Token.normal) fun es =>
      Node.listed (es.map Node.lexemes) ++ [close.lexeme]) := by
  rw [outcome_listUntil]
  split
  · refine Ensures.bind (spends_take hclose hts) ?_
    rintro _ rest ⟨hend, hrest⟩ _
    exact Ensures.ok ⟨by simp [hend, Node.listed, List.intercalate], hrest⟩
  · refine Ensures.bind (ih ts hlength hts) ?_
    rintro first rest ⟨hfirst, hrest⟩ _
    refine Ensures.bind (spends_moreUntil ih hclose (by omega) hrest) ?_
    rintro others rest ⟨hothers, hrest⟩ _
    exact Ensures.ok ⟨by simp [hfirst, hothers, Node.listed_cons], hrest⟩

theorem spends_primary (ih : SpendsBelow n) (hlength : ts.length ≤ n) (hts : AllValid ts) :
    Ensures (outcome (primary ts)) (Spends (ts.map Token.normal) Node.lexemes) := by
  cases ts with
  | nil =>
    rw [outcome_primary_nil]
    exact Ensures.error _
  | cons t ts =>
    rw [List.length_cons] at hlength
    rw [outcome_primary_cons]
    split
    case h_1 h =>
      exact Ensures.ok ⟨by simp [Token.normal, h, literal, Node.lexemes_intLiteral], hts.tail⟩
    case h_2 h =>
      exact Ensures.ok ⟨by simp [hts.normal_head h, TokenKind.several, literal, Node.lexemes_boolLiteral],
        hts.tail⟩
    case h_3 h =>
      exact Ensures.ok ⟨by simp [hts.normal_head h, TokenKind.several, literal, Node.lexemes_boolLiteral],
        hts.tail⟩
    case h_4 h =>
      exact Ensures.ok ⟨by simp [hts.normal_head h, TokenKind.several, Node.plain, Node.lexemes_thisRef],
        hts.tail⟩
    case h_5 h =>
      exact Ensures.ok ⟨by simp [hts.normal_word, h, Node.reference, Node.named, Node.lexemes_varRef],
        hts.tail⟩
    case h_6 h =>
      have ht := hts.normal_head h (by decide)
      refine Ensures.bind (ih ts hlength hts.tail) ?_
      rintro e rest ⟨he, hrest⟩ _
      refine Ensures.bind (spends_take (by decide) hrest) ?_
      rintro _ rest ⟨hclose, hrest⟩ _
      exact Ensures.ok ⟨by simp [ht, he, hclose, Node.plain, Node.lexemes_paren], hrest⟩
    case h_7 h =>
      have ht := hts.normal_head h (by decide)
      refine Ensures.bind (spends_listUntil ih (by decide) hlength hts.tail) ?_
      rintro elements rest ⟨helements, hrest⟩ _
      exact Ensures.ok ⟨by simp [ht, helements, Node.plain, Node.lexemes_arrayLiteral], hrest⟩
    case h_8 h =>
      have ht := hts.normal_head h (by decide)
      refine Ensures.bind (spends_baseType hts.tail) ?_
      rintro name rest ⟨hname, hrest⟩ _
      dsimp only
      split
      case isTrue =>
        refine Ensures.bind (spends_take (by decide) hrest) ?_
        rintro _ rest ⟨hopen, hrest⟩ _
        refine Ensures.bind (spends_take (by decide) hrest) ?_
        rintro _ rest ⟨hclose, hrest⟩ _
        exact Ensures.ok ⟨by simp [ht, hname, hopen, hclose, Node.named, Node.lexemes_newObject], hrest⟩
      case isFalse =>
        refine Ensures.bind (spends_take (by decide) hrest) ?_
        rintro _ rest₁ ⟨hopen, hrest⟩ _
        refine Ensures.bind (ih rest₁ (by omega) hrest) ?_
        rintro size rest ⟨hsize, hrest⟩ _
        refine Ensures.bind (spends_take (by decide) hrest) ?_
        rintro _ rest ⟨hclose, hrest⟩ _
        exact Ensures.ok ⟨by simp [ht, hname, hopen, hsize, hclose, Node.named, Node.lexemes_newArray], hrest⟩
    case h_9 => exact Ensures.error _

/-- What is read after a receiver starts with the tokens of the receiver. -/
theorem spends_suffixes (ih : SpendsBelow n) (receiver : Node) (hlength : ts.length ≤ n)
    (hts : AllValid ts) :
    Ensures (outcome (suffixes receiver ts))
      (Spends (receiver.lexemes ++ ts.map Token.normal) Node.lexemes) := by
  induction hl : ts.length using Nat.strong_induction_on generalizing ts receiver with
  | _ l ihl =>
    subst hl
    cases ts with
    | nil =>
      rw [outcome_suffixes_nil]
      exact Ensures.ok ⟨rfl, hts⟩
    | cons t ts =>
      rw [List.length_cons] at hlength ihl
      by_cases hbracket : t.kind = .leftBracket
      · have ht := hts.normal_head hbracket (by decide)
        rw [outcome_suffixes_bracket receiver ts hbracket]
        refine Ensures.bind (ih ts hlength hts.tail) ?_
        rintro index rest ⟨hindex, hrest⟩ _
        refine Ensures.bind (spends_take (by decide) hrest) ?_
        rintro _ rest ⟨hclose, hrest⟩ _
        refine (ihl rest.length (by omega) _ (by omega) hrest rfl).mono fun e rest he => ⟨?_, he.2⟩
        simp [← he.1, ht, hindex, hclose, Node.plain, Node.lexemes_arrayAccess]
      by_cases hdot : t.kind = .dot
      · have ht := hts.normal_head hdot (by decide)
        rw [outcome_suffixes_dot receiver ts hdot]
        refine Ensures.bind (spends_member hts.tail) ?_
        rintro name rest ⟨hlengthWord, hname, hrest⟩ _
        dsimp only
        split
        case isTrue h =>
          have hword : Lexeme.word name.text = TokenKind.lengthWord.lexeme := by
            rw [hlengthWord h.1]
            decide
          refine (ihl rest.length (by omega) _ (by omega) hrest rfl).mono fun e rest he => ⟨?_, he.2⟩
          simp [← he.1, ht, hname, hword, Node.plain, Node.lexemes_length]
        case isFalse =>
          refine Ensures.bind (spends_take (by decide) hrest) ?_
          rintro _ rest ⟨hopen, hrest⟩ _
          dsimp only
          refine Ensures.bind (spends_listUntil ih (by decide) (by omega) hrest) ?_
          rintro args rest ⟨hargs, hrest⟩ _
          dsimp only
          refine (ihl rest.length (by omega) _ (by omega) hrest rfl).mono fun e rest he => ⟨?_, he.2⟩
          simp [← he.1, ht, hname, hopen, hargs, Node.named, Node.lexemes_call]
      · rw [outcome_suffixes_other receiver ts hbracket hdot]
        exact Ensures.ok ⟨rfl, hts⟩

theorem spends_unary (ih : SpendsBelow n) (hlength : ts.length ≤ n) (hts : AllValid ts) :
    Ensures (outcome (unary ts)) (Spends (ts.map Token.normal) Node.lexemes) := by
  induction ts with
  | nil =>
    rw [outcome_unary_nil]
    exact Ensures.error _
  | cons op ts iht =>
    rw [outcome_unary_cons]
    split
    case isTrue hop =>
      have hspelling : Lexeme.operator op.text = TokenKind.not.lexeme := by
        rw [Lexeme.spelling_of_valid (hts.valid_head hop (by decide)) (by decide)]
        decide
      refine Ensures.bind (iht (by simp at hlength; omega) hts.tail) ?_
      rintro operand rest ⟨hoperand, hrest⟩ _
      exact Ensures.ok ⟨by simp [hts.normal_head hop, TokenKind.several, hoperand, hspelling,
        Node.lexemes_unary], hrest⟩
    case isFalse =>
      refine Ensures.bind (spends_primary ih hlength hts) ?_
      rintro receiver rest ⟨hreceiver, hrest⟩ _
      refine (spends_suffixes ih receiver (by omega) hrest).mono fun e rest he => ⟨?_, he.2⟩
      rw [hreceiver, he.1]

theorem spends_operands {level : Nat} (hlevel : level < 6)
    (hbinary : ∀ ts : List Token, ts.length ≤ n → AllValid ts →
      Ensures (outcome (binary level ts)) (Spends (ts.map Token.normal) Node.lexemes))
    (left : Node) (hlength : ts.length ≤ n) (hts : AllValid ts) :
    Ensures (outcome (operands level left ts))
      (Spends (left.lexemes ++ ts.map Token.normal) Node.lexemes) := by
  induction hl : ts.length using Nat.strong_induction_on generalizing ts left with
  | _ l ihl =>
    subst hl
    cases ts with
    | nil =>
      rw [outcome_operands_nil]
      exact Ensures.ok ⟨rfl, hts⟩
    | cons op ts =>
      rw [List.length_cons] at hlength ihl
      rw [outcome_operands_cons]
      split
      case isFalse => exact Ensures.ok ⟨rfl, hts⟩
      case isTrue hkind =>
        have hne : ∀ level < 6, operatorAt level ≠ .illegal ∧ operatorAt level ≠ .integer := by decide
        have hop : op.normal = Lexeme.operator op.text := by
          rw [Token.normal_of_kind hkind (hne level hlevel).2,
            Lexeme.operator_of_level hlevel (hts.valid_head hkind (hne level hlevel).1)]
        refine Ensures.bind (hbinary ts (by omega) hts.tail) ?_
        rintro right rest ⟨hright, hrest⟩ _
        refine (ihl rest.length (by omega) _ (by omega) hrest rfl).mono fun e rest he => ⟨?_, he.2⟩
        simp [← he.1, hop, hright, binaryNode, Node.lexemes_binary]

theorem spends_binary (ih : SpendsBelow n) {level : Nat} (hlevel : level ≤ 6) (hlength : ts.length ≤ n)
    (hts : AllValid ts) :
    Ensures (outcome (binary level ts)) (Spends (ts.map Token.normal) Node.lexemes) := by
  induction level generalizing ts with
  | zero =>
    rw [outcome_binary_zero]
    exact spends_unary ih hlength hts
  | succ level ihlevel =>
    rw [outcome_binary_succ]
    refine Ensures.bind (ihlevel (by omega) hlength hts) ?_
    rintro left rest ⟨hleft, hrest⟩ _
    refine (spends_operands hlevel (fun ts hlength hts => ihlevel (by omega) hlength hts) left (by omega)
      hrest).mono fun e rest he => ⟨?_, he.2⟩
    rw [hleft, he.1]

end

/-- Every expression that is read spends the tokens that it is printed with. -/
theorem spends_expression (hts : AllValid ts) :
    Ensures (outcome (expression ts)) (Spends (ts.map Token.normal) Node.lexemes) := by
  have hbelow : ∀ n, SpendsBelow n := by
    intro n
    induction n with
    | zero => exact fun ts hlength => absurd hlength (Nat.not_lt_zero _)
    | succ n ih =>
      intro ts hlength hts
      rw [outcome_expression]
      exact spends_binary ih (Nat.le_refl 6) (by omega) hts
  exact hbelow (ts.length + 1) ts (Nat.lt_succ_self _) hts

end Reader
end JmmCompiler

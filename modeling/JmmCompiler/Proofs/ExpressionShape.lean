import JmmCompiler.Proofs.Lexing
import JmmCompiler.Proofs.Readers
import JmmCompiler.Proofs.Results
import JmmCompiler.Types.Operator
/-! The shape of expressions: which expression may stand where without parentheses. Every expression that
is read has this shape. -/
namespace JmmCompiler

/-- The token classes with more than one spelling. -/
def TokenKind.several : List TokenKind :=
  [.integer, .identifier, .illegal, .equalityOp, .orderOp, .addOp, .mulOp]

/-- How loosely an operator binds. Postfix and primary expressions bind tighter than 1, which is how `!`
binds. -/
def Lexeme.looseness (op : String) : Nat :=
  match op with
  | "*" | "/" => 2
  | "+" | "-" => 3
  | "<" | "<=" | ">" | ">=" => 4
  | "==" | "!=" => 5
  | "&&" => 6
  | "||" => 7
  | _ => 1

/-- A name of a type without brackets. -/
def Lexeme.IsTypeName (s : String) : Prop := IsName s ∨ s = "int" ∨ s = "boolean" ∨ s = "void"

theorem Lexeme.IsTypeName.isWord {s : String} (h : IsTypeName s) : IsWord s := by
  rcases h with h | rfl | rfl | rfl
  · exact h.1
  · exact TokenKind.isWord_of_mem_keywords (w := ("int", .intWord)) (by decide)
  · exact TokenKind.isWord_of_mem_keywords (w := ("boolean", .booleanWord)) (by decide)
  · exact TokenKind.isWord_of_mem_keywords (w := ("void", .voidWord)) (by decide)

namespace Node

def looseness (n : Node) : Nat :=
  match n.kind with
  | .binary => Lexeme.looseness (n.spelled "op")
  | .unary => 1
  | _ => 0

/-- Trees of expressions. The left operand of an operator binds at least as tightly as the operator and the
right operand tighter, `!` is applied to what binds as tightly, and what is indexed, measured or called is a
postfix or primary expression. -/
inductive IsExpression : Node → Prop
  | intLiteral (value : Nat) (p : Position) :
      IsExpression ⟨.intLiteral, ⟨[("value", .int value)]⟩, [], p⟩
  | boolLiteral (value : Bool) (p : Position) :
      IsExpression ⟨.boolLiteral, ⟨[("value", .bool value)]⟩, [], p⟩
  | thisRef (p : Position) : IsExpression ⟨.thisRef, {}, [], p⟩
  | varRef {name : String} (hname : Lexeme.IsName name) (p : Position) :
      IsExpression ⟨.varRef, ⟨[("name", .text name)]⟩, [], p⟩
  | paren {inner : Node} (hinner : IsExpression inner) (p : Position) :
      IsExpression ⟨.paren, {}, [inner], p⟩
  | newObject {name : String} (hname : Lexeme.IsName name) (p : Position) :
      IsExpression ⟨.newObject, ⟨[("name", .text name)]⟩, [], p⟩
  | newArray {name : String} {size : Node} (hname : Lexeme.IsTypeName name) (hsize : IsExpression size)
      (p : Position) : IsExpression ⟨.newArray, ⟨[("name", .text name)]⟩, [size], p⟩
  | arrayLiteral {elements : List Node} (helements : ∀ e ∈ elements, IsExpression e) (p : Position) :
      IsExpression ⟨.arrayLiteral, {}, elements, p⟩
  | arrayAccess {array index : Node} (harray : IsExpression array) (hindex : IsExpression index)
      (htight : array.looseness = 0) (p : Position) :
      IsExpression ⟨.arrayAccess, {}, [array, index], p⟩
  | length {array : Node} (harray : IsExpression array) (htight : array.looseness = 0) (p : Position) :
      IsExpression ⟨.length, {}, [array], p⟩
  | call {name : String} {receiver : Node} {args : List Node}
      (hname : Lexeme.IsName name ∨ name = "length") (hreceiver : IsExpression receiver)
      (hargs : ∀ e ∈ args, IsExpression e) (htight : receiver.looseness = 0) (p : Position) :
      IsExpression ⟨.call, ⟨[("name", .text name)]⟩, receiver :: args, p⟩
  | unary {operand : Node} (hoperand : IsExpression operand) (htight : operand.looseness ≤ 1)
      (p : Position) : IsExpression ⟨.unary, ⟨[("op", .text "!")]⟩, [operand], p⟩
  | binary {op : String} {left right : Node} (hop : (Operator.ofSymbol? op).isSome)
      (hleft : IsExpression left) (hright : IsExpression right)
      (hleftTight : left.looseness ≤ Lexeme.looseness op)
      (hrightTight : right.looseness < Lexeme.looseness op) (p : Position) :
      IsExpression ⟨.binary, ⟨[("op", .text op)]⟩, [left, right], p⟩

end Node

namespace Lexeme

/-- The operators of a level are those that bind as loosely. -/
theorem operator_of_valid {level : Nat} (hlevel : level < 6) {op : String}
    (h : Valid (Reader.operatorAt level, op)) :
    (Operator.ofSymbol? op).isSome ∧ looseness op = level + 2 := by
  have hne : Reader.operatorAt level ≠ .identifier ∧ Reader.operatorAt level ≠ .integer := by
    unfold Reader.operatorAt
    split <;> decide
  have hall : ∀ level < 6, ∀ word ∈ TokenKind.keywords, word.2 ≠ Reader.operatorAt level := by decide
  have hsymbols : ∀ level < 6, ∀ symbol ∈ TokenKind.symbols, symbol.2 = Reader.operatorAt level →
      (Operator.ofSymbol? (String.ofList symbol.1)).isSome ∧
        looseness (String.ofList symbol.1) = level + 2 := by decide
  rcases (valid_iff hne.1 hne.2).1 h with hmem | hmem
  · exact absurd rfl (hall level hlevel _ hmem)
  · simpa using hsymbols level hlevel _ hmem rfl

/-- The level of an operator. -/
theorem level_of_operator {op : String} (h : (Operator.ofSymbol? op).isSome) :
    ∃ level < 6, looseness op = level + 2 ∧ operator op = (Reader.operatorAt level, op) ∧
      Valid (operator op) := by
  unfold Operator.ofSymbol? at h
  split at h
  case h_7 =>
    unfold Comparison.ofSymbol? at h
    split at h
    · exact ⟨2, by decide, by decide, by decide, .inr (by decide)⟩
    · exact ⟨2, by decide, by decide, by decide, .inr (by decide)⟩
    · exact ⟨2, by decide, by decide, by decide, .inr (by decide)⟩
    · exact ⟨2, by decide, by decide, by decide, .inr (by decide)⟩
    · exact ⟨3, by decide, by decide, by decide, .inr (by decide)⟩
    · exact ⟨3, by decide, by decide, by decide, .inr (by decide)⟩
    · simp at h
  · exact ⟨1, by decide, by decide, by decide, .inr (by decide)⟩
  · exact ⟨1, by decide, by decide, by decide, .inr (by decide)⟩
  · exact ⟨0, by decide, by decide, by decide, .inr (by decide)⟩
  · exact ⟨0, by decide, by decide, by decide, .inr (by decide)⟩
  · exact ⟨4, by decide, by decide, by decide, .inr (by decide)⟩
  · exact ⟨5, by decide, by decide, by decide, .inr (by decide)⟩

/-- The spelling of a token whose class has only one. -/
theorem spelling_of_valid {k : TokenKind} {s : String} (h : Valid (k, s)) (hk : k ∉ TokenKind.several) :
    s = k.spelling := by
  have hwords : ∀ word ∈ TokenKind.keywords, word.1 = word.2.spelling := by decide
  have hsymbols : ∀ symbol ∈ TokenKind.symbols, symbol.2 ∉ TokenKind.several →
      symbol.1 = symbol.2.spelling.toList := by decide
  have hne : k ≠ .identifier ∧ k ≠ .integer := by
    constructor <;> rintro rfl <;> simp [TokenKind.several] at hk
  rcases (valid_iff hne.1 hne.2).1 h with hmem | hmem
  · exact hwords _ hmem
  · exact String.toList_inj.1 (hsymbols _ hmem hk)

end Lexeme

/-- All tokens that start with a known character are spelled as their classes demand. -/
def Lexer.AllValid (ts : List Token) : Prop := ∀ t ∈ ts, t.kind ≠ .illegal → t.lexeme.Valid

namespace Reader
variable {ts : List Token}
open Lexer (AllValid)

theorem ensures_take {kind : TokenKind} (hkind : kind ≠ .illegal) (hts : AllValid ts) :
    Ensures (outcome (take kind ts)) fun t rest =>
      t.kind = kind ∧ Lexeme.Valid (kind, t.text) ∧ AllValid rest := by
  cases ts with
  | nil => exact Ensures.error _
  | cons t ts =>
    rw [outcome_take_cons]
    split
    case isFalse => exact Ensures.error _
    case isTrue h =>
      have hvalid := hts t (by simp) (h ▸ hkind)
      exact Ensures.ok ⟨h, h ▸ hvalid, fun t ht => hts t (by simp [ht])⟩

theorem ensures_baseType (hts : AllValid ts) :
    Ensures (outcome (baseType ts)) fun t rest =>
      Lexeme.IsTypeName t.text ∧ (t.kind = .identifier → Lexeme.IsName t.text) ∧ AllValid rest := by
  cases ts with
  | nil => exact Ensures.error _
  | cons t ts =>
    rw [outcome_baseType_cons]
    split
    case isFalse => exact Ensures.error _
    case isTrue h =>
      have hrest : AllValid ts := fun t ht => hts t (by simp [ht])
      have hvalid : Lexeme.Valid (t.kind, t.text) := hts t (by simp) (by rintro heq; simp [heq] at h)
      simp only [List.mem_cons, List.not_mem_nil, or_false] at h
      refine Ensures.ok ⟨?_, fun hname => by rw [hname] at hvalid; exact hvalid, hrest⟩
      unfold Lexeme.IsTypeName
      rcases h with h | h | h | h <;> rw [h] at hvalid
      · exact .inr (.inl (Lexeme.spelling_of_valid hvalid (by decide)))
      · exact .inr (.inr (.inl (Lexeme.spelling_of_valid hvalid (by decide))))
      · exact .inr (.inr (.inr (Lexeme.spelling_of_valid hvalid (by decide))))
      · exact .inl hvalid

theorem ensures_member (hts : AllValid ts) :
    Ensures (outcome (member ts)) fun t rest =>
      (Lexeme.IsName t.text ∨ t.text = "length") ∧ AllValid rest := by
  cases ts with
  | nil => exact Ensures.error _
  | cons t ts =>
    rw [outcome_member_cons]
    split
    case isFalse => exact Ensures.error _
    case isTrue h =>
      have hrest : AllValid ts := fun t ht => hts t (by simp [ht])
      have hvalid : Lexeme.Valid (t.kind, t.text) := hts t (by simp) (by rintro heq; simp [heq] at h)
      refine Ensures.ok ⟨?_, hrest⟩
      rcases h with h | h <;> rw [h] at hvalid
      · exact .inl hvalid
      · exact .inr (Lexeme.spelling_of_valid hvalid (by decide))

/-! Every reader of expressions, where those that are read from fewer than `n` tokens are known to have the
shape. -/

section
variable {n : Nat}

/-- What is read from fewer than `n` tokens has the shape of an expression. -/
def ShapedBelow (n : Nat) : Prop :=
  ∀ ts : List Token, ts.length < n → AllValid ts →
    Ensures (outcome (expression ts)) fun e rest => e.IsExpression ∧ AllValid rest

theorem ensures_moreUntil (ih : ShapedBelow n) (close : TokenKind) (hlength : ts.length ≤ n)
    (hts : AllValid ts) :
    Ensures (outcome (moreUntil close ts)) fun es rest =>
      (∀ e ∈ es, e.IsExpression) ∧ AllValid rest := by
  induction hl : ts.length using Nat.strong_induction_on generalizing ts with
  | _ l ihl =>
    subst hl
    cases ts with
    | nil =>
      rw [outcome_moreUntil_nil]
      exact Ensures.error _
    | cons t ts =>
      have hvalid : AllValid ts := fun t ht => hts t (by simp [ht])
      rw [List.length_cons] at hlength
      rw [outcome_moreUntil_cons]
      split
      · exact Ensures.ok ⟨by simp, hvalid⟩
      split
      · refine Ensures.bind (ih ts hlength hvalid) ?_
        rintro next rest ⟨hnext, hrest⟩ hbound
        refine Ensures.bind (ihl _ (by simp; omega) (by omega) hrest rfl) ?_
        rintro others rest ⟨hothers, hrest⟩ _
        exact Ensures.ok ⟨by simpa using ⟨hnext, hothers⟩, hrest⟩
      · exact Ensures.error _

theorem ensures_listUntil (ih : ShapedBelow n) {close : TokenKind} (hclose : close ≠ .illegal)
    (hlength : ts.length < n) (hts : AllValid ts) :
    Ensures (outcome (listUntil close ts)) fun es rest =>
      (∀ e ∈ es, e.IsExpression) ∧ AllValid rest := by
  rw [outcome_listUntil]
  split
  · refine Ensures.bind (ensures_take hclose hts) ?_
    rintro _ rest ⟨_, _, hrest⟩ _
    exact Ensures.ok ⟨by simp, hrest⟩
  · refine Ensures.bind (ih ts hlength hts) ?_
    rintro first rest ⟨hfirst, hrest⟩ hbound
    refine Ensures.bind (ensures_moreUntil ih close (by omega) hrest) ?_
    rintro others rest ⟨hothers, hrest⟩ _
    exact Ensures.ok ⟨by simpa using ⟨hfirst, hothers⟩, hrest⟩

theorem ensures_primary (ih : ShapedBelow n) (hlength : ts.length ≤ n) (hts : AllValid ts) :
    Ensures (outcome (primary ts)) fun e rest =>
      (e.IsExpression ∧ e.looseness = 0) ∧ AllValid rest := by
  cases ts with
  | nil =>
    rw [outcome_primary_nil]
    exact Ensures.error _
  | cons t ts =>
    rw [List.length_cons] at hlength
    have hvalid : AllValid ts := fun t ht => hts t (by simp [ht])
    rw [outcome_primary_cons]
    split
    case h_1 => exact Ensures.ok ⟨⟨.intLiteral _ _, rfl⟩, hvalid⟩
    case h_2 => exact Ensures.ok ⟨⟨.boolLiteral _ _, rfl⟩, hvalid⟩
    case h_3 => exact Ensures.ok ⟨⟨.boolLiteral _ _, rfl⟩, hvalid⟩
    case h_4 => exact Ensures.ok ⟨⟨.thisRef _, rfl⟩, hvalid⟩
    case h_5 hkind =>
      have hname : Lexeme.Valid (t.kind, t.text) := hts t (by simp) (by simp [hkind])
      rw [hkind] at hname
      exact Ensures.ok ⟨⟨.varRef hname _, rfl⟩, hvalid⟩
    case h_6 =>
      refine Ensures.bind (ih ts hlength hvalid) ?_
      rintro e rest ⟨he, hrest⟩ _
      refine Ensures.bind (ensures_take (by decide) hrest) ?_
      rintro _ rest ⟨_, _, hrest⟩ _
      exact Ensures.ok ⟨⟨.paren he _, rfl⟩, hrest⟩
    case h_7 =>
      refine Ensures.bind (ensures_listUntil ih (by decide) hlength hvalid) ?_
      rintro elements rest ⟨helements, hrest⟩ _
      exact Ensures.ok ⟨⟨.arrayLiteral helements _, rfl⟩, hrest⟩
    case h_8 =>
      refine Ensures.bind (ensures_baseType hvalid) ?_
      rintro name rest ⟨htype, hname, hrest⟩ _
      dsimp only
      split
      case isTrue h =>
        refine Ensures.bind (ensures_take (by decide) hrest) ?_
        rintro _ rest ⟨_, _, hrest⟩ _
        refine Ensures.bind (ensures_take (by decide) hrest) ?_
        rintro _ rest ⟨_, _, hrest⟩ _
        exact Ensures.ok ⟨⟨.newObject (hname h.1) _, rfl⟩, hrest⟩
      case isFalse =>
        refine Ensures.bind (ensures_take (by decide) hrest) ?_
        rintro _ rest₁ ⟨_, _, hrest⟩ _
        refine Ensures.bind (ih rest₁ (by omega) hrest) ?_
        rintro size rest ⟨hsize, hrest⟩ _
        refine Ensures.bind (ensures_take (by decide) hrest) ?_
        rintro _ rest ⟨_, _, hrest⟩ _
        exact Ensures.ok ⟨⟨.newArray htype hsize _, rfl⟩, hrest⟩
    case h_9 => exact Ensures.error _

theorem ensures_suffixes (ih : ShapedBelow n) {receiver : Node} (hreceiver : receiver.IsExpression)
    (htight : receiver.looseness = 0) (hlength : ts.length ≤ n) (hts : AllValid ts) :
    Ensures (outcome (suffixes receiver ts)) fun e rest =>
      (e.IsExpression ∧ e.looseness = 0) ∧ AllValid rest := by
  induction hl : ts.length using Nat.strong_induction_on generalizing ts receiver with
  | _ l ihl =>
    subst hl
    cases ts with
    | nil =>
      rw [outcome_suffixes_nil]
      exact Ensures.ok ⟨⟨hreceiver, htight⟩, hts⟩
    | cons t ts =>
      rw [List.length_cons] at hlength ihl
      have hvalid : AllValid ts := fun t ht => hts t (by simp [ht])
      by_cases hbracket : t.kind = .leftBracket
      · rw [outcome_suffixes_bracket receiver ts hbracket]
        refine Ensures.bind (ih ts hlength hvalid) ?_
        rintro index rest ⟨hindex, hrest⟩ _
        refine Ensures.bind (ensures_take (by decide) hrest) ?_
        rintro _ rest ⟨_, _, hrest⟩ _
        exact ihl rest.length (by omega) (.arrayAccess hreceiver hindex htight _) rfl (by omega) hrest rfl
      by_cases hdot : t.kind = .dot
      · rw [outcome_suffixes_dot receiver ts hdot]
        refine Ensures.bind (ensures_member hvalid) ?_
        rintro name rest ⟨hname, hrest⟩ _
        dsimp only
        split
        · exact ihl rest.length (by omega) (.length hreceiver htight _) rfl (by omega) hrest rfl
        · refine Ensures.bind (ensures_take (by decide) hrest) ?_
          rintro _ rest ⟨_, _, hrest⟩ _
          dsimp only
          refine Ensures.bind (ensures_listUntil ih (by decide) (by omega) hrest) ?_
          rintro args rest ⟨hargs, hrest⟩ _
          dsimp only
          exact ihl rest.length (by omega) (.call hname hreceiver hargs htight _) rfl (by omega) hrest rfl
      · rw [outcome_suffixes_other receiver ts hbracket hdot]
        exact Ensures.ok ⟨⟨hreceiver, htight⟩, hts⟩

theorem ensures_unary (ih : ShapedBelow n) (hlength : ts.length ≤ n) (hts : AllValid ts) :
    Ensures (outcome (unary ts)) fun e rest => (e.IsExpression ∧ e.looseness ≤ 1) ∧ AllValid rest := by
  induction ts with
  | nil =>
    rw [outcome_unary_nil]
    exact Ensures.error _
  | cons op ts iht =>
    have hvalid : AllValid ts := fun t ht => hts t (by simp [ht])
    rw [outcome_unary_cons]
    split
    case isTrue hop =>
      refine Ensures.bind (iht (by simp at hlength; omega) hvalid) ?_
      rintro operand rest ⟨⟨hoperand, htight⟩, hrest⟩ _
      have hspelling : Lexeme.Valid (op.kind, op.text) := hts op (by simp) (by simp [hop])
      rw [hop] at hspelling
      have htext : op.text = "!" := Lexeme.spelling_of_valid hspelling (by decide)
      rw [htext]
      exact Ensures.ok ⟨⟨.unary hoperand htight _, Nat.le_refl 1⟩, hrest⟩
    case isFalse =>
      refine Ensures.bind (ensures_primary ih hlength hts) ?_
      rintro receiver rest ⟨⟨hreceiver, htight⟩, hrest⟩ _
      refine (ensures_suffixes ih hreceiver htight (by omega) hrest).mono fun e rest he => ?_
      exact ⟨⟨he.1.1, by omega⟩, he.2⟩

theorem ensures_operands {level : Nat} (hlevel : level < 6)
    (hbinary : ∀ ts : List Token, ts.length ≤ n → AllValid ts →
      Ensures (outcome (binary level ts)) fun e rest =>
        (e.IsExpression ∧ e.looseness ≤ level + 1) ∧ AllValid rest)
    {left : Node} (hleft : left.IsExpression) (htight : left.looseness ≤ level + 2)
    (hlength : ts.length ≤ n) (hts : AllValid ts) :
    Ensures (outcome (operands level left ts)) fun e rest =>
      (e.IsExpression ∧ e.looseness ≤ level + 2) ∧ AllValid rest := by
  induction hl : ts.length using Nat.strong_induction_on generalizing ts left with
  | _ l ihl =>
    subst hl
    cases ts with
    | nil =>
      rw [outcome_operands_nil]
      exact Ensures.ok ⟨⟨hleft, htight⟩, hts⟩
    | cons op ts =>
      rw [List.length_cons] at hlength ihl
      have hvalid : AllValid ts := fun t ht => hts t (by simp [ht])
      rw [outcome_operands_cons]
      split
      case isFalse => exact Ensures.ok ⟨⟨hleft, htight⟩, hts⟩
      case isTrue hkind =>
        have hspelling : Lexeme.Valid (op.kind, op.text) := hts op (by simp) (by
          rw [hkind, operatorAt.eq_def]
          split <;> simp)
        rw [hkind] at hspelling
        obtain ⟨hop, hloose⟩ := Lexeme.operator_of_valid hlevel hspelling
        refine Ensures.bind (hbinary ts (by omega) hvalid) ?_
        rintro right rest ⟨⟨hright, hrightTight⟩, hrest⟩ _
        have hnode : (binaryNode op left right).IsExpression :=
          .binary hop hleft hright (by omega) (by omega) _
        exact ihl rest.length (by omega) hnode (Nat.le_of_eq hloose) (by omega) hrest rfl

theorem ensures_binary (ih : ShapedBelow n) {level : Nat} (hlevel : level ≤ 6) (hlength : ts.length ≤ n)
    (hts : AllValid ts) :
    Ensures (outcome (binary level ts)) fun e rest =>
      (e.IsExpression ∧ e.looseness ≤ level + 1) ∧ AllValid rest := by
  induction level generalizing ts with
  | zero =>
    rw [outcome_binary_zero]
    exact ensures_unary ih hlength hts
  | succ level ihlevel =>
    rw [outcome_binary_succ]
    refine Ensures.bind (ihlevel (by omega) hlength hts) ?_
    rintro left rest ⟨⟨hleft, htight⟩, hrest⟩ _
    exact ensures_operands hlevel (fun ts hlength hts => ihlevel (by omega) hlength hts) hleft (by omega)
      (by omega) hrest

end

/-- Every expression that is read has the shape. -/
theorem ensures_expression (hts : AllValid ts) :
    Ensures (outcome (expression ts)) fun e rest => e.IsExpression ∧ AllValid rest := by
  have hbelow : ∀ n, ShapedBelow n := by
    intro n
    induction n with
    | zero => exact fun ts hlength => absurd hlength (Nat.not_lt_zero _)
    | succ n ih =>
      intro ts hlength hts
      rw [outcome_expression]
      exact (ensures_binary ih (Nat.le_refl 6) (by omega) hts).mono fun e rest he => ⟨he.1.1, he.2⟩
  exact hbelow (ts.length + 1) ts (Nat.lt_succ_self _) hts

end Reader
end JmmCompiler

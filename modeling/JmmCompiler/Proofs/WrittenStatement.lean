import JmmCompiler.Proofs.PrintedStatement
import JmmCompiler.Proofs.SpentTokens
/-! Statements as they are written, with their declarations in place. What is read from a body spends the
tokens of its items, and no declaration is among those that are lost. -/
namespace JmmCompiler

mutual
/-- The tokens of a statement and of the declarations in it. -/
def Statement.lexemes : Statement → List Lexeme
  | .block _ items => TokenKind.lexeme .leftBrace :: (Item.allLexemes items ++ [TokenKind.lexeme .rightBrace])
  | .ifThen p c t => (Header.ifHeader p c).lexemes ++ t.lexemes
  | .ifElse p c t e =>
    (Header.ifHeader p c).lexemes ++ (t.lexemes ++ TokenKind.lexeme .elseWord :: e.lexemes)
  | .whileLoop p c b => (Header.whileHeader p c).lexemes ++ b.lexemes
  | .simple n => n.lexemes

def Item.lexemes : Item → List Lexeme
  | .declaration type name none => type.lexemes ++ [Lexeme.word name.text, TokenKind.lexeme .semicolon]
  | .declaration type name (some value) =>
    type.lexemes ++ Lexeme.word name.text :: TokenKind.lexeme .equals ::
      (value.lexemes ++ [TokenKind.lexeme .semicolon])
  | .statement s => s.lexemes

def Item.allLexemes : List Item → List Lexeme
  | [] => []
  | i :: is => i.lexemes ++ Item.allLexemes is
end

namespace Segment

/-- The tokens of a segment and of the declarations in it. -/
def written (s : Segment) : List Lexeme := s.headers.flatMap Header.lexemes ++ s.body.lexemes

theorem lexemes_resolve_written {first : Segment} {rest : List Segment} (h : complete 0 (first :: rest)) :
    (resolve first rest).lexemes =
      first.written ++ rest.flatMap (TokenKind.lexeme .elseWord :: ·.written) :=
  written_resolve (fun p c b => by rw [Statement.lexemes]) (fun p c t => by rw [Statement.lexemes])
    (fun p c t e => by rw [Statement.lexemes]) h

end Segment

namespace Reader
variable {ts : List Token} {n : Nat}
open Lexer (AllValid)

theorem spends_type (hts : AllValid ts) :
    Ensures (outcome (type ts)) (Spends (ts.map Token.normal) Node.lexemes) := by
  rw [outcome_type]
  refine Ensures.bind (spends_baseType hts) ?_
  rintro name rest ⟨hname, hrest⟩ _
  dsimp only
  split
  · refine Ensures.bind (spends_take (by decide) hrest) ?_
    rintro _ rest ⟨hopen, hrest⟩ _
    refine Ensures.bind (spends_take (by decide) hrest) ?_
    rintro _ rest ⟨hclose, hrest⟩ _
    exact Ensures.ok ⟨by simp [hname, hopen, hclose, typeRef, Node.lexemes_typeRef], hrest⟩
  · refine Ensures.bind (spends_take (by decide) hrest) ?_
    rintro _ rest ⟨hdots, hrest⟩ _
    exact Ensures.ok ⟨by simp [hname, hdots, typeRef, Node.lexemes_typeRef], hrest⟩
  · exact Ensures.ok ⟨by simp [hname, typeRef, Node.lexemes_typeRef], hrest⟩

theorem spends_declaration (hts : AllValid ts) :
    Ensures (outcome (declaration ts)) (Spends (ts.map Token.normal) Item.lexemes) := by
  rw [outcome_declaration]
  refine Ensures.bind (spends_type hts) ?_
  rintro type rest ⟨htype, hrest⟩ _
  refine Ensures.bind (spends_name hrest) ?_
  rintro name rest ⟨hname, hrest⟩ _
  dsimp only
  split
  · refine Ensures.bind (spends_take (by decide) hrest) ?_
    rintro _ rest ⟨hequals, hrest⟩ _
    refine Ensures.bind (spends_expression hrest) ?_
    rintro value rest ⟨hvalue, hrest⟩ _
    refine Ensures.bind (spends_take (by decide) hrest) ?_
    rintro _ rest ⟨hend, hrest⟩ _
    exact Ensures.ok ⟨by simp [htype, hname, hequals, hvalue, hend, Item.lexemes], hrest⟩
  · refine Ensures.bind (spends_take (by decide) hrest) ?_
    rintro _ rest ⟨hend, hrest⟩ _
    exact Ensures.ok ⟨by simp [htype, hname, hend, Item.lexemes], hrest⟩

/-- An assignment starts with the tokens of what is assigned to. -/
theorem lexemes_assignTo {target : Node} {assign : Node → Node} (h : assignTo? target = some assign)
    (value : Node) : (assign value).lexemes =
      target.lexemes ++ TokenKind.lexeme .equals :: (value.lexemes ++ [TokenKind.lexeme .semicolon]) := by
  unfold assignTo? at h
  split at h
  · cases h
    exact Node.lexemes_assign _ _ _
  · split at h
    case isFalse => cases h
    case isTrue =>
      cases h
      rename_i array index p _
      have htarget : ∀ a, Node.lexemes ⟨.arrayAccess, a, [array, index], p⟩ = array.lexemes ++
          TokenKind.lexeme .leftBracket :: (index.lexemes ++ [TokenKind.lexeme .rightBracket]) := by
        intro a
        rw [Node.lexemes_eq]
        simp
      simp [Node.plain, Node.lexemes_arrayAssign, htarget]
  · cases h

theorem spends_assignment (hts : AllValid ts) :
    Ensures (outcome (assignment ts)) (Spends (ts.map Token.normal) Node.lexemes) := by
  rw [outcome_assignment]
  refine Ensures.bind (spends_expression hts) ?_
  rintro target rest ⟨htarget, hrest⟩ _
  dsimp only
  split
  · split
    case h_2 => exact Ensures.error _
    case h_1 assign hassign =>
      refine Ensures.bind (spends_take (by decide) hrest) ?_
      rintro _ rest ⟨hequals, hrest⟩ _
      refine Ensures.bind (spends_expression hrest) ?_
      rintro value rest ⟨hvalue, hrest⟩ _
      refine Ensures.bind (spends_take (by decide) hrest) ?_
      rintro _ rest ⟨hend, hrest⟩ _
      exact Ensures.ok ⟨by simp [htarget, hequals, hvalue, hend, lexemes_assignTo hassign], hrest⟩
  · refine Ensures.bind (spends_take (by decide) hrest) ?_
    rintro _ rest ⟨hend, hrest⟩ _
    exact Ensures.ok ⟨by simp [htarget, hend, Node.plain, Node.lexemes_exprStmt], hrest⟩

theorem spends_returnStatement (hts : AllValid ts) :
    Ensures (outcome (returnStatement ts)) (Spends (ts.map Token.normal) Node.lexemes) := by
  rw [outcome_returnStatement]
  refine Ensures.bind (spends_take (by decide) hts) ?_
  rintro word rest ⟨hword, hrest⟩ _
  dsimp only
  split
  · refine Ensures.bind (spends_take (by decide) hrest) ?_
    rintro _ rest ⟨hend, hrest⟩ _
    exact Ensures.ok ⟨by simp [hword, hend, Node.plain, Node.lexemes_returnNothing], hrest⟩
  · refine Ensures.bind (spends_expression hrest) ?_
    rintro value rest ⟨hvalue, hrest⟩ _
    refine Ensures.bind (spends_take (by decide) hrest) ?_
    rintro _ rest ⟨hend, hrest⟩ _
    exact Ensures.ok ⟨by simp [hword, hvalue, hend, Node.plain, Node.lexemes_returnValue], hrest⟩

theorem spends_header (hword : front? ts = some .ifWord ∨ front? ts = some .whileWord) (hts : AllValid ts) :
    Ensures (outcome (header ts)) (Spends (ts.map Token.normal) Header.lexemes) := by
  cases ts with
  | nil => exact Ensures.error _
  | cons word ts =>
    rw [outcome_header_cons]
    refine Ensures.bind (spends_take (by decide) hts.tail) ?_
    rintro _ rest ⟨hopen, hrest⟩ _
    refine Ensures.bind (spends_expression hrest) ?_
    rintro condition rest ⟨hcondition, hrest⟩ _
    refine Ensures.bind (spends_take (by decide) hrest) ?_
    rintro _ rest ⟨hclose, hrest⟩ _
    have hkind : word.kind = .ifWord ∨ word.kind = .whileWord := by simpa [front?] using hword
    refine Ensures.ok ⟨?_, hrest⟩
    rcases hkind with hkind | hkind
    · have ht := hts.normal_head hkind (by decide)
      simp [hkind, ht, hopen, hcondition, hclose, Header.lexemes]
    · have ht := hts.normal_head hkind (by decide)
      simp [hkind, ht, hopen, hcondition, hclose, Header.lexemes]

/-! Blocks, chains and items, where the items of blocks with fewer than `n` tokens are known to spend
theirs. -/

section

def SpendsItemsBelow (n : Nat) : Prop :=
  ∀ ts : List Token, ts.length < n → AllValid ts →
    Ensures (outcome (items ts))
      (Spends (ts.map Token.normal) fun is => Item.allLexemes is ++ [TokenKind.lexeme .rightBrace])

/-- A header and the segment after it. -/
theorem spends_headed (hword : front? ts = some .ifWord ∨ front? ts = some .whileWord) (hts : AllValid ts)
    (ih : ∀ rest : List Token, rest.length < ts.length → AllValid rest →
      Ensures (outcome (segment rest)) (Spends (rest.map Token.normal) Segment.written)) :
    Ensures (do
      let (h, ts) ← outcome (header ts)
      let (s, ts) ← outcome (segment ts)
      return ((⟨h :: s.headers, s.body⟩ : Segment), ts)) (Spends (ts.map Token.normal) Segment.written) := by
  refine Ensures.bind (spends_header hword hts) ?_
  rintro h rest ⟨hh, hrest⟩ hless
  refine Ensures.bind (ih rest hless hrest) ?_
  rintro s rest ⟨hs, hrest⟩ _
  exact Ensures.ok ⟨by simp [hh, hs, Segment.written], hrest⟩

theorem spends_segment (ih : SpendsItemsBelow n) (hlength : ts.length ≤ n) (hts : AllValid ts) :
    Ensures (outcome (segment ts)) (Spends (ts.map Token.normal) Segment.written) := by
  induction hl : ts.length using Nat.strong_induction_on generalizing ts with
  | _ l ihl =>
    subst hl
    have hheaded := fun hword => spends_headed hword hts fun rest hless hrest =>
      ihl rest.length hless (by omega) hrest rfl
    rw [outcome_segment]
    split
    case h_1 hfront => exact hheaded (.inl hfront)
    case h_2 hfront => exact hheaded (.inr hfront)
    case h_3 =>
      refine Ensures.bind (spends_take (by decide) hts) ?_
      rintro brace rest ⟨hbrace, hrest⟩ _
      refine Ensures.bind (ih rest (by omega) hrest) ?_
      rintro body rest ⟨hbody, hrest⟩ _
      exact Ensures.ok ⟨by simp [hbrace, hbody, Segment.written, Statement.lexemes], hrest⟩
    case h_4 =>
      refine Ensures.bind (spends_returnStatement hts) ?_
      rintro s rest ⟨hs, hrest⟩ _
      exact Ensures.ok ⟨by simp [hs, Segment.written, Statement.lexemes], hrest⟩
    case h_5 =>
      refine Ensures.bind (spends_assignment hts) ?_
      rintro s rest ⟨hs, hrest⟩ _
      exact Ensures.ok ⟨by simp [hs, Segment.written, Statement.lexemes], hrest⟩

theorem spends_chain (ih : SpendsItemsBelow n) (waiting : Nat) (hlength : ts.length ≤ n)
    (hts : AllValid ts) :
    Ensures (outcome (chain waiting ts)) (Spends (ts.map Token.normal) fun parts =>
      parts.1.written ++ parts.2.flatMap (TokenKind.lexeme .elseWord :: ·.written)) := by
  induction hl : ts.length using Nat.strong_induction_on generalizing ts waiting with
  | _ l ihl =>
    subst hl
    rw [outcome_chain]
    refine Ensures.bind (spends_segment ih hlength hts) ?_
    rintro first rest ⟨hfirst, hrest⟩ _
    dsimp only
    split
    case isTrue =>
      refine Ensures.bind (spends_take (by decide) hrest) ?_
      rintro _ rest ⟨helse, hrest⟩ _
      dsimp only
      refine Ensures.bind (ihl rest.length (by omega) _ (by omega) hrest rfl) ?_
      rintro ⟨second, others⟩ rest ⟨hothers, hrest⟩ _
      exact Ensures.ok ⟨by simp [hfirst, helse, hothers], hrest⟩
    case isFalse => exact Ensures.ok ⟨by simp [hfirst], hrest⟩

theorem spends_statement (ih : SpendsItemsBelow n) (hlength : ts.length ≤ n) (hts : AllValid ts) :
    Ensures (outcome (statement ts)) (Spends (ts.map Token.normal) Statement.lexemes) := by
  have hcomplete := ensures_chain (n := ts.length) (fun _ _ hts => ensures_items hts) 0 (Nat.le_refl _) hts
  rw [outcome_statement]
  refine Ensures.bind (hcomplete.and (spends_chain ih 0 hlength hts)) ?_
  rintro ⟨first, others⟩ rest ⟨⟨⟨-, hcomplete⟩, -⟩, hchain, hrest⟩ _
  exact Ensures.ok ⟨by rw [hchain, Segment.lexemes_resolve_written hcomplete], hrest⟩

theorem spends_item (ih : SpendsItemsBelow n) (hlength : ts.length ≤ n) (hts : AllValid ts) :
    Ensures (outcome (item ts)) (Spends (ts.map Token.normal) Item.lexemes) := by
  rw [outcome_item]
  split
  · exact spends_declaration hts
  · refine Ensures.bind (spends_statement ih hlength hts) ?_
    rintro s rest ⟨hs, hrest⟩ _
    exact Ensures.ok ⟨by rw [hs, Item.lexemes], hrest⟩

end

/-- The items of a body spend their tokens, and so does the brace after them. -/
theorem spends_items (hts : AllValid ts) :
    Ensures (outcome (items ts))
      (Spends (ts.map Token.normal) fun is => Item.allLexemes is ++ [TokenKind.lexeme .rightBrace]) := by
  have hbelow : ∀ n, SpendsItemsBelow n := by
    intro n
    induction n with
    | zero => exact fun ts hlength => absurd hlength (Nat.not_lt_zero _)
    | succ n ih =>
      intro ts hlength hts
      rw [outcome_items]
      split
      · refine Ensures.bind (spends_take (by decide) hts) ?_
        rintro _ rest ⟨hend, hrest⟩ _
        exact Ensures.ok ⟨by simp [hend, Item.allLexemes], hrest⟩
      · refine Ensures.bind (spends_item ih (by omega) hts) ?_
        rintro first rest ⟨hfirst, hrest⟩ _
        refine Ensures.bind (ih rest (by omega) hrest) ?_
        rintro others rest ⟨hothers, hrest⟩ _
        exact Ensures.ok ⟨by simp [hfirst, hothers, Item.allLexemes], hrest⟩
  exact hbelow (ts.length + 1) ts (Nat.lt_succ_self _) hts

end Reader
end JmmCompiler

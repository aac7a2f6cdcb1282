import JmmCompiler.Proofs.PrintedProgram
import JmmCompiler.Proofs.WrittenStatement
/-! Programs as they are written. Every tree that is read is that of a written program whose tokens are
those of the text. -/
namespace JmmCompiler

/-- A member of a class as it is written. -/
inductive Member
  | field (modifiers : List Token) (type : Node) (name : Token)
  | method (modifiers : List Token) (type : Node) (name : Token) (params : List Node) (body : List Item)

namespace Member

/-- A member starts where its modifiers do, or else its type. -/
def start (modifiers : List Token) (type : Node) : Position :=
  (modifiers.head?.map (·.position)).getD type.position

def node : Member → Node
  | .field modifiers type name => Node.named .varDecl name.text [type] (start modifiers type)
  | .method modifiers type name params body =>
    Reader.methodNode modifiers type name params body (start modifiers type)

def lexemes : Member → List Lexeme
  | .field modifiers type name =>
    modifiers.map Token.lexeme ++ (type.lexemes ++ [Lexeme.word name.text, TokenKind.lexeme .semicolon])
  | .method modifiers type name params body =>
    modifiers.map Token.lexeme ++ (type.lexemes ++ Lexeme.word name.text :: TokenKind.lexeme .leftParen ::
      (Node.listed (params.map Node.lexemes) ++ TokenKind.lexeme .rightParen :: TokenKind.lexeme .leftBrace ::
        (Item.allLexemes body ++ [TokenKind.lexeme .rightBrace])))

/-- The items of a member can be read. -/
def Readable : Member → Prop
  | .field .. => True
  | .method _ type _ params body =>
    type.IsType ∧ (∀ q ∈ params, q.IsParam) ∧ ∀ i ∈ body, i.Readable

end Member

/-- A program as it is written, with the places where it and its class start. -/
structure Written where
  imports : List Node
  name : Token
  parent : Option Token
  members : List Member
  start : Position
  classStart : Position

namespace Written

/-- The tree of the class, given those of its members. -/
def classTree (w : Written) (members : List Node) : Node :=
  let parent := w.parent.toList.map fun parent => ("superclass", Json.text parent.text)
  ⟨.classDecl, ⟨("name", .text w.name.text) :: parent⟩, members, w.classStart⟩

def tree (w : Written) (members : List Node) : Node :=
  Node.plain .program (w.imports ++ [w.classTree members]) w.start

def node (w : Written) : Node := w.tree (w.members.map Member.node)

def classLexemes (w : Written) : List Lexeme :=
  let parent := w.parent.toList.flatMap fun parent => [TokenKind.lexeme .extendsWord, Lexeme.word parent.text]
  TokenKind.lexeme .classWord :: Lexeme.word w.name.text :: (parent ++ TokenKind.lexeme .leftBrace ::
    (w.members.flatMap Member.lexemes ++ [TokenKind.lexeme .rightBrace]))

def lexemes (w : Written) : List Lexeme := w.imports.flatMap Node.lexemes ++ w.classLexemes

end Written

namespace Reader
variable {ts : List Token}
open Lexer (AllValid)

theorem spends_param (hts : AllValid ts) :
    Ensures (outcome (param ts)) (Spends (ts.map Token.normal) Node.lexemes) := by
  rw [outcome_param]
  refine Ensures.bind (spends_type hts) ?_
  rintro type rest ⟨htype, hrest⟩ _
  refine Ensures.bind (spends_name hrest) ?_
  rintro name rest ⟨hname, hrest⟩ _
  exact Ensures.ok ⟨by simp [htype, hname, Node.named, Node.lexemes_param], hrest⟩

theorem spends_moreParams (hts : AllValid ts) :
    Ensures (outcome (moreParams ts)) (Spends (ts.map Token.normal) fun qs =>
      (qs.map Node.lexemes).flatMap (TokenKind.comma.lexeme :: ·) ++ [TokenKind.lexeme .rightParen]) := by
  induction hl : ts.length using Nat.strong_induction_on generalizing ts with
  | _ l ihl =>
    subst hl
    cases ts with
    | nil =>
      rw [outcome_moreParams_nil]
      exact Ensures.error _
    | cons t ts =>
      rw [List.length_cons] at ihl
      rw [outcome_moreParams_cons]
      split
      case isTrue h => exact Ensures.ok ⟨by simp [hts.normal_head h, TokenKind.several], hts.tail⟩
      split
      case isTrue h =>
        have ht := hts.normal_head h (by decide)
        refine Ensures.bind (spends_param hts.tail) ?_
        rintro next rest ⟨hnext, hrest⟩ _
        refine Ensures.bind (ihl rest.length (by omega) hrest rfl) ?_
        rintro others rest ⟨hothers, hrest⟩ _
        exact Ensures.ok ⟨by simp [ht, hnext, hothers], hrest⟩
      case isFalse => exact Ensures.error _

theorem spends_params (hts : AllValid ts) :
    Ensures (outcome (params ts)) (Spends (ts.map Token.normal) fun qs =>
      Node.listed (qs.map Node.lexemes) ++ [TokenKind.lexeme .rightParen]) := by
  rw [outcome_params]
  split
  · refine Ensures.bind (spends_take (by decide) hts) ?_
    rintro _ rest ⟨hend, hrest⟩ _
    exact Ensures.ok ⟨by simp [hend, Node.listed, List.intercalate], hrest⟩
  · refine Ensures.bind (spends_param hts) ?_
    rintro first rest ⟨hfirst, hrest⟩ _
    refine Ensures.bind (spends_moreParams hrest) ?_
    rintro others rest ⟨hothers, hrest⟩ _
    exact Ensures.ok ⟨by simp [hfirst, hothers, Node.listed_cons], hrest⟩

theorem normal_modifiers (ts : List Token) :
    ts.map Token.normal = (modifiers ts).value.map Token.lexeme ++ (modifiers ts).rest.map Token.normal := by
  induction ts with
  | nil => rfl
  | cons t ts ih =>
    rw [modifiers]
    split
    case isTrue h =>
      have hkind : t.kind ≠ .integer := by
        rintro heq
        simp [heq] at h
      simp [ih, Token.normal, hkind]
    case isFalse => rfl

/-- A member that is read is that of a written one. -/
theorem spends_classMember (hts : AllValid ts) :
    Ensures (outcome (classMember ts)) fun n rest =>
      (∃ m : Member, n = m.node ∧ m.Readable ∧ ts.map Token.normal = m.lexemes ++ rest.map Token.normal) ∧
        AllValid rest := by
  have hmodifiers := normal_modifiers ts
  rw [outcome_classMember]
  refine Ensures.bind ((ensures_type (allValid_modifiers hts)).and (spends_type (allValid_modifiers hts))) ?_
  rintro type rest ⟨⟨hshape, -⟩, htype, hrest⟩ _
  refine Ensures.bind (spends_name hrest) ?_
  rintro name rest ⟨hname, hrest⟩ _
  dsimp only
  split
  · refine Ensures.bind (spends_take (by decide) hrest) ?_
    rintro _ rest ⟨hopen, hrest⟩ _
    refine Ensures.bind ((ensures_params hrest).and (spends_params hrest)) ?_
    rintro params rest ⟨⟨hparamShapes, -⟩, hparams, hrest⟩ _
    refine Ensures.bind (spends_take (by decide) hrest) ?_
    rintro _ rest ⟨hbrace, hrest⟩ _
    refine Ensures.bind ((ensures_items hrest).and (spends_items hrest)) ?_
    rintro body rest ⟨⟨hreadable, -⟩, hbody, hrest⟩ _
    refine Ensures.ok ⟨⟨.method (modifiers ts).value type name params body, rfl,
      ⟨hshape, hparamShapes, hreadable⟩, ?_⟩, hrest⟩
    simp [hmodifiers, htype, hname, hopen, hparams, hbrace, hbody, Member.lexemes]
  · refine Ensures.bind (spends_take (by decide) hrest) ?_
    rintro _ rest ⟨hend, hrest⟩ _
    refine Ensures.ok ⟨⟨.field (modifiers ts).value type name, rfl, trivial, ?_⟩, hrest⟩
    simp [hmodifiers, htype, hname, hend, Member.lexemes]

theorem spends_classMembers (hts : AllValid ts) :
    Ensures (outcome (classMembers ts)) fun ns rest =>
      (∃ ms : List Member, ns = ms.map Member.node ∧ (∀ m ∈ ms, m.Readable) ∧
        ts.map Token.normal =
          ms.flatMap Member.lexemes ++ TokenKind.lexeme .rightBrace :: rest.map Token.normal) ∧
        AllValid rest := by
  induction hl : ts.length using Nat.strong_induction_on generalizing ts with
  | _ l ihl =>
    subst hl
    rw [outcome_classMembers]
    split
    · refine Ensures.bind (spends_take (by decide) hts) ?_
      rintro _ rest ⟨hend, hrest⟩ _
      exact Ensures.ok ⟨⟨[], rfl, by simp, by simp [hend]⟩, hrest⟩
    · refine Ensures.bind (spends_classMember hts) ?_
      rintro _ rest ⟨⟨first, rfl, hreadable, hfirst⟩, hrest⟩ _
      refine Ensures.bind (ihl rest.length (by omega) hrest rfl) ?_
      rintro _ rest ⟨⟨others, rfl, hall, hothers⟩, hrest⟩ _
      exact Ensures.ok ⟨⟨first :: others, rfl, List.forall_mem_cons.2 ⟨hreadable, hall⟩,
        by simp [hfirst, hothers]⟩, hrest⟩

/-- A class that is read is that of a written program without imports. -/
theorem spends_classDecl (start : Position) (hts : AllValid ts) :
    Ensures (outcome (classDecl ts)) fun n rest =>
      (∃ w : Written, w.imports = [] ∧ w.start = start ∧ w.node = Node.plain .program [n] start ∧
        (∀ m ∈ w.members, m.Readable) ∧
        ts.map Token.normal = w.classLexemes ++ rest.map Token.normal) ∧ AllValid rest := by
  rw [outcome_classDecl]
  refine Ensures.bind (spends_take (by decide) hts) ?_
  rintro word rest ⟨hword, hrest⟩ _
  refine Ensures.bind (spends_name hrest) ?_
  rintro name rest ⟨hname, hrest⟩ _
  dsimp only
  split
  · refine Ensures.bind (spends_take (by decide) hrest) ?_
    rintro _ rest ⟨hextends, hrest⟩ _
    refine Ensures.bind (spends_name hrest) ?_
    rintro parent rest ⟨hparent, hrest⟩ _
    refine Ensures.bind (spends_take (by decide) hrest) ?_
    rintro _ rest ⟨hbrace, hrest⟩ _
    refine Ensures.bind (spends_classMembers hrest) ?_
    rintro _ rest ⟨⟨members, rfl, hreadable, hmembers⟩, hrest⟩ _
    refine Ensures.ok ⟨⟨⟨[], name, some parent, members, start, word.position⟩, rfl, rfl, rfl, hreadable,
      ?_⟩, hrest⟩
    simp [hword, hname, hextends, hparent, hbrace, hmembers, Written.classLexemes]
  · refine Ensures.bind (spends_take (by decide) hrest) ?_
    rintro _ rest ⟨hbrace, hrest⟩ _
    refine Ensures.bind (spends_classMembers hrest) ?_
    rintro _ rest ⟨⟨members, rfl, hreadable, hmembers⟩, hrest⟩ _
    refine Ensures.ok ⟨⟨⟨[], name, none, members, start, word.position⟩, rfl, rfl, rfl, hreadable, ?_⟩,
      hrest⟩
    simp [hword, hname, hbrace, hmembers, Written.classLexemes]

theorem spends_moreNames (hts : AllValid ts) :
    Ensures (outcome (moreNames ts)) (Spends (ts.map Token.normal) fun names =>
      names.flatMap (fun name => [TokenKind.dot.lexeme, Lexeme.word name]) ++
        [TokenKind.lexeme .semicolon]) := by
  induction hl : ts.length using Nat.strong_induction_on generalizing ts with
  | _ l ihl =>
    subst hl
    cases ts with
    | nil =>
      rw [outcome_moreNames_nil]
      exact Ensures.error _
    | cons t ts =>
      rw [List.length_cons] at ihl
      rw [outcome_moreNames_cons]
      split
      case isTrue h => exact Ensures.ok ⟨by simp [hts.normal_head h, TokenKind.several], hts.tail⟩
      split
      case isTrue h =>
        have ht := hts.normal_head h (by decide)
        refine Ensures.bind (spends_name hts.tail) ?_
        rintro name rest ⟨hname, hrest⟩ _
        refine Ensures.bind (ihl rest.length (by omega) hrest rfl) ?_
        rintro others rest ⟨hothers, hrest⟩ _
        exact Ensures.ok ⟨by simp [ht, hname, hothers], hrest⟩
      case isFalse => exact Ensures.error _

theorem spends_importDecl (hts : AllValid ts) :
    Ensures (outcome (importDecl ts)) (Spends (ts.map Token.normal) Node.lexemes) := by
  rw [outcome_importDecl]
  refine Ensures.bind (spends_take (by decide) hts) ?_
  rintro word rest ⟨hword, hrest⟩ _
  refine Ensures.bind ((ensures_take (by decide) hrest).and (spends_name hrest)) ?_
  rintro first rest ⟨⟨-, hfirstName, -⟩, hfirst, hrest⟩ _
  refine Ensures.bind ((ensures_moreNames hrest).and (spends_moreNames hrest)) ?_
  rintro others rest ⟨⟨hnames, -⟩, hothers, hrest⟩ _
  refine Ensures.ok ⟨?_, hrest⟩
  simp [hword, hfirst, hothers, Node.named, Node.lexemes_importDecl, Node.dotted_intercalate hfirstName hnames]

/-- What is read of a program is that of a written one. -/
theorem spends_declarations (start : Position) (hts : AllValid ts) :
    Ensures (outcome (declarations ts)) fun ns rest =>
      (∃ w : Written, w.node = Node.plain .program ns start ∧ (∀ m ∈ w.members, m.Readable) ∧
        ts.map Token.normal = w.lexemes ++ rest.map Token.normal) ∧ AllValid rest := by
  induction hl : ts.length using Nat.strong_induction_on generalizing ts with
  | _ l ihl =>
    subst hl
    rw [outcome_declarations]
    split
    · refine Ensures.bind (spends_importDecl hts) ?_
      rintro first rest ⟨hfirst, hrest⟩ _
      refine Ensures.bind (ihl rest.length (by omega) hrest rfl) ?_
      rintro others rest ⟨⟨w, hnode, hreadable, hothers⟩, hrest⟩ _
      refine Ensures.ok ⟨⟨{ w with imports := first :: w.imports }, ?_, hreadable, ?_⟩, hrest⟩
      · simp only [Written.node, Written.tree, Node.plain, Node.mk.injEq, true_and] at hnode ⊢
        exact ⟨congrArg (first :: ·) hnode.1, hnode.2⟩
      · simp [hfirst, hothers, Written.lexemes, Written.classLexemes]
    · refine Ensures.bind (spends_classDecl start hts) ?_
      rintro decl rest ⟨⟨w, himports, -, hnode, hreadable, hclass⟩, hrest⟩ _
      exact Ensures.ok ⟨⟨w, hnode, hreadable, by simp [hclass, Written.lexemes, himports]⟩, hrest⟩

end Reader

/-- A tree that is read is that of a program which is written with the tokens of the text. -/
theorem Node.exists_written_of_parse {source : String} {root : Node} (h : Node.parse source = .ok root) :
    ∃ w : Written, w.node = root ∧ (∀ m ∈ w.members, m.Readable) ∧
      (Lexer.tokens source).map Token.normal = w.lexemes := by
  rw [Node.parse, Reader.program_eq, bind_eq_ok] at h
  obtain ⟨⟨children, rest⟩, hread, h⟩ := h
  have hvalid : Lexer.AllValid (Lexer.tokens source) := fun t ht hkind => Lexer.valid_of_mem_scan ht hkind
  obtain ⟨⟨w, hnode, hreadable, htokens⟩, -⟩ := Reader.spends_declarations
    (((Lexer.tokens source).head?.map (·.position)).getD {}) hvalid _ _ hread
  cases rest with
  | nil =>
    obtain rfl := Except.ok.inj h
    exact ⟨w, hnode, hreadable, by simpa using htokens⟩
  | cons t ts => cases h

end JmmCompiler

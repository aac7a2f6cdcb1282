import Mathlib
import JmmCompiler.Proofs.DottedNames
import JmmCompiler.Proofs.PrintedStatement
import JmmCompiler.Proofs.ProgramShape
/-! Reading a program back from the text that it is printed as. -/
namespace JmmCompiler

namespace Node

/-- The names between the dots. -/
theorem dotted_intercalate {first : String} {others : List String} (hfirst : Lexeme.IsName first)
    (hothers : ∀ name ∈ others, Lexeme.IsName name) :
    dotted (String.intercalate "." (first :: others)) =
      Lexeme.word first :: others.flatMap fun name => [TokenKind.dot.lexeme, Lexeme.word name] := by
  have hlisted : ∀ (name : String) (names : List String),
      List.intercalate [TokenKind.dot.lexeme] ((name :: names).map fun name => [Lexeme.word name]) =
        Lexeme.word name :: names.flatMap fun name => [TokenKind.dot.lexeme, Lexeme.word name] := by
    intro name names
    induction names generalizing name with
    | nil => rfl
    | cons next names ih =>
      have hnext := ih next
      simp only [List.intercalate, List.map_cons, List.intersperse_cons_cons, List.flatten_cons] at hnext ⊢
      rw [hnext]
      simp
  have hparts : dotted (String.intercalate "." (first :: others)) = List.intercalate [TokenKind.dot.lexeme]
      ((segments (String.intercalate "." (first :: others))).map fun name => [Lexeme.word name]) := by
    rw [dotted, segments, List.map_map]
    rfl
  rw [hparts, segments_intercalate (List.forall_mem_cons.2 ⟨hfirst, hothers⟩) (by simp)]
  exact hlisted first others

end Node

namespace Reader
variable {ts : List Token} {ls : List Lexeme} {l : Lexeme}

/-! ## Types and declarations -/

theorem starts_type {n : Node} (h : n.IsType) :
    ∃ l tail, n.lexemes = l :: tail ∧ l.1 ∈ [TokenKind.intWord, .booleanWord, .voidWord, .identifier] := by
  cases h with
  | intro hname harray p => exact ⟨_, _, Node.lexemes_typeRef p _ _ _, Lexeme.word_of_isTypeName hname⟩

theorem yields_type {n : Node} (h : n.IsType) {name : String} (hname : Lexeme.IsName name)
    (hts : ts.map Token.lexeme = n.lexemes ++ Lexeme.word name :: ls) :
    Yields (outcome (type ts)) (·.bare = n.bare) (Lexeme.word name :: ls) := by
  rw [outcome_type]
  cases h with
  | @intro base isArray isVarargs hbase harray p =>
    rw [Node.lexemes_typeRef, List.cons_append] at hts
    refine Yields.bind (yields_baseType (Lexeme.word_of_isTypeName hbase) hts) ?_
    rintro t rest ⟨_, htext⟩ hrest
    have htext : t.text = base := htext
    have hbare (a v : Bool) (ha : isArray = a) (hv : isVarargs = v) : (typeRef t a v).bare = Node.bare ⟨.typeRef,
        ⟨[("name", .text base), ("is_array", .bool isArray), ("is_varargs", .bool isVarargs)]⟩, [], p⟩ := by
      simp [typeRef, Node.bare_mk, htext, ha, hv]
    rw [Lexeme.word_of_isName hname] at hrest ⊢
    have hfront := front?_of_map hrest
    cases isVarargs with
    | true =>
      have hfront : front? rest = some .ellipsis := hfront
      simp only [hfront]
      refine Yields.bind (yields_take hrest) fun _ rest _ hrest => ?_
      exact Yields.ok (hbare _ _ (harray rfl) rfl) hrest
    | false =>
      cases isArray with
      | true =>
        have hfront : front? rest = some .leftBracket := hfront
        simp only [hfront]
        refine Yields.bind (yields_take hrest) fun _ rest _ hrest => ?_
        refine Yields.bind (yields_take hrest) fun _ rest _ hrest => ?_
        exact Yields.ok (hbare _ _ rfl rfl) hrest
      | false =>
        have hfront : front? rest = some .identifier := hfront
        simp only [hfront]
        exact Yields.ok (hbare _ _ rfl rfl) hrest

theorem declares_type {n : Node} (h : n.IsType) {name : String} (hname : Lexeme.IsName name) :
    Declares (n.lexemes ++ Lexeme.word name :: ls) = true := by
  cases h with
  | @intro base isArray isVarargs hbase harray p =>
    rw [Node.lexemes_typeRef, Lexeme.word_of_isName hname]
    have hcases : (Lexeme.word base).1 = .identifier ∨ (Lexeme.word base).1 = .intWord ∨
        (Lexeme.word base).1 = .booleanWord ∨ (Lexeme.word base).1 = .voidWord := by
      have := Lexeme.word_of_isTypeName hbase
      simp only [List.mem_cons, List.not_mem_nil, or_false] at this
      tauto
    unfold Declares
    cases isVarargs <;> cases isArray <;> rcases hcases with h | h | h | h <;> simp [h, TokenKind.lexeme]

/-- Declarations and then statements between braces. -/
theorem yields_body {ds ns : List Node} (hds : ∀ d ∈ ds, d.IsVarDecl) (hns : ∀ n ∈ ns, ReadsStatement n)
    (hts : ts.map Token.lexeme = ds.flatMap Node.lexemes ++ (ns.flatMap Node.lexemes ++
      TokenKind.lexeme .rightBrace :: ls)) :
    Yields (outcome (items ts)) (fun is => (Item.allNodes is).map Node.bare = ns.map Node.bare ∧
      (Item.allLocals is).map Node.bare = ds.map Node.bare) ls := by
  induction ds generalizing ts with
  | nil =>
    obtain ⟨is, rest, hread, ⟨hnodes, hlocals⟩, hrest⟩ := yields_items hns hts
    exact ⟨is, rest, hread, ⟨hnodes, by simp [hlocals]⟩, hrest⟩
  | cons d ds ih =>
    obtain ⟨hd, htail⟩ := List.forall_mem_cons.1 hds
    obtain ⟨hname, htype, p⟩ := hd
    rename_i name type
    rw [List.flatMap_cons, Node.lexemes_varDecl] at hts
    simp only [List.append_assoc, List.cons_append, List.nil_append] at hts
    have hfront : front? ts ≠ some .rightBrace := by
      obtain ⟨l, tail, hl, hmem⟩ := starts_type htype
      rw [front?_of_map hts, hl]
      simp only [List.cons_append, List.head?_cons, Option.map_some, ne_eq, Option.some.injEq]
      rintro heq
      rw [heq] at hmem
      revert hmem
      decide
    have hitem : Yields (outcome (item ts)) (fun i => i.node? = none ∧ i.locals.map Node.bare =
        [Node.bare ⟨.varDecl, ⟨[("name", .text name)]⟩, [type], p⟩])
        (ds.flatMap Node.lexemes ++ (ns.flatMap Node.lexemes ++ TokenKind.lexeme .rightBrace :: ls)) := by
      rw [outcome_item, if_pos (by rw [startsDeclaration_of_map hts, declares_type htype hname]),
        outcome_declaration]
      refine Yields.bind (yields_type htype hname hts) fun type' rest htype' hrest => ?_
      rw [Lexeme.word_of_isName hname] at hrest
      refine Yields.bind (yields_take hrest) ?_
      rintro t rest ⟨_, htext⟩ hrest
      have hsemicolon : front? rest ≠ some .equals := by rw [front?_of_map hrest]; simp [TokenKind.lexeme]
      dsimp only
      rw [if_neg hsemicolon]
      refine Yields.bind (yields_take hrest) fun _ rest _ hrest => ?_
      refine Yields.ok ⟨rfl, ?_⟩ hrest
      simp [Item.locals, Node.named, Node.bare_mk, htype', htext]
    rw [outcome_items, if_neg hfront]
    refine Yields.bind hitem ?_
    rintro i rest ⟨hnode, hlocals⟩ hrest
    refine Yields.bind (ih htail hrest) ?_
    rintro is rest ⟨hnodes, hlocals'⟩ hrest
    exact Yields.ok ⟨by simp [Item.allNodes, hnode, hnodes],
      by rw [Item.allLocals, List.map_append, hlocals, hlocals']; rfl⟩ hrest

/-! ## Members -/

theorem yields_param {n : Node} (h : n.IsParam) (hts : ts.map Token.lexeme = n.lexemes ++ ls) :
    Yields (outcome (param ts)) (·.bare = n.bare) ls := by
  rw [outcome_param]
  cases h with
  | intro hname htype p =>
    rw [Node.lexemes_param, List.append_assoc] at hts
    refine Yields.bind (yields_type htype hname hts) fun type' rest htype' hrest => ?_
    rw [Lexeme.word_of_isName hname] at hrest
    refine Yields.bind (yields_take hrest) ?_
    rintro t rest ⟨_, htext⟩ hrest
    exact Yields.ok (by simp [Node.named, Node.bare_mk, htype', htext]) hrest

theorem yields_moreParams {qs : List Node} (hqs : ∀ q ∈ qs, q.IsParam)
    (hts : ts.map Token.lexeme = (qs.map Node.lexemes).flatMap (TokenKind.comma.lexeme :: ·) ++
      TokenKind.lexeme .rightParen :: ls) :
    Yields (outcome (moreParams ts)) (·.map Node.bare = qs.map Node.bare) ls := by
  induction qs generalizing ts with
  | nil =>
    obtain ⟨t, rest, rfl, hkind, -, hrest⟩ := exists_cons_of_map hts
    have hkind : t.kind = .rightParen := hkind
    rw [outcome_moreParams_cons, if_pos hkind]
    exact Yields.ok rfl hrest
  | cons q qs ih =>
    obtain ⟨hq, hqs⟩ := List.forall_mem_cons.1 hqs
    rw [List.map_cons, List.flatMap_cons, List.append_assoc] at hts
    obtain ⟨t, rest, rfl, hkind, -, hrest⟩ := exists_cons_of_map hts
    have hkind : t.kind = .comma := hkind
    rw [outcome_moreParams_cons, if_neg (by simp [hkind]), if_pos hkind]
    refine Yields.bind (yields_param hq hrest) fun next rest hnext hrest => ?_
    refine Yields.bind (ih hqs hrest) fun others rest hothers hrest => ?_
    exact Yields.ok (by simp [hnext, hothers]) hrest

theorem yields_params {qs : List Node} (hqs : ∀ q ∈ qs, q.IsParam)
    (hts : ts.map Token.lexeme = Node.listed (qs.map Node.lexemes) ++ TokenKind.lexeme .rightParen :: ls) :
    Yields (outcome (params ts)) (·.map Node.bare = qs.map Node.bare) ls := by
  rw [outcome_params]
  cases qs with
  | nil =>
    rw [if_pos (by rw [front?_of_map hts]; rfl)]
    exact Yields.bind (yields_take hts) fun _ rest _ hrest => Yields.ok rfl hrest
  | cons q qs =>
    obtain ⟨hq, hqs⟩ := List.forall_mem_cons.1 hqs
    rw [List.map_cons, Node.listed_cons, List.append_assoc] at hts
    have hfront : front? ts ≠ some .rightParen := by
      obtain ⟨hname, htype, p⟩ := hq
      obtain ⟨l, tail, hl, hmem⟩ := starts_type htype
      rw [front?_of_map hts, Node.lexemes_param, hl]
      simp only [List.cons_append, List.head?_cons, Option.map_some, ne_eq, Option.some.injEq]
      rintro heq
      rw [heq] at hmem
      revert hmem
      decide
    rw [if_neg hfront]
    refine Yields.bind (yields_param hq hts) fun first rest hfirst hrest => ?_
    refine Yields.bind (yields_moreParams hqs hrest) fun others rest hothers hrest => ?_
    exact Yields.ok (by simp [hfirst, hothers]) hrest

/-- The modifiers of a printed member. -/
theorem modifiers_of_map {isPublic isStatic : Bool}
    (hl : l.1 ∈ [TokenKind.intWord, .booleanWord, .voidWord, .identifier])
    (hts : ts.map Token.lexeme = (if isPublic then [TokenKind.lexeme .publicWord] else []) ++
      ((if isStatic then [TokenKind.lexeme .staticWord] else []) ++ l :: ls)) :
    ((modifiers ts).value.any (·.kind = .publicWord)) = isPublic ∧
      ((modifiers ts).value.any (·.kind = .staticWord)) = isStatic ∧
      (modifiers ts).rest.map Token.lexeme = l :: ls := by
  have hstop : l.1 ∉ [TokenKind.publicWord, .privateWord, .protectedWord, .staticWord] := by
    generalize l.1 = k at hl
    revert k
    decide
  have hnone {ts : List Token} (hts : ts.map Token.lexeme = l :: ls) :
      (modifiers ts).value = [] ∧ (modifiers ts).rest = ts := by
    obtain ⟨t, rest, rfl, hkind, -, hrest⟩ := exists_cons_of_map hts
    rw [modifiers, if_neg (hkind ▸ hstop)]
    exact ⟨rfl, rfl⟩
  have hone {k : TokenKind} {ls' : List Lexeme} {ts : List Token}
      (hk : k ∈ [TokenKind.publicWord, .privateWord, .protectedWord, .staticWord])
      (hts : ts.map Token.lexeme = TokenKind.lexeme k :: ls') :
      ∃ t rest, t.kind = k ∧ rest.map Token.lexeme = ls' ∧
        (modifiers ts).value = t :: (modifiers rest).value ∧ (modifiers ts).rest = (modifiers rest).rest := by
    obtain ⟨t, rest, rfl, hkind, -, hrest⟩ := exists_cons_of_map hts
    have hkind : t.kind = k := hkind
    rw [modifiers, if_pos (hkind ▸ hk)]
    exact ⟨t, rest, hkind, hrest, rfl, rfl⟩
  cases isPublic <;> cases isStatic <;> simp only [Bool.false_eq_true, if_false, if_true, List.nil_append,
    List.cons_append] at hts
  · obtain ⟨hvalue, hrest⟩ := hnone hts
    simp [hvalue, hrest, hts]
  · obtain ⟨t, rest, hkind, hts, hvalue, hleft⟩ := hone (by decide) hts
    obtain ⟨hvalue', hrest⟩ := hnone hts
    simp [hvalue, hvalue', hkind, hleft, hrest, hts]
  · obtain ⟨t, rest, hkind, hts, hvalue, hleft⟩ := hone (by decide) hts
    obtain ⟨hvalue', hrest⟩ := hnone hts
    simp [hvalue, hvalue', hkind, hleft, hrest, hts]
  · obtain ⟨t, rest, hkind, hts, hvalue, hleft⟩ := hone (by decide) hts
    obtain ⟨t', rest', hkind', hts, hvalue', hleft'⟩ := hone (by decide) hts
    obtain ⟨hvalue'', hrest⟩ := hnone hts
    simp [hvalue, hvalue', hvalue'', hkind, hkind', hleft, hleft', hrest, hts]

/-- The tokens of a method. -/
theorem lexemes_method (p : Position) (name : String) (isPublic isStatic : Bool) (type : Node)
    {params : List Node} {body : List Item} (hparams : ∀ q ∈ params, q.IsParam)
    (hbody : ∀ i ∈ body, i.Readable) :
    Node.lexemes ⟨.methodDecl, ⟨[("name", .text name), ("is_public", .bool isPublic),
        ("is_static", .bool isStatic)]⟩, type :: params ++ Item.allLocals body ++ Item.allNodes body, p⟩ =
      (if isPublic then [TokenKind.lexeme .publicWord] else []) ++
        ((if isStatic then [TokenKind.lexeme .staticWord] else []) ++ (type.lexemes ++
          Lexeme.word name :: TokenKind.lexeme .leftParen :: (Node.listed (params.map Node.lexemes) ++
            TokenKind.lexeme .rightParen :: TokenKind.lexeme .leftBrace ::
              ((Item.allLocals body).flatMap Node.lexemes ++ ((Item.allNodes body).flatMap Node.lexemes ++
                [TokenKind.lexeme .rightBrace]))))) := by
  have hparamKinds : ∀ q ∈ params, q.kind = .param := by
    intro q hq
    cases hparams q hq
    rfl
  have hbodyKinds : ∀ n ∈ Item.allLocals body ++ Item.allNodes body, n.kind ≠ .param := by
    refine List.forall_mem_append.2 ⟨fun d hd => ?_, fun n hn => ?_⟩
    · cases Item.isVarDecl_of_mem_allLocals hbody d hd
      simp
    · cases Item.isStatement_of_mem_allNodes hbody n hn with
      | simple hn => cases hn <;> simp
      | _ => simp
  rw [List.append_assoc, Node.lexemes_methodDecl p name isPublic isStatic type hparamKinds hbodyKinds]
  simp only [List.append_assoc, List.flatMap_append]

/-- The first token of a member. -/
theorem starts_member {m : Node} (h : m.IsMember) : ∃ l tail, m.lexemes = l :: tail ∧
    l.1 ∈ [TokenKind.intWord, .booleanWord, .voidWord, .identifier, .publicWord, .staticWord] := by
  cases h with
  | field hn =>
    obtain ⟨hname, htype, p⟩ := hn
    obtain ⟨l, tail, hl, hmem⟩ := starts_type htype
    exact ⟨l, _, by rw [Node.lexemes_varDecl, hl]; rfl, List.mem_append_left _ hmem⟩
  | @method name isPublic isStatic type params body hname htype hparams hbody p =>
    obtain ⟨l, tail, hl, hmem⟩ := starts_type htype
    rw [lexemes_method p name isPublic isStatic type hparams hbody, hl]
    cases isPublic with
    | true => exact ⟨_, _, rfl, by decide⟩
    | false =>
      cases isStatic with
      | true => exact ⟨_, _, rfl, by decide⟩
      | false => exact ⟨_, _, rfl, List.mem_append_left _ hmem⟩

theorem yields_classMember {m : Node} (h : m.IsMember) (hts : ts.map Token.lexeme = m.lexemes ++ ls) :
    Yields (outcome (classMember ts)) (·.bare = m.bare) ls := by
  rw [outcome_classMember]
  cases h with
  | field hn =>
    obtain ⟨hname, htype, p⟩ := hn
    obtain ⟨l, tail, hl, hmem⟩ := starts_type htype
    rw [Node.lexemes_varDecl, List.append_assoc] at hts
    have hmodifiers := hts
    rw [hl, List.cons_append] at hmodifiers
    obtain ⟨-, -, hrest⟩ := @modifiers_of_map _ _ _ false false hmem hmodifiers
    rw [← List.cons_append, ← hl] at hrest
    refine Yields.bind (yields_type htype hname hrest) fun type' rest htype' hrest => ?_
    rw [Lexeme.word_of_isName hname] at hrest
    refine Yields.bind (yields_take hrest) ?_
    rintro t rest ⟨_, htext⟩ hrest
    have hfront : front? rest ≠ some .leftParen := by rw [front?_of_map hrest]; simp [TokenKind.lexeme]
    dsimp only
    rw [if_neg hfront]
    refine Yields.bind (yields_take hrest) fun _ rest _ hrest => ?_
    exact Yields.ok (by simp [Node.named, Node.bare_mk, htype', htext]) hrest
  | @method name isPublic isStatic type params body hname htype hparams hbody p =>
    obtain ⟨l, tail, hl, hmem⟩ := starts_type htype
    rw [lexemes_method p name isPublic isStatic type hparams hbody] at hts
    simp only [List.append_assoc, List.cons_append, List.nil_append] at hts
    have hmodifiers := hts
    rw [hl, List.cons_append] at hmodifiers
    obtain ⟨hpublic, hstatic, hrest⟩ := modifiers_of_map hmem hmodifiers
    rw [← List.cons_append, ← hl] at hrest
    refine Yields.bind (yields_type htype hname hrest) fun type' rest htype' hrest => ?_
    rw [Lexeme.word_of_isName hname] at hrest
    refine Yields.bind (yields_take hrest) ?_
    rintro t rest ⟨_, htext⟩ hrest
    have hfront : front? rest = some .leftParen := by rw [front?_of_map hrest]; rfl
    dsimp only
    rw [if_pos hfront]
    refine Yields.bind (yields_take hrest) fun _ rest _ hrest => ?_
    refine Yields.bind (yields_params hparams hrest) fun params' rest hparams' hrest => ?_
    refine Yields.bind (yields_take hrest) fun _ rest _ hrest => ?_
    have hnodes : ∀ n ∈ Item.allNodes body, ReadsStatement n := by
      intro n hn
      obtain ⟨i, hi, hni⟩ := Item.mem_allNodes.1 hn
      exact (hbody i hi).reads n hni
    refine Yields.bind (yields_body (Item.isVarDecl_of_mem_allLocals hbody) hnodes hrest) ?_
    rintro body' rest ⟨hnodes', hlocals'⟩ hrest
    refine Yields.ok ?_ hrest
    simp [methodNode, Node.bare_mk, htype', htext, hparams', hnodes', hlocals', hpublic, hstatic]

theorem yields_classMembers {ms : List Node} (hms : ∀ m ∈ ms, m.IsMember)
    (hts : ts.map Token.lexeme = ms.flatMap Node.lexemes ++ TokenKind.lexeme .rightBrace :: ls) :
    Yields (outcome (classMembers ts)) (·.map Node.bare = ms.map Node.bare) ls := by
  induction ms generalizing ts with
  | nil =>
    rw [outcome_classMembers, if_pos (by rw [front?_of_map hts]; rfl)]
    exact Yields.bind (yields_take hts) fun _ rest _ hrest => Yields.ok rfl hrest
  | cons m ms ih =>
    obtain ⟨hm, hms⟩ := List.forall_mem_cons.1 hms
    rw [List.flatMap_cons, List.append_assoc] at hts
    have hfront : front? ts ≠ some .rightBrace := by
      obtain ⟨l, tail, hl, hmem⟩ := starts_member hm
      rw [front?_of_map hts, hl]
      simp only [List.cons_append, List.head?_cons, Option.map_some, ne_eq, Option.some.injEq]
      rintro heq
      rw [heq] at hmem
      revert hmem
      decide
    rw [outcome_classMembers, if_neg hfront]
    refine Yields.bind (yields_classMember hm hts) fun first rest hfirst hrest => ?_
    refine Yields.bind (ih hms hrest) fun others rest hothers hrest => ?_
    exact Yields.ok (by simp [hfirst, hothers]) hrest

/-! ## Programs -/

theorem yields_classDecl {c : Node} (h : c.IsClass) (hts : ts.map Token.lexeme = c.lexemes ++ ls) :
    Yields (outcome (classDecl ts)) (·.bare = c.bare) ls := by
  rw [outcome_classDecl]
  cases h with
  | alone hname hmembers p =>
    rw [Node.lexemes_classDecl, Lexeme.word_of_isName hname] at hts
    simp only [List.append_assoc, List.cons_append, List.nil_append] at hts
    refine Yields.bind (yields_take hts) fun word rest _ hrest => ?_
    refine Yields.bind (yields_take hrest) ?_
    rintro t rest ⟨_, htext⟩ hrest
    have hfront : front? rest ≠ some .extendsWord := by rw [front?_of_map hrest]; simp [TokenKind.lexeme]
    dsimp only
    rw [if_neg hfront]
    refine Yields.bind (yields_take hrest) fun _ rest _ hrest => ?_
    refine Yields.bind (yields_classMembers hmembers hrest) fun members rest hmembers' hrest => ?_
    exact Yields.ok (by simp [Node.bare_mk, hmembers', htext]) hrest
  | extending hname hparent hmembers p =>
    rw [Node.lexemes_classDecl_extends, Lexeme.word_of_isName hname, Lexeme.word_of_isName hparent] at hts
    simp only [List.append_assoc, List.cons_append, List.nil_append] at hts
    refine Yields.bind (yields_take hts) fun word rest _ hrest => ?_
    refine Yields.bind (yields_take hrest) ?_
    rintro t rest ⟨_, htext⟩ hrest
    have hfront : front? rest = some .extendsWord := by rw [front?_of_map hrest]; rfl
    dsimp only
    rw [if_pos hfront]
    refine Yields.bind (yields_take hrest) fun _ rest _ hrest => ?_
    refine Yields.bind (yields_take hrest) ?_
    rintro parent rest ⟨_, hparent'⟩ hrest
    refine Yields.bind (yields_take hrest) fun _ rest _ hrest => ?_
    refine Yields.bind (yields_classMembers hmembers hrest) fun members rest hmembers' hrest => ?_
    exact Yields.ok (by simp [Node.bare_mk, hmembers', htext, hparent']) hrest

theorem yields_moreNames {names : List String} (hnames : ∀ name ∈ names, Lexeme.IsName name)
    (hts : ts.map Token.lexeme = (names.flatMap fun name => [TokenKind.dot.lexeme, Lexeme.word name]) ++
      TokenKind.lexeme .semicolon :: ls) :
    Yields (outcome (moreNames ts)) (· = names) ls := by
  induction names generalizing ts with
  | nil =>
    obtain ⟨t, rest, rfl, hkind, -, hrest⟩ := exists_cons_of_map hts
    have hkind : t.kind = .semicolon := hkind
    rw [outcome_moreNames_cons, if_pos hkind]
    exact Yields.ok rfl hrest
  | cons name names ih =>
    obtain ⟨hname, hnames⟩ := List.forall_mem_cons.1 hnames
    rw [List.flatMap_cons, Lexeme.word_of_isName hname, List.append_assoc] at hts
    obtain ⟨t, rest, rfl, hkind, -, hrest⟩ := exists_cons_of_map hts
    have hkind : t.kind = .dot := hkind
    rw [outcome_moreNames_cons, if_neg (by simp [hkind]), if_pos hkind]
    refine Yields.bind (yields_take hrest) ?_
    rintro t rest ⟨_, htext⟩ hrest
    refine Yields.bind (ih hnames hrest) fun others rest hothers hrest => ?_
    exact Yields.ok (by rw [htext, hothers]) hrest

theorem yields_importDecl {i : Node} (h : i.IsImport) (hts : ts.map Token.lexeme = i.lexemes ++ ls) :
    Yields (outcome (importDecl ts)) (·.bare = i.bare) ls := by
  rw [outcome_importDecl]
  cases h with
  | intro hfirst hothers p =>
    rw [Node.lexemes_importDecl, Node.dotted_intercalate hfirst hothers, Lexeme.word_of_isName hfirst] at hts
    simp only [List.append_assoc, List.cons_append, List.nil_append] at hts
    refine Yields.bind (yields_take hts) fun word rest _ hrest => ?_
    refine Yields.bind (yields_take hrest) ?_
    rintro t rest ⟨_, htext⟩ hrest
    refine Yields.bind (yields_moreNames hothers hrest) fun others rest hothers' hrest => ?_
    exact Yields.ok (by simp [Node.named, Node.bare_mk, htext, hothers']) hrest

theorem yields_declarations {imports : List Node} {decl : Node} (himports : ∀ i ∈ imports, i.IsImport)
    (hdecl : decl.IsClass) (hts : ts.map Token.lexeme = imports.flatMap Node.lexemes ++ decl.lexemes) :
    Yields (outcome (declarations ts)) (·.map Node.bare = (imports ++ [decl]).map Node.bare) [] := by
  induction imports generalizing ts with
  | nil =>
    have hword : ∃ tail, decl.lexemes = TokenKind.lexeme .classWord :: tail := by
      cases hdecl with
      | alone => exact ⟨_, Node.lexemes_classDecl _ _ _⟩
      | extending => exact ⟨_, Node.lexemes_classDecl_extends _ _ _ _⟩
    obtain ⟨tail, hword⟩ := hword
    have hfront : front? ts ≠ some .importWord := by
      rw [front?_of_map hts, List.flatMap_nil, hword]
      simp [TokenKind.lexeme]
    rw [outcome_declarations, if_neg hfront]
    have htokens : ts.map Token.lexeme = decl.lexemes ++ [] := by simpa using hts
    refine Yields.bind (yields_classDecl hdecl htokens) fun c rest hc hrest => ?_
    exact Yields.ok (by simp [hc]) hrest
  | cons i imports ih =>
    obtain ⟨hi, himports⟩ := List.forall_mem_cons.1 himports
    rw [List.flatMap_cons, List.append_assoc] at hts
    have hfront : front? ts = some .importWord := by
      cases hi
      rw [front?_of_map hts]
      rfl
    rw [outcome_declarations, if_pos hfront]
    refine Yields.bind (yields_importDecl hi hts) fun first rest hfirst hrest => ?_
    refine Yields.bind (ih himports hrest) fun others rest hothers hrest => ?_
    exact Yields.ok (by simp [hfirst, hothers]) hrest

end Reader

namespace Node
open Reader

theorem IsProgram.yields {root : Node} (h : root.IsProgram) {ts : List Token}
    (hts : ts.map Token.lexeme = root.lexemes) : ∃ root', program ts = .ok root' ∧ root'.bare = root.bare := by
  obtain ⟨himports, hdecl, p⟩ := h
  rw [lexemes_program, List.flatMap_append, List.flatMap_singleton] at hts
  obtain ⟨children, rest, hread, hchildren, hrest⟩ := yields_declarations himports hdecl hts
  obtain rfl : rest = [] := by simpa using hrest
  rw [program_eq, hread]
  exact ⟨_, rfl, by simp [plain, bare_mk, hchildren]⟩

/-! The tokens of a program are spelled as their classes demand. -/

theorem IsSimple.allValid {n : Node} (h : n.IsSimple) : Lexeme.AllValid n.lexemes := by
  cases h with
  | assign hname hvalue p q =>
    simp [lexemes_assign, lexemes_varRef, Lexeme.valid_lexeme, Lexeme.valid_word hname.1, hvalue.allValid]
  | arrayAssign hname hindex hvalue p q =>
    simp [lexemes_arrayAssign, lexemes_varRef, Lexeme.valid_lexeme, Lexeme.valid_word hname.1, hindex.allValid,
      hvalue.allValid]
  | exprStmt he p => simp [lexemes_exprStmt, Lexeme.valid_lexeme, he.allValid]
  | returnNothing p => simp [lexemes_returnNothing, Lexeme.valid_lexeme]
  | returnValue hvalue p => simp [lexemes_returnValue, Lexeme.valid_lexeme, hvalue.allValid]

theorem allValid_flatMap {ns : List Node} (h : ∀ n ∈ ns, Lexeme.AllValid n.lexemes) :
    Lexeme.AllValid (ns.flatMap lexemes) := by
  intro l hl
  obtain ⟨n, hn, hl⟩ := List.mem_flatMap.1 hl
  exact h n hn l hl

theorem IsStatement.allValid {n : Node} (h : n.IsStatement) : Lexeme.AllValid n.lexemes := by
  induction h with
  | simple hn => exact hn.allValid
  | block _ p ih => simp [lexemes_block, Lexeme.valid_lexeme, allValid_flatMap ih]
  | ifThen hc _ p ih => simp [lexemes_ifThen, Lexeme.valid_lexeme, hc.allValid, ih]
  | ifElse hc _ _ p ihthen ihelse => simp [lexemes_ifElse, Lexeme.valid_lexeme, hc.allValid, ihthen, ihelse]
  | whileLoop hc _ p ih => simp [lexemes_whileStmt, Lexeme.valid_lexeme, hc.allValid, ih]

theorem IsType.allValid {n : Node} (h : n.IsType) : Lexeme.AllValid n.lexemes := by
  cases h with
  | @intro base isArray isVarargs hbase harray p =>
    rw [lexemes_typeRef]
    cases isVarargs <;> cases isArray <;> simp [Lexeme.valid_lexeme, Lexeme.valid_word hbase.isWord]

theorem IsVarDecl.allValid {n : Node} (h : n.IsVarDecl) : Lexeme.AllValid n.lexemes := by
  cases h with
  | intro hname htype p =>
    simp [lexemes_varDecl, Lexeme.valid_lexeme, Lexeme.valid_word hname.1, htype.allValid]

theorem IsParam.allValid {n : Node} (h : n.IsParam) : Lexeme.AllValid n.lexemes := by
  cases h with
  | intro hname htype p => simp [lexemes_param, Lexeme.valid_word hname.1, htype.allValid]

theorem IsMember.allValid {n : Node} (h : n.IsMember) : Lexeme.AllValid n.lexemes := by
  cases h with
  | field hn => exact hn.allValid
  | @method name isPublic isStatic type params body hname htype hparams hbody p =>
    have hlisted := allValid_listed (List.forall_mem_map.2 fun q hq => (hparams q hq).allValid)
    have hlocals := allValid_flatMap fun d hd => (Item.isVarDecl_of_mem_allLocals hbody d hd).allValid
    have hnodes := allValid_flatMap fun n hn => (Item.isStatement_of_mem_allNodes hbody n hn).allValid
    rw [lexemes_method p name isPublic isStatic type hparams hbody]
    cases isPublic <;> cases isStatic <;>
      simp [Lexeme.valid_lexeme, Lexeme.valid_word hname.1, htype.allValid, hlisted, hlocals, hnodes]

theorem IsClass.allValid {n : Node} (h : n.IsClass) : Lexeme.AllValid n.lexemes := by
  cases h with
  | alone hname hmembers p =>
    simp [lexemes_classDecl, Lexeme.valid_lexeme, Lexeme.valid_word hname.1,
      allValid_flatMap fun m hm => (hmembers m hm).allValid]
  | extending hname hparent hmembers p =>
    simp [lexemes_classDecl_extends, Lexeme.valid_lexeme, Lexeme.valid_word hname.1,
      Lexeme.valid_word hparent.1, allValid_flatMap fun m hm => (hmembers m hm).allValid]

theorem IsImport.allValid {n : Node} (h : n.IsImport) : Lexeme.AllValid n.lexemes := by
  cases h with
  | @intro first others hfirst hothers p =>
    have hnames : Lexeme.AllValid (others.flatMap fun name => [TokenKind.dot.lexeme, Lexeme.word name]) := by
      intro l hl
      obtain ⟨name, hname, hl⟩ := List.mem_flatMap.1 hl
      have hpair : Lexeme.AllValid [TokenKind.dot.lexeme, Lexeme.word name] := by
        simp [Lexeme.valid_lexeme, Lexeme.valid_word (hothers name hname).1]
      exact hpair l hl
    simp [lexemes_importDecl, dotted_intercalate hfirst hothers, Lexeme.valid_lexeme,
      Lexeme.valid_word hfirst.1, hnames]

theorem IsProgram.allValid {root : Node} (h : root.IsProgram) : Lexeme.AllValid root.lexemes := by
  obtain ⟨himports, hdecl, p⟩ := h
  simp [lexemes_program, allValid_flatMap fun i hi => (himports i hi).allValid, hdecl.allValid]

/-- The text of a program, with blanks between the tokens, is read as the program. -/
theorem IsProgram.parse {root : Node} (h : root.IsProgram) {text : List Char}
    (htext : Spaced root.lexemes text) :
    ∃ root', Node.parse (String.ofList text) = .ok root' ∧ root'.bare = root.bare :=
  h.yields (Lexer.tokens_of_spaced htext h.allValid)

/-- The text of an expression, with blanks between the tokens, is read as the expression. -/
theorem IsExpression.parse {e : Node} (h : e.IsExpression) {text : List Char} (htext : Spaced e.lexemes text) :
    ∃ e', outcome (expression (Lexer.tokens (String.ofList text))) = .ok (e', []) ∧ e'.bare = e.bare := by
  have htokens : (Lexer.tokens (String.ofList text)).map Token.lexeme = e.lexemes ++ [] := by
    rw [Lexer.tokens_of_spaced htext h.allValid, List.append_nil]
  obtain ⟨e', rest, hread, he', hrest⟩ := h.readsBack.expression h.looseness_le htokens (by simp [Ends])
  obtain rfl : rest = [] := by simpa using hrest
  exact ⟨e', hread, he'⟩

/-- Reading inverts printing. An expression of the right shape is read back from its text, and every
expression that is read has the shape. A program that is read is read back from its text. -/
theorem parse_printed :
    (∀ e : Node, e.IsExpression → ∀ text, Spaced e.lexemes text →
      ∃ e', outcome (expression (Lexer.tokens (String.ofList text))) = .ok (e', []) ∧ e'.bare = e.bare) ∧
    ∀ source root, Node.parse source = .ok root →
      (∀ path n, root.at? path = some n → n.kind.isExpression → n.IsExpression) ∧
      ∀ text, Spaced root.lexemes text →
        ∃ root', Node.parse (String.ofList text) = .ok root' ∧ root'.bare = root.bare := by
  refine ⟨fun e he text htext => he.parse htext, fun source root hroot => ?_⟩
  have hprogram := isProgram_of_parse hroot
  exact ⟨hprogram.shapedExpressions, fun text htext => hprogram.parse htext⟩

/-- A difference, and a program in which an `else` follows two `if`s. -/
theorem parse_printed_difference :
    (∃ e', outcome (expression (Lexer.tokens "1 - a . length ")) = .ok (e', []) ∧
      e'.bare = ⟨.binary, ⟨[("op", .text "-")]⟩, [⟨.intLiteral, ⟨[("value", .int 1)]⟩, [], {}⟩,
        ⟨.length, {}, [⟨.varRef, ⟨[("name", .text "a")]⟩, [], {}⟩], {}⟩], {}⟩) ∧
    ∃ root, Node.parse "class A\x7bvoid f()\x7bif(true)if(false)return;else return;\x7d\x7d" = .ok root ∧
      ∃ root', Node.parse "class A \x7b void f ( ) \x7b if ( true ) if ( false ) return ; else return ; \x7d \x7d " =
        .ok root' ∧ root'.bare = root.bare := by
  refine ⟨?_, ?_⟩
  · have he : IsExpression ⟨.binary, ⟨[("op", .text "-")]⟩, [⟨.intLiteral, ⟨[("value", .int 1)]⟩, [], {}⟩,
        ⟨.length, {}, [⟨.varRef, ⟨[("name", .text "a")]⟩, [], {}⟩], {}⟩], {}⟩ :=
      .binary (by decide) (.intLiteral 1 {})
        (.length (.varRef ⟨⟨'a', [], by decide, by decide, List.forall_mem_nil _⟩, by decide⟩ {}) (by decide) {})
        (by decide) (by decide) {}
    have htext : String.ofList (spread (lexemes ⟨.binary, ⟨[("op", .text "-")]⟩,
        [⟨.intLiteral, ⟨[("value", .int 1)]⟩, [], {}⟩, ⟨.length, {}, [⟨.varRef, ⟨[("name", .text "a")]⟩, [], {}⟩],
          {}⟩], {}⟩)) = "1 - a . length " := by decide +kernel
    rw [← htext]
    exact parse_printed.1 _ he _ (spaced_spread _)
  · have hprinted : (Node.parse "class A\x7bvoid f()\x7bif(true)if(false)return;else return;\x7d\x7d").toOption.map
        (fun root => String.ofList (spread root.lexemes)) = some
          "class A \x7b void f ( ) \x7b if ( true ) if ( false ) return ; else return ; \x7d \x7d " := by decide +kernel
    cases hroot : Node.parse "class A\x7bvoid f()\x7bif(true)if(false)return;else return;\x7d\x7d" with
    | error e =>
      rw [hroot] at hprinted
      cases hprinted
    | ok root =>
      rw [hroot] at hprinted
      refine ⟨root, rfl, ?_⟩
      rw [← Option.some.inj hprinted]
      exact (parse_printed.2 _ root hroot).2 _ (spaced_spread _)

end Node
end JmmCompiler

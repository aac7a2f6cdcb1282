import JmmCompiler.Proofs.PrintedExpression
import JmmCompiler.Proofs.StatementShape
/-! Reading statements back from the tokens that they are printed with. A statement that stands for a chain
of segments is printed as that chain, so the chain is read again, and what it stands for is determined by
it. -/
namespace JmmCompiler

/-! ## Chains of segments -/

def Header.lexemes : Header → List Lexeme
  | .ifHeader _ c => TokenKind.lexeme .ifWord :: TokenKind.lexeme .leftParen ::
      (c.lexemes ++ [TokenKind.lexeme .rightParen])
  | .whileHeader _ c => TokenKind.lexeme .whileWord :: TokenKind.lexeme .leftParen ::
      (c.lexemes ++ [TokenKind.lexeme .rightParen])

/-- A header without its places. -/
def Header.bare : Header → Header
  | .ifHeader _ c => .ifHeader {} c.bare
  | .whileHeader _ c => .whileHeader {} c.bare

namespace Segment
variable {w : Nat} {p : Position} {c : Node} {headers : List Header} {body : Statement}
  {first s : Segment} {rest before after : List Segment}

/-- The tokens of a segment. -/
def lexemes (s : Segment) : List Lexeme := s.headers.flatMap Header.lexemes ++ s.body.node.lexemes

/-- The tokens of a chain. -/
def chained (first : Segment) (rest : List Segment) : List Lexeme :=
  first.lexemes ++ rest.flatMap (TokenKind.lexeme .elseWord :: ·.lexemes)

/-- A segment without places and declarations. -/
def bare (s : Segment) : Segment := ⟨s.headers.map Header.bare, .simple s.body.node.bare⟩

theorem complete_cons (w : Nat) (first s : Segment) (rest : List Segment) :
    complete w (first :: s :: rest) = (0 < w + first.ifs && complete (w + first.ifs - 1) (s :: rest)) :=
  complete.eq_3 w first (s :: rest) (by simp)

/-- Where a chain needs an `if` before it, one of its `else`s can go to that one. -/
theorem exists_cut (h : complete (w + 1) (first :: rest)) (hn : complete w (first :: rest) = false) :
    ∃ before s after, rest = before ++ s :: after ∧ complete w (first :: before) ∧
      complete 0 (s :: after) := by
  induction rest generalizing first w with
  | nil => simp [complete] at hn
  | cons s rest ih =>
    rw [complete_cons] at h hn
    cases hwaiting : w + first.ifs with
    | zero =>
      refine ⟨[], s, rest, rfl, by rw [complete], ?_⟩
      have hw : w + 1 + first.ifs - 1 = 0 := by omega
      rw [hw] at h
      simpa using (Bool.and_eq_true_iff.1 h).2
    | succ k =>
      have hw : w + 1 + first.ifs - 1 = k + 1 := by omega
      rw [hw] at h
      rw [hwaiting] at hn
      obtain ⟨before, t, after, rfl, hbefore, hafter⟩ :=
        ih (by simpa using (Bool.and_eq_true_iff.1 h).2) (by simpa using hn)
      refine ⟨s :: before, t, after, rfl, ?_, hafter⟩
      rw [complete_cons, hwaiting]
      simpa using hbefore

theorem complete_of_lastCut? (h : lastCut? first rest = some (before, s, after)) :
    complete 0 (first :: before) ∧ complete 0 (s :: after) := by
  simpa using List.find?_some h

/-- Without a last `else` the chain is complete without the `if` in front of it. -/
theorem complete_of_lastCut?_none (hcomplete : complete 0 (⟨.ifHeader p c :: headers, body⟩ :: rest))
    (h : lastCut? ⟨headers, body⟩ rest = none) : complete 0 (⟨headers, body⟩ :: rest) := by
  by_contra hn
  have hwaiting : complete 1 (⟨headers, body⟩ :: rest) := by
    cases rest with
    | nil => rw [complete]
    | cons s rest =>
      have hifs : ifs ⟨.ifHeader p c :: headers, body⟩ = 1 + ifs ⟨headers, body⟩ := by
        simp [ifs, isIf, List.countP_cons, Nat.add_comm]
      rw [complete_cons, hifs] at hcomplete
      rw [complete_cons]
      simpa using hcomplete
  obtain ⟨before, s, after, hrest, hbefore, hafter⟩ := exists_cut hwaiting (by simpa using hn)
  have hnone := List.find?_eq_none.1 h (before, s, after) (List.mem_reverse.2 (mem_cuts.2 hrest))
  simp [hbefore, hafter] at hnone

/-- What a chain stands for is written as the chain, however the bodies are written. -/
theorem written_resolve {f : Statement → List Lexeme}
    (hwhile : ∀ p c b, f (.whileLoop p c b) = (Header.whileHeader p c).lexemes ++ f b)
    (hthen : ∀ p c t, f (.ifThen p c t) = (Header.ifHeader p c).lexemes ++ f t)
    (helse : ∀ p c t e, f (.ifElse p c t e) =
      (Header.ifHeader p c).lexemes ++ (f t ++ TokenKind.lexeme .elseWord :: f e))
    (hcomplete : complete 0 (first :: rest)) :
    f (resolve first rest) = first.headers.flatMap Header.lexemes ++ f first.body ++
      rest.flatMap fun s =>
        TokenKind.lexeme .elseWord :: (s.headers.flatMap Header.lexemes ++ f s.body) := by
  induction first, rest using resolve.induct with
  | case1 body rest =>
    have hrest : rest = [] := by
      cases rest with
      | nil => rfl
      | cons s rest => simp [complete_cons, ifs] at hcomplete
    simp [resolve, hrest]
  | case2 p c headers body rest ih =>
    have hinner : complete 0 (⟨headers, body⟩ :: rest) := by
      cases rest with
      | nil => rw [complete]
      | cons s rest => simpa [complete_cons, ifs, isIf] using hcomplete
    rw [resolve, hwhile, ih hinner]
    simp
  | case3 p c headers body rest before s after hcut ihbefore ihafter =>
    obtain ⟨hbefore, hafter⟩ := complete_of_lastCut? hcut
    rw [resolve_if_some hcut, helse, ihbefore hbefore, ihafter hafter, eq_of_lastCut? hcut]
    simp
  | case4 p c headers body rest hcut ih =>
    rw [resolve_if_none hcut, hthen, ih (complete_of_lastCut?_none hcomplete hcut)]
    simp

/-- What a chain stands for is printed as the chain. -/
theorem lexemes_resolve (hcomplete : complete 0 (first :: rest)) :
    (resolve first rest).node.lexemes = chained first rest := by
  refine written_resolve (f := (·.node.lexemes)) (fun p c b => ?_) (fun p c t => ?_)
    (fun p c t e => ?_) hcomplete
  · simp [Statement.node, Node.plain, Node.lexemes_whileStmt, Header.lexemes]
  · simp [Statement.node, Node.plain, Node.lexemes_ifThen, Header.lexemes]
  · simp [Statement.node, Node.plain, Node.lexemes_ifElse, Header.lexemes]

/-! What a chain stands for does not depend on places and declarations. -/

@[simp] theorem ifs_bare (s : Segment) : s.bare.ifs = s.ifs := by
  have hif : isIf ∘ Header.bare = isIf := by
    funext h
    cases h <;> rfl
  simp [ifs, bare, List.countP_map, hif]

theorem complete_bare (w : Nat) (chain : List Segment) : complete w (chain.map bare) = complete w chain := by
  induction chain generalizing w with
  | nil => rfl
  | cons s rest ih =>
    cases rest with
    | nil => simp [complete]
    | cons t rest =>
      rw [List.map_cons, List.map_cons, complete_cons, complete_cons, ifs_bare, ← List.map_cons, ih]

theorem cuts_bare (chain : List Segment) :
    cuts (chain.map bare) = (cuts chain).map fun c => (c.1.map bare, c.2.1.bare, c.2.2.map bare) := by
  induction chain with
  | nil => rfl
  | cons s rest ih => simp [cuts, ih, Function.comp_def]

theorem lastCut?_bare (first : Segment) (rest : List Segment) :
    lastCut? first.bare (rest.map bare) =
      (lastCut? first rest).map fun c => (c.1.map bare, c.2.1.bare, c.2.2.map bare) := by
  simp only [lastCut?, cuts_bare, ← List.map_reverse, List.find?_map]
  congr 2
  funext c
  simp only [Function.comp_apply, ← List.map_cons, complete_bare]

theorem resolve_bare (first : Segment) (rest : List Segment) :
    (resolve first.bare (rest.map bare)).node = (resolve first rest).node.bare := by
  induction first, rest using resolve.induct with
  | case1 body rest => simp [resolve, bare, Statement.node]
  | case2 p c headers body rest ih =>
    simp only [bare, List.map_cons, Header.bare] at ih ⊢
    rw [resolve, resolve, Statement.node, Statement.node, ih]
    simp [Node.plain, Node.bare_mk]
  | case3 p c headers body rest before s after hcut ihbefore ihafter =>
    have hcut' := lastCut?_bare ⟨headers, body⟩ rest
    rw [hcut] at hcut'
    simp only [bare, List.map_cons, Header.bare, Option.map_some] at ihbefore ihafter hcut' ⊢
    rw [resolve_if_some hcut', resolve_if_some hcut, Statement.node, Statement.node, ihbefore, ihafter]
    simp [Node.plain, Node.bare_mk]
  | case4 p c headers body rest hcut ih =>
    have hcut' := lastCut?_bare ⟨headers, body⟩ rest
    rw [hcut] at hcut'
    simp only [bare, List.map_cons, Header.bare, Option.map_none] at ih hcut' ⊢
    rw [resolve_if_none hcut', resolve_if_none hcut, Statement.node, Statement.node, ih]
    simp [Node.plain, Node.bare_mk]

/-- Without declarations in its segments a chain has none. -/
theorem locals_resolve (h : ∀ s ∈ first :: rest, s.body.locals = []) : (resolve first rest).locals = [] := by
  refine resolve_induction (P := fun s => s.locals = []) (C := fun _ => True) ?_ ?_ ?_
    fun s hs => ⟨fun _ _ => trivial, h s hs⟩
  · exact fun _ _ _ _ hb => hb
  · exact fun _ _ _ _ ht => ht
  · intro _ _ _ _ _ ht he
    simp only [Statement.locals, ht, he, List.append_nil]

end Segment

/-! ## Where no declaration starts -/

namespace Reader
variable {ts : List Token} {ls : List Lexeme} {l : Lexeme}

/-- Whether tokens of these classes start a declaration. -/
def Declares (ls : List Lexeme) : Bool :=
  match (ls.take 3).map Prod.fst with
  | .intWord :: _ | .booleanWord :: _ | .voidWord :: _ => true
  | .identifier :: .identifier :: _ | .identifier :: .ellipsis :: _ => true
  | .identifier :: .leftBracket :: .rightBracket :: _ => true
  | _ => false

theorem startsDeclaration_of_map (h : ts.map Token.lexeme = ls) : startsDeclaration ts = Declares ls := by
  subst h
  rw [startsDeclaration, Declares, ← List.map_take, List.map_map]
  rfl

/-- A token that starts neither a type nor a name. -/
theorem declares_of_kind (hl : l.1 ∉ [TokenKind.intWord, .booleanWord, .voidWord, .identifier]) :
    Declares (l :: ls) = false := by
  simp only [List.mem_cons, List.not_mem_nil, or_false, not_or] at hl
  unfold Declares
  split <;> simp_all

/-- A name before a token that stands after no name of a type. -/
theorem declares_name {name : Lexeme} (hname : name.1 = .identifier)
    (hl : l.1 ∉ [TokenKind.identifier, .ellipsis, .leftBracket]) : Declares (name :: l :: ls) = false := by
  simp only [List.mem_cons, List.not_mem_nil, or_false, not_or] at hl
  unfold Declares
  split <;> simp_all

/-- A name before an index. -/
theorem declares_index {name : Lexeme} {index : Node} (hname : name.1 = .identifier)
    (hindex : index.IsExpression) :
    Declares (name :: TokenKind.lexeme .leftBracket :: (index.lexemes ++ ls)) = false := by
  obtain ⟨l, tail, hl, hmem⟩ := hindex.starts
  have hne : l.1 ≠ .rightBracket := by
    rintro heq
    rw [heq] at hmem
    revert hmem
    decide
  rw [hl]
  unfold Declares
  split <;> simp_all [TokenKind.lexeme]

/-- Where a name starts no declaration, no expression does. -/
theorem declares_expression {e : Node} (h : e.IsExpression)
    (hls : ∀ name : Lexeme, name.1 = .identifier → Declares (name :: ls) = false) :
    Declares (e.lexemes ++ ls) = false := by
  induction h generalizing ls with
  | intLiteral value p => exact declares_of_kind (by simp)
  | boolLiteral value p =>
    rw [Node.lexemes_boolLiteral]
    cases value <;> exact declares_of_kind (by decide)
  | thisRef p => exact declares_of_kind (by decide)
  | varRef hname p =>
    rw [Node.lexemes_varRef]
    exact hls _ hname.2
  | paren hinner p ih => exact declares_of_kind (by decide)
  | newObject hname p => exact declares_of_kind (by decide)
  | newArray hname hsize p ih => exact declares_of_kind (by decide)
  | arrayLiteral helements p ih => exact declares_of_kind (by decide)
  | arrayAccess harray hindex htight p ih _ =>
    rw [Node.lexemes_arrayAccess, List.append_assoc, List.cons_append, List.append_assoc]
    exact ih fun name hname => declares_index hname hindex
  | length harray htight p ih =>
    rw [Node.lexemes_length, List.append_assoc]
    exact ih fun name hname => declares_name hname (by decide)
  | call hname hreceiver hargs htight p ih _ =>
    rw [Node.lexemes_call, List.append_assoc]
    exact ih fun name hname => declares_name hname (by decide)
  | unary hoperand htight p ih =>
    rw [Node.lexemes_unary]
    exact declares_of_kind (by decide)
  | binary hop hleft hright hleftTight hrightTight p ih _ =>
    obtain ⟨level, hlevel, -, hoperator, -⟩ := Lexeme.level_of_operator hop
    have hall : ∀ level < 6, operatorAt level ∉ [TokenKind.identifier, .ellipsis, .leftBracket] := by
      decide
    rw [Node.lexemes_binary, List.append_assoc, List.cons_append, hoperator]
    exact ih fun name hname => declares_name hname (hall level hlevel)

/-! ## Simple statements -/

/-- The tokens that a statement starts with. -/
def statementStarters : List TokenKind := .ifWord :: .whileWord :: .leftBrace :: .returnWord :: starters

/-- A return starts with its word, and any other simple statement with an expression. -/
theorem starts_simple {n : Node} (h : n.IsSimple) :
    ∃ l tail, n.lexemes = l :: tail ∧
      ((n.kind = .returnStmt ∧ l.1 = .returnWord) ∨ (n.kind ≠ .returnStmt ∧ l.1 ∈ starters)) := by
  cases h with
  | @assign name value hname hvalue p q =>
    rw [Node.lexemes_assign, Node.lexemes_varRef, Lexeme.word_of_isName hname]
    exact ⟨_, _, rfl, .inr ⟨by simp, by simp [starters]⟩⟩
  | @arrayAssign name index value hname hindex hvalue p q =>
    rw [Node.lexemes_arrayAssign, Node.lexemes_varRef, Lexeme.word_of_isName hname]
    exact ⟨_, _, rfl, .inr ⟨by simp, by simp [starters]⟩⟩
  | exprStmt he p =>
    obtain ⟨l, tail, hl, hmem⟩ := he.starts
    exact ⟨l, _, by rw [Node.lexemes_exprStmt, hl]; rfl, .inr ⟨by simp, hmem⟩⟩
  | returnNothing p => exact ⟨_, _, Node.lexemes_returnNothing p, .inl ⟨rfl, rfl⟩⟩
  | returnValue hvalue p => exact ⟨_, _, Node.lexemes_returnValue p _, .inl ⟨rfl, rfl⟩⟩

theorem declares_simple {n : Node} (h : n.IsSimple) : Declares (n.lexemes ++ ls) = false := by
  cases h with
  | @assign name value hname hvalue p q =>
    rw [Node.lexemes_assign, Node.lexemes_varRef]
    exact declares_name hname.2 (by decide)
  | @arrayAssign name index value hname hindex hvalue p q =>
    rw [Node.lexemes_arrayAssign, Node.lexemes_varRef, List.append_assoc, List.cons_append,
      List.nil_append, List.cons_append, List.append_assoc]
    exact declares_index hname.2 hindex
  | exprStmt he p =>
    rw [Node.lexemes_exprStmt, List.append_assoc]
    exact declares_expression he fun name hname => declares_name hname (by decide)
  | returnNothing p => exact declares_of_kind (by decide)
  | returnValue hvalue p => exact declares_of_kind (by decide)

theorem yields_expression {e : Node} (he : e.IsExpression) (hts : ts.map Token.lexeme = e.lexemes ++ l :: ls)
    (hl : l.1 ∈ [TokenKind.rightParen, .rightBracket, .comma, .semicolon, .equals]) :
    Yields (outcome (expression ts)) (·.bare = e.bare) (l :: ls) :=
  he.readsBack.expression he.looseness_le hts (ends_of_kind hl)

theorem yields_assignment {n : Node} (h : n.IsSimple) (hkind : n.kind ≠ .returnStmt)
    (hts : ts.map Token.lexeme = n.lexemes ++ ls) :
    Yields (outcome (assignment ts)) (·.bare = n.bare) ls := by
  rw [outcome_assignment]
  cases h with
  | @assign name value hname hvalue p q =>
    rw [Node.lexemes_assign, List.append_assoc, List.cons_append, List.append_assoc] at hts
    refine Yields.bind (yields_expression (.varRef hname p) hts (by decide)) fun target rest htarget hrest => ?_
    obtain ⟨children, p', rfl, hchildren⟩ := Node.eq_of_bare_eq htarget
    obtain rfl : children = [] := by simpa using hchildren
    have hfront : front? rest = some .equals := by rw [front?_of_map hrest]; rfl
    simp only [hfront, if_true, assignTo?]
    refine Yields.bind (yields_take hrest) fun _ rest _ hrest => ?_
    refine Yields.bind (yields_expression hvalue hrest (by decide)) fun value' rest hvalue' hrest => ?_
    refine Yields.bind (yields_take hrest) fun _ rest _ hrest => ?_
    exact Yields.ok (by simp [Node.plain, Node.bare_mk, hvalue']) hrest
  | @arrayAssign name index value hname hindex hvalue p q =>
    have htarget := Node.IsExpression.arrayAccess (.varRef hname p) hindex rfl q
    have htokens : ts.map Token.lexeme =
        Node.lexemes ⟨.arrayAccess, {}, [⟨.varRef, ⟨[("name", .text name)]⟩, [], p⟩, index], q⟩ ++
          TokenKind.lexeme .equals :: (value.lexemes ++ TokenKind.lexeme .semicolon :: ls) := by
      rw [hts, Node.lexemes_arrayAssign, Node.lexemes_arrayAccess]
      simp
    refine Yields.bind (yields_expression htarget htokens (by decide)) fun target rest htarget hrest => ?_
    obtain ⟨children, p', rfl, hchildren⟩ := Node.eq_of_bare_eq htarget
    obtain ⟨array', children', rfl, harray', hchildren⟩ := List.map_eq_cons_iff.1 hchildren
    obtain ⟨index', children', rfl, hindex', hchildren⟩ := List.map_eq_cons_iff.1 hchildren
    obtain rfl : children' = [] := by simpa using hchildren
    obtain ⟨children, p'', rfl, hnone⟩ := Node.eq_of_bare_eq harray'
    obtain rfl : children = [] := by simpa using hnone
    have hfront : front? rest = some .equals := by rw [front?_of_map hrest]; rfl
    simp only [hfront, if_true, assignTo?]
    refine Yields.bind (yields_take hrest) fun _ rest _ hrest => ?_
    refine Yields.bind (yields_expression hvalue hrest (by decide)) fun value' rest hvalue' hrest => ?_
    refine Yields.bind (yields_take hrest) fun _ rest _ hrest => ?_
    exact Yields.ok (by simp [Node.plain, Node.bare_mk, hindex', hvalue']) hrest
  | exprStmt he p =>
    rw [Node.lexemes_exprStmt, List.append_assoc] at hts
    refine Yields.bind (yields_expression he hts (by decide)) fun target rest htarget hrest => ?_
    have hfront : front? rest ≠ some .equals := by rw [front?_of_map hrest]; simp [TokenKind.lexeme]
    dsimp only
    rw [if_neg hfront]
    refine Yields.bind (yields_take hrest) fun _ rest _ hrest => ?_
    exact Yields.ok (by simp [Node.plain, Node.bare_mk, htarget]) hrest
  | returnNothing p => exact absurd rfl hkind
  | returnValue hvalue p => exact absurd rfl hkind

theorem yields_returnStatement {n : Node} (h : n.IsSimple) (hkind : n.kind = .returnStmt)
    (hts : ts.map Token.lexeme = n.lexemes ++ ls) :
    Yields (outcome (returnStatement ts)) (·.bare = n.bare) ls := by
  rw [outcome_returnStatement]
  cases h with
  | returnNothing p =>
    rw [Node.lexemes_returnNothing] at hts
    refine Yields.bind (yields_take hts) fun word rest _ hrest => ?_
    have hfront : front? rest = some .semicolon := by rw [front?_of_map hrest]; rfl
    dsimp only
    rw [if_pos hfront]
    refine Yields.bind (yields_take hrest) fun _ rest _ hrest => ?_
    exact Yields.ok (by simp [Node.plain, Node.bare_mk]) hrest
  | @returnValue value hvalue p =>
    rw [Node.lexemes_returnValue, List.cons_append, List.append_assoc] at hts
    refine Yields.bind (yields_take hts) fun word rest _ hrest => ?_
    have hfront : front? rest ≠ some .semicolon := by
      obtain ⟨l, tail, hl, hmem⟩ := hvalue.starts
      rw [front?_of_map hrest, hl]
      simp only [List.cons_append, List.head?_cons, Option.map_some, ne_eq, Option.some.injEq]
      rintro heq
      rw [heq] at hmem
      revert hmem
      decide
    dsimp only
    rw [if_neg hfront]
    refine Yields.bind (yields_expression hvalue hrest (by decide)) fun value' rest hvalue' hrest => ?_
    refine Yields.bind (yields_take hrest) fun _ rest _ hrest => ?_
    exact Yields.ok (by simp [Node.plain, Node.bare_mk, hvalue']) hrest
  | assign => cases hkind
  | arrayAssign => cases hkind
  | exprStmt => cases hkind

/-! ## Segments, chains and items -/

theorem yields_header {h : Header} (hcondition : h.condition.IsExpression)
    (hts : ts.map Token.lexeme = h.lexemes ++ ls) :
    Yields (outcome (header ts)) (·.bare = h.bare) ls := by
  have hcases : ∃ word, (word = .ifWord ∨ word = .whileWord) ∧
      h.lexemes = TokenKind.lexeme word :: TokenKind.lexeme .leftParen ::
        (h.condition.lexemes ++ [TokenKind.lexeme .rightParen]) ∧
      ∀ c p, c.bare = h.condition.bare →
        (if word = .ifWord then Header.ifHeader p c else Header.whileHeader p c).bare = h.bare := by
    cases h with
    | ifHeader p c => exact ⟨.ifWord, .inl rfl, rfl, fun c p hc => by simpa [Header.bare, Header.condition] using hc⟩
    | whileHeader p c => exact ⟨.whileWord, .inr rfl, rfl, fun c p hc => by simpa [Header.bare, Header.condition] using hc⟩
  obtain ⟨word, -, hlexemes, hbare⟩ := hcases
  rw [hlexemes, List.cons_append, List.cons_append, List.append_assoc] at hts
  obtain ⟨t, rest, rfl, hkind, -, hrest⟩ := exists_cons_of_map hts
  have hkind : t.kind = word := hkind
  rw [outcome_header_cons, hkind]
  refine Yields.bind (yields_take hrest) fun _ rest _ hrest => ?_
  refine Yields.bind (yields_expression hcondition hrest (by decide)) fun c rest hc hrest => ?_
  refine Yields.bind (yields_take hrest) fun _ rest _ hrest => ?_
  exact Yields.ok (hbare c _ hc) hrest

/-- A segment is read back, without the declarations in it. -/
def ReadsSegment (s : Segment) : Prop :=
  ∀ (ts : List Token) (ls : List Lexeme), ts.map Token.lexeme = s.lexemes ++ ls →
    Yields (outcome (segment ts)) (fun s' => s'.bare = s.bare ∧ s'.body.locals = []) ls

/-- A statement is read back, without the declarations in it, where no `else` follows. -/
structure ReadsStatement (n : Node) : Prop where
  starts : ∃ l tail, n.lexemes = l :: tail ∧ l.1 ∈ statementStarters
  declares (ls : List Lexeme) : Declares (n.lexemes ++ ls) = false
  reads {ts : List Token} {ls : List Lexeme} (hts : ts.map Token.lexeme = n.lexemes ++ ls)
    (hls : ∀ l ∈ ls.head?, l.1 ≠ .elseWord) :
    Yields (outcome (statement ts)) (fun s => s.node.bare = n.bare ∧ s.locals = []) ls

/-- A header and the segment after it are read back. -/
theorem yields_headed {h : Header} {headers : List Header} {body : Statement} (hcondition : h.condition.IsExpression)
    (ih : ReadsSegment ⟨headers, body⟩)
    (hts : ts.map Token.lexeme = h.lexemes ++ (Segment.lexemes ⟨headers, body⟩ ++ ls)) :
    Yields (do
      let (h, ts) ← outcome (header ts)
      let (s, ts) ← outcome (segment ts)
      return ((⟨h :: s.headers, s.body⟩ : Segment), ts))
      (fun s' => s'.bare = Segment.bare ⟨h :: headers, body⟩ ∧ s'.body.locals = []) ls := by
  refine Yields.bind (yields_header hcondition hts) fun h' rest hh' hrest => ?_
  refine Yields.bind (ih rest ls hrest) ?_
  rintro s' rest ⟨hs', hlocals⟩ hrest
  refine Yields.ok ⟨?_, hlocals⟩ hrest
  simp only [Segment.bare, Segment.mk.injEq] at hs' ⊢
  exact ⟨by rw [List.map_cons, List.map_cons, hh', hs'.1], hs'.2⟩

theorem readsSegment_of_headers {headers : List Header} {body : Statement}
    (hheaders : ∀ h ∈ headers, h.condition.IsExpression) (hbody : ReadsSegment ⟨[], body⟩) :
    ReadsSegment ⟨headers, body⟩ := by
  induction headers with
  | nil => exact hbody
  | cons h headers ih =>
    intro ts ls hts
    obtain ⟨hcondition, hheaders⟩ := List.forall_mem_cons.1 hheaders
    have hfront : front? ts = some .ifWord ∨ front? ts = some .whileWord := by
      rw [front?_of_map hts]
      cases h with
      | ifHeader p c => exact .inl rfl
      | whileHeader p c => exact .inr rfl
    have htokens : ts.map Token.lexeme = h.lexemes ++ (Segment.lexemes ⟨headers, body⟩ ++ ls) := by
      simpa [Segment.lexemes] using hts
    have hread := yields_headed hcondition (ih hheaders) htokens
    rw [outcome_segment]
    rcases hfront with hfront | hfront <;> rw [hfront] <;> exact hread

theorem yields_simple {n : Node} {x : Except SyntaxError (Node × List Token)} (hx : Yields x (·.bare = n.bare) ls) :
    Yields (do
      let (s, ts) ← x
      return ((⟨[], .simple s⟩ : Segment), ts))
      (fun s' => s'.bare = Segment.bare ⟨[], .simple n⟩ ∧ s'.body.locals = []) ls := by
  refine Yields.bind hx fun s rest hs hrest => Yields.ok ⟨?_, rfl⟩ hrest
  simp [Segment.bare, Statement.node, hs]

theorem readsSegment_simple {n : Node} (hn : n.IsSimple) : ReadsSegment ⟨[], .simple n⟩ := by
  intro ts ls hts
  have htokens : ts.map Token.lexeme = n.lexemes ++ ls := hts
  obtain ⟨l, tail, hl, hstart⟩ := starts_simple hn
  have hfront : front? ts = some l.1 := by rw [front?_of_map htokens, hl]; rfl
  rw [outcome_segment, hfront]
  rcases hstart with ⟨hkind, hword⟩ | ⟨hkind, hword⟩
  · rw [hword]
    exact yields_simple (yields_returnStatement hn hkind htokens)
  · have hread := yields_simple (yields_assignment hn hkind htokens)
    generalize l.1 = word at hword ⊢
    simp only [starters, List.mem_cons, List.not_mem_nil, or_false] at hword
    rcases hword with rfl | rfl | rfl | rfl | rfl | rfl | rfl | rfl | rfl <;> exact hread

theorem yields_chain {first : Segment} {rest : List Segment} {waiting : Nat}
    (hparts : ∀ s ∈ first :: rest, ReadsSegment s) (hcomplete : Segment.complete waiting (first :: rest))
    (hts : ts.map Token.lexeme = Segment.chained first rest ++ ls) (hls : ∀ l ∈ ls.head?, l.1 ≠ .elseWord) :
    Yields (outcome (chain waiting ts)) (fun parts =>
      (parts.1 :: parts.2).map Segment.bare = (first :: rest).map Segment.bare ∧
        ∀ s ∈ parts.1 :: parts.2, s.body.locals = []) ls := by
  induction rest generalizing first waiting ts with
  | nil =>
    rw [outcome_chain]
    refine Yields.bind (hparts first (by simp) ts ls (by simpa [Segment.chained] using hts)) ?_
    rintro first' rest ⟨hfirst, hlocals⟩ hrest
    have hfront : front? rest ≠ some .elseWord := by
      rw [front?_of_map hrest]
      cases ls with
      | nil => simp
      | cons l ls => simpa using hls l
    dsimp only
    rw [if_neg fun h => hfront h.1]
    exact Yields.ok ⟨by simpa using hfirst, by simpa using hlocals⟩ hrest
  | cons second others ih =>
    rw [Segment.complete_cons, Bool.and_eq_true, decide_eq_true_eq] at hcomplete
    rw [outcome_chain]
    have htokens : ts.map Token.lexeme =
        first.lexemes ++ TokenKind.lexeme .elseWord :: (Segment.chained second others ++ ls) := by
      simpa [Segment.chained] using hts
    refine Yields.bind (hparts first (by simp) ts _ htokens) ?_
    rintro first' rest ⟨hfirst, hlocals⟩ hrest
    have hfront : front? rest = some .elseWord := by rw [front?_of_map hrest]; rfl
    have hifs : first'.ifs = first.ifs := by rw [← Segment.ifs_bare, hfirst, Segment.ifs_bare]
    dsimp only
    rw [if_pos ⟨hfront, by rw [hifs]; exact hcomplete.1⟩, hifs]
    refine Yields.bind (yields_take hrest) fun _ rest _ hrest => ?_
    refine Yields.bind (ih (fun s hs => hparts s (List.mem_cons_of_mem _ hs)) hcomplete.2 hrest) ?_
    rintro ⟨second', others'⟩ rest ⟨hothers, hlocals'⟩ hrest
    refine Yields.ok ⟨?_, List.forall_mem_cons.2 ⟨hlocals, hlocals'⟩⟩ hrest
    rw [List.map_cons, List.map_cons, hfirst]
    exact congrArg _ hothers

/-- No `else` stands after a statement between braces. -/
theorem no_else_after {ns : List Node} (hns : ∀ n ∈ ns, ReadsStatement n) (ls : List Lexeme) :
    ∀ l ∈ (ns.flatMap Node.lexemes ++ TokenKind.lexeme .rightBrace :: ls).head?, l.1 ≠ .elseWord := by
  cases ns with
  | nil => simp [TokenKind.lexeme]
  | cons n ns =>
    obtain ⟨l, tail, hl, hmem⟩ := (hns n (by simp)).starts
    rw [List.flatMap_cons, hl]
    simp only [List.cons_append, List.head?_cons, Option.mem_def, Option.some.injEq, forall_eq']
    rintro heq
    rw [heq] at hmem
    revert hmem
    decide

/-- Statements between braces. -/
theorem yields_items {ns : List Node} (hns : ∀ n ∈ ns, ReadsStatement n)
    (hts : ts.map Token.lexeme = ns.flatMap Node.lexemes ++ TokenKind.lexeme .rightBrace :: ls) :
    Yields (outcome (items ts))
      (fun is => (Item.allNodes is).map Node.bare = ns.map Node.bare ∧ Item.allLocals is = []) ls := by
  induction ns generalizing ts with
  | nil =>
    rw [outcome_items, if_pos (by rw [front?_of_map hts]; rfl)]
    refine Yields.bind (yields_take hts) fun _ rest _ hrest => ?_
    exact Yields.ok ⟨rfl, rfl⟩ hrest
  | cons n ns ih =>
    obtain ⟨hn, hns⟩ := List.forall_mem_cons.1 hns
    rw [List.flatMap_cons, List.append_assoc] at hts
    obtain ⟨l, tail, hl, hmem⟩ := hn.starts
    have hfront : front? ts ≠ some .rightBrace := by
      rw [front?_of_map hts, hl]
      simp only [List.cons_append, List.head?_cons, Option.map_some, ne_eq, Option.some.injEq]
      rintro heq
      rw [heq] at hmem
      revert hmem
      decide
    have hitem : Yields (outcome (item ts)) (fun i => i.node?.map Node.bare = some n.bare ∧ i.locals = [])
        (ns.flatMap Node.lexemes ++ TokenKind.lexeme .rightBrace :: ls) := by
      rw [outcome_item, if_neg (by rw [startsDeclaration_of_map hts, hn.declares]; simp)]
      refine Yields.bind (hn.reads hts (no_else_after hns ls)) ?_
      rintro s rest ⟨hs, hlocals⟩ hrest
      exact Yields.ok ⟨by simpa [Item.node?] using hs, by simpa [Item.locals] using hlocals⟩ hrest
    rw [outcome_items, if_neg hfront]
    refine Yields.bind hitem ?_
    rintro i rest ⟨hi, hlocals⟩ hrest
    refine Yields.bind (ih hns hrest) ?_
    rintro is rest ⟨his, hlocals'⟩ hrest
    obtain ⟨n', hn', heq⟩ := Option.map_eq_some_iff.1 hi
    exact Yields.ok ⟨by simp [Item.allNodes, hn', heq, his], by simp [Item.allLocals, hlocals, hlocals']⟩ hrest

end Reader

/-! ## All statements -/

open Reader

theorem Segment.Readable.starts {s : Segment} (h : s.Readable) :
    (∃ l tail, s.lexemes = l :: tail ∧ l.1 ∈ statementStarters) ∧
      ∀ ls, Declares (s.lexemes ++ ls) = false := by
  obtain ⟨headers, body⟩ := s
  cases headers with
  | cons header headers =>
    have hcases : ∃ l tail, header.lexemes = l :: tail ∧ (l.1 = .ifWord ∨ l.1 = .whileWord) := by
      cases header with
      | ifHeader p c => exact ⟨_, _, rfl, .inl rfl⟩
      | whileHeader p c => exact ⟨_, _, rfl, .inr rfl⟩
    obtain ⟨l, tail, hl, hword⟩ := hcases
    have hlexemes : Segment.lexemes ⟨header :: headers, body⟩ = l :: (tail ++ Segment.lexemes ⟨headers, body⟩) := by
      simp [Segment.lexemes, hl]
    rw [hlexemes]
    refine ⟨⟨l, _, rfl, ?_⟩, fun ls => declares_of_kind ?_⟩
    · rcases hword with hword | hword <;> simp [hword, statementStarters]
    · rcases hword with hword | hword <;> simp [hword]
  | nil =>
    cases h with
    | @block _ items p hheaders hitems =>
      have hlexemes : Segment.lexemes ⟨[], .block p items⟩ = _ := Node.lexemes_block p (Item.allNodes items)
      rw [hlexemes]
      exact ⟨⟨_, _, rfl, by decide⟩, fun ls => declares_of_kind (by decide)⟩
    | simple hheaders hn =>
      obtain ⟨l, tail, hl, hstart⟩ := starts_simple hn
      refine ⟨⟨l, tail, hl, ?_⟩, fun ls => declares_simple hn⟩
      rcases hstart with ⟨-, hword⟩ | ⟨-, hword⟩ <;> simp [hword, statementStarters]

/-- The statement that a chain stands for is read back. -/
theorem readsStatement_resolve {first : Segment} {rest : List Segment}
    (hparts : ∀ s ∈ first :: rest, s.Readable) (hreads : ∀ s ∈ first :: rest, ReadsSegment s)
    (hcomplete : Segment.complete 0 (first :: rest)) : ReadsStatement (Segment.resolve first rest).node := by
  have hlexemes := Segment.lexemes_resolve hcomplete
  obtain ⟨⟨l, tail, hl, hmem⟩, hdeclares⟩ := Segment.Readable.starts (hparts first (by simp))
  refine ⟨⟨l, _, by rw [hlexemes, Segment.chained, hl]; rfl, hmem⟩, fun ls => ?_, fun hts hls => ?_⟩
  · rw [hlexemes, Segment.chained, List.append_assoc]
    exact hdeclares _
  · rw [hlexemes] at hts
    rw [outcome_statement]
    refine Yields.bind (yields_chain hreads hcomplete hts hls) ?_
    rintro ⟨first', rest'⟩ rest₁ ⟨hbare, hlocals⟩ hrest
    refine Yields.ok ⟨?_, Segment.locals_resolve hlocals⟩ hrest
    simp only [List.map_cons, List.cons.injEq] at hbare
    rw [← Segment.resolve_bare, ← Segment.resolve_bare, hbare.1, hbare.2]

theorem readsSegment_block {headers : List Header} {items : List Item} (p : Position)
    (hheaders : ∀ h ∈ headers, h.condition.IsExpression)
    (hitems : ∀ i ∈ items, ∀ n ∈ i.node?, ReadsStatement n) : ReadsSegment ⟨headers, .block p items⟩ := by
  refine readsSegment_of_headers hheaders fun ts ls hts => ?_
  have hns : ∀ n ∈ Item.allNodes items, ReadsStatement n := by
    intro n hn
    obtain ⟨i, hi, hni⟩ := Item.mem_allNodes.1 hn
    exact hitems i hi n hni
  have htokens : ts.map Token.lexeme = TokenKind.lexeme .leftBrace ::
      ((Item.allNodes items).flatMap Node.lexemes ++ TokenKind.lexeme .rightBrace :: ls) := by
    rw [hts]
    simp [Segment.lexemes, Statement.node, Node.plain, Node.lexemes_block]
  have hfront : front? ts = some .leftBrace := by rw [front?_of_map htokens]; rfl
  rw [outcome_segment, hfront]
  refine Yields.bind (yields_take htokens) fun brace rest _ hrest => ?_
  refine Yields.bind (yields_items hns hrest) ?_
  rintro body rest ⟨hbody, hlocals⟩ hrest
  refine Yields.ok ⟨?_, by simpa [Statement.locals] using hlocals⟩ hrest
  simp [Segment.bare, Statement.node, Node.plain, Node.bare_mk, hbody]

/-- The assignment that a declaration leaves is read back. -/
theorem readsStatement_declaration {type n : Node} {name : Token} {initial : Option Node}
    (hname : Lexeme.IsName name.text) (hinitial : ∀ value ∈ initial, value.IsExpression)
    (hn : n ∈ (Item.declaration type name initial).node?) : ReadsStatement n := by
  obtain ⟨value, hvalue, rfl⟩ := Option.map_eq_some_iff.1 hn
  have hassign : (Node.plain .assign [Node.reference name, value] type.position).IsSimple :=
    .assign hname (hinitial value hvalue) _ _
  have hsegment : (⟨[], .simple (Node.plain .assign [Node.reference name, value] type.position)⟩ :
      Segment).Readable := .simple (by simp) hassign
  have hstatement := @readsStatement_resolve _ [] (by simpa using hsegment)
    (by simpa using readsSegment_simple hassign) (by rw [Segment.complete])
  rwa [Segment.resolve] at hstatement

/-- What is left of an item in the tree is read back. -/
theorem Item.Readable.reads {i : Item} (h : i.Readable) : ∀ n ∈ i.node?, ReadsStatement n := by
  refine @Item.Readable.rec (fun s _ => ReadsSegment s) (fun i _ => ∀ n ∈ i.node?, ReadsStatement n)
    ?block ?simple ?declaration ?statement i h
  case block => exact fun p hheaders _ ih => readsSegment_block p hheaders ih
  case simple => exact fun hheaders hn => readsSegment_of_headers hheaders (readsSegment_simple hn)
  case declaration => exact fun _ hname hinitial n hn => readsStatement_declaration hname hinitial hn
  case statement =>
    intro first rest hparts hcomplete ih n hn
    obtain rfl := Option.some.inj hn
    exact readsStatement_resolve hparts ih hcomplete

end JmmCompiler

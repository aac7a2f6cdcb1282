import JmmCompiler.Proofs.ExpressionShape
/-! The shape of statements and declarations: which of them are read, with the expressions in them. -/
namespace JmmCompiler

namespace Node

/-- Types as they are written: variable arguments count as an array as well. -/
inductive IsType : Node → Prop
  | intro {name : String} {isArray isVarargs : Bool} (hname : Lexeme.IsTypeName name)
      (harray : isVarargs → isArray) (p : Position) :
      IsType ⟨.typeRef, ⟨[("name", .text name), ("is_array", .bool isArray),
        ("is_varargs", .bool isVarargs)]⟩, [], p⟩

/-- Statements without statements in them. -/
inductive IsSimple : Node → Prop
  | assign {name : String} {value : Node} (hname : Lexeme.IsName name) (hvalue : value.IsExpression)
      (p q : Position) : IsSimple ⟨.assign, {}, [⟨.varRef, ⟨[("name", .text name)]⟩, [], p⟩, value], q⟩
  | arrayAssign {name : String} {index value : Node} (hname : Lexeme.IsName name)
      (hindex : index.IsExpression) (hvalue : value.IsExpression) (p q : Position) :
      IsSimple ⟨.arrayAssign, {}, [⟨.varRef, ⟨[("name", .text name)]⟩, [], p⟩, index, value], q⟩
  | exprStmt {e : Node} (he : e.IsExpression) (p : Position) : IsSimple ⟨.exprStmt, {}, [e], p⟩
  | returnNothing (p : Position) : IsSimple ⟨.returnStmt, {}, [], p⟩
  | returnValue {value : Node} (hvalue : value.IsExpression) (p : Position) :
      IsSimple ⟨.returnStmt, {}, [value], p⟩

/-- Declarations of fields and of local variables. -/
inductive IsVarDecl : Node → Prop
  | intro {name : String} {type : Node} (hname : Lexeme.IsName name) (htype : type.IsType) (p : Position) :
      IsVarDecl ⟨.varDecl, ⟨[("name", .text name)]⟩, [type], p⟩

/-- Statements, where any statement may stand in another one. -/
inductive IsStatement : Node → Prop
  | simple {n : Node} (hn : n.IsSimple) : IsStatement n
  | block {ns : List Node} (hns : ∀ n ∈ ns, IsStatement n) (p : Position) : IsStatement ⟨.block, {}, ns, p⟩
  | ifThen {c t : Node} (hc : c.IsExpression) (ht : IsStatement t) (p : Position) :
      IsStatement ⟨.ifStmt, {}, [c, t], p⟩
  | ifElse {c t e : Node} (hc : c.IsExpression) (ht : IsStatement t) (he : IsStatement e) (p : Position) :
      IsStatement ⟨.ifStmt, {}, [c, t, e], p⟩
  | whileLoop {c b : Node} (hc : c.IsExpression) (hb : IsStatement b) (p : Position) :
      IsStatement ⟨.whileStmt, {}, [c, b], p⟩

/-- An expression that is a variable. -/
theorem IsExpression.eq_varRef {e : Node} (h : e.IsExpression) (hkind : e.kind = .varRef) :
    ∃ name p, Lexeme.IsName name ∧ e = ⟨.varRef, ⟨[("name", .text name)]⟩, [], p⟩ := by
  cases h with
  | @varRef name hname p => exact ⟨name, p, hname, rfl⟩
  | _ => cases hkind

end Node

def Header.condition : Header → Node
  | .ifHeader _ c => c
  | .whileHeader _ c => c

mutual
/-- Headers, and a block or a simple statement after them. -/
inductive Segment.Readable : Segment → Prop
  | block {headers : List Header} {items : List Item} (p : Position)
      (hheaders : ∀ h ∈ headers, h.condition.IsExpression) (hitems : ∀ i ∈ items, Item.Readable i) :
      Segment.Readable ⟨headers, .block p items⟩
  | simple {headers : List Header} {n : Node} (hheaders : ∀ h ∈ headers, h.condition.IsExpression)
      (hn : n.IsSimple) : Segment.Readable ⟨headers, .simple n⟩

/-- A declaration, or a statement that a complete chain of segments stands for. -/
inductive Item.Readable : Item → Prop
  | declaration {type : Node} {name : Token} {initial : Option Node} (htype : type.IsType)
      (hname : Lexeme.IsName name.text) (hinitial : ∀ value ∈ initial, value.IsExpression) :
      Item.Readable (.declaration type name initial)
  | statement {first : Segment} {rest : List Segment}
      (hparts : ∀ s ∈ first :: rest, Segment.Readable s)
      (hcomplete : Segment.complete 0 (first :: rest)) :
      Item.Readable (.statement (Segment.resolve first rest))
end

namespace Segment
variable {p : Position} {c : Node} {headers : List Header} {body : Statement}
  {first s : Segment} {rest before after : List Segment}

theorem resolve_if_some (h : lastCut? ⟨headers, body⟩ rest = some (before, s, after)) :
    resolve ⟨.ifHeader p c :: headers, body⟩ rest =
      .ifElse p c (resolve ⟨headers, body⟩ before) (resolve s after) := by
  rw [resolve]
  split
  · simp_all
  · simp_all

theorem resolve_if_none (h : lastCut? ⟨headers, body⟩ rest = none) :
    resolve ⟨.ifHeader p c :: headers, body⟩ rest = .ifThen p c (resolve ⟨headers, body⟩ rest) := by
  rw [resolve]
  split
  · simp_all
  · rfl

/-- What every header and every body of a chain has, and what goes over from statements to the `if` and
`while` statements around them, the statement has that the chain stands for. -/
theorem resolve_induction {P : Statement → Prop} {C : Node → Prop}
    (hwhile : ∀ p c b, C c → P b → P (.whileLoop p c b)) (hthen : ∀ p c t, C c → P t → P (.ifThen p c t))
    (helse : ∀ p c t e, C c → P t → P e → P (.ifElse p c t e))
    (hparts : ∀ s ∈ first :: rest, (∀ h ∈ s.headers, C h.condition) ∧ P s.body) :
    P (resolve first rest) := by
  induction first, rest using resolve.induct with
  | case1 body rest =>
    rw [resolve]
    exact (hparts ⟨[], body⟩ (by simp)).2
  | case2 p c headers body rest ih =>
    obtain ⟨hhead, htail⟩ := List.forall_mem_cons.1 hparts
    rw [resolve]
    refine hwhile p c _ (hhead.1 (.whileHeader p c) (by simp)) (ih (List.forall_mem_cons.2 ⟨?_, htail⟩))
    exact ⟨fun h hh => hhead.1 h (List.mem_cons_of_mem _ hh), hhead.2⟩
  | case3 p c headers body rest before s after hcut ihbefore ihafter =>
    obtain ⟨hhead, htail⟩ := List.forall_mem_cons.1 hparts
    rw [eq_of_lastCut? hcut] at htail
    obtain ⟨hbefore, hafter⟩ := List.forall_mem_append.1 htail
    rw [resolve_if_some hcut]
    refine helse p c _ _ (hhead.1 (.ifHeader p c) (by simp))
      (ihbefore (List.forall_mem_cons.2 ⟨?_, hbefore⟩)) (ihafter hafter)
    exact ⟨fun h hh => hhead.1 h (List.mem_cons_of_mem _ hh), hhead.2⟩
  | case4 p c headers body rest hcut ih =>
    obtain ⟨hhead, htail⟩ := List.forall_mem_cons.1 hparts
    rw [resolve_if_none hcut]
    refine hthen p c _ (hhead.1 (.ifHeader p c) (by simp)) (ih (List.forall_mem_cons.2 ⟨?_, htail⟩))
    exact ⟨fun h hh => hhead.1 h (List.mem_cons_of_mem _ hh), hhead.2⟩

end Segment

namespace Item

theorem mem_allNodes {items : List Item} {n : Node} : n ∈ allNodes items ↔ ∃ i ∈ items, n ∈ i.node? := by
  induction items with
  | nil => simp [allNodes]
  | cons i items ih => simp [allNodes, ih]

theorem mem_allLocals {items : List Item} {d : Node} : d ∈ allLocals items ↔ ∃ i ∈ items, d ∈ i.locals := by
  induction items with
  | nil => simp [allLocals]
  | cons i items ih => simp [allLocals, ih]

/-- The statement and the declarations that are left of an item in the tree. -/
theorem Readable.shape {i : Item} (h : i.Readable) :
    (∀ n ∈ i.node?, n.IsStatement) ∧ ∀ d ∈ i.locals, d.IsVarDecl := by
  let Shaped (s : Statement) : Prop := s.node.IsStatement ∧ ∀ d ∈ s.locals, d.IsVarDecl
  refine @Item.Readable.rec
    (fun s _ => (∀ h ∈ s.headers, h.condition.IsExpression) ∧ Shaped s.body)
    (fun i _ => (∀ n ∈ i.node?, n.IsStatement) ∧ ∀ d ∈ i.locals, d.IsVarDecl)
    ?block ?simple ?declaration ?statement i h
  case block =>
    intro headers items p hheaders _ ih
    refine ⟨hheaders, .block (fun n hn => ?_) p, fun d hd => ?_⟩
    · obtain ⟨i, hi, hni⟩ := mem_allNodes.1 hn
      exact (ih i hi).1 n hni
    · obtain ⟨i, hi, hdi⟩ := mem_allLocals.1 hd
      exact (ih i hi).2 d hdi
  case simple => exact fun hheaders hn => ⟨hheaders, .simple hn, fun d hd => nomatch hd⟩
  case declaration =>
    intro type name initial htype hname hinitial
    refine ⟨fun n hn => ?_, fun d hd => ?_⟩
    · obtain ⟨value, hvalue, rfl⟩ := Option.map_eq_some_iff.1 hn
      exact .simple (.assign hname (hinitial value hvalue) _ _)
    · obtain rfl := List.mem_singleton.1 hd
      exact .intro hname htype _
  case statement =>
    intro first rest _ _ ih
    have hshaped : Shaped (Segment.resolve first rest) := by
      refine Segment.resolve_induction (C := Node.IsExpression) ?_ ?_ ?_ ih
      · exact fun p c b hc hb => ⟨.whileLoop hc hb.1 p, hb.2⟩
      · exact fun p c t hc ht => ⟨.ifThen hc ht.1 p, ht.2⟩
      · exact fun p c t e hc ht he =>
          ⟨.ifElse hc ht.1 he.1 p, List.forall_mem_append.2 ⟨ht.2, he.2⟩⟩
    exact ⟨fun n hn => Option.some.inj hn ▸ hshaped.1, hshaped.2⟩

variable {items : List Item}

theorem isVarDecl_of_mem_allLocals (h : ∀ i ∈ items, i.Readable) : ∀ d ∈ allLocals items, d.IsVarDecl := by
  intro d hd
  obtain ⟨i, hi, hdi⟩ := mem_allLocals.1 hd
  exact (h i hi).shape.2 d hdi

theorem isStatement_of_mem_allNodes (h : ∀ i ∈ items, i.Readable) : ∀ n ∈ allNodes items, n.IsStatement := by
  intro n hn
  obtain ⟨i, hi, hni⟩ := mem_allNodes.1 hn
  exact (h i hi).shape.1 n hni

end Item

namespace Reader
variable {ts : List Token} {n : Nat}
open Lexer (AllValid)

theorem ensures_type (hts : AllValid ts) :
    Ensures (outcome (type ts)) fun type rest => type.IsType ∧ AllValid rest := by
  rw [outcome_type]
  refine Ensures.bind (ensures_baseType hts) ?_
  rintro name rest ⟨hname, _, hrest⟩ _
  dsimp only
  split
  · refine Ensures.bind (ensures_take (by decide) hrest) ?_
    rintro _ rest ⟨_, _, hrest⟩ _
    refine Ensures.bind (ensures_take (by decide) hrest) ?_
    rintro _ rest ⟨_, _, hrest⟩ _
    exact Ensures.ok ⟨.intro hname (by simp) _, hrest⟩
  · refine Ensures.bind (ensures_take (by decide) hrest) ?_
    rintro _ rest ⟨_, _, hrest⟩ _
    exact Ensures.ok ⟨.intro hname (by simp) _, hrest⟩
  · exact Ensures.ok ⟨.intro hname (by simp) _, hrest⟩

theorem ensures_declaration (hts : AllValid ts) :
    Ensures (outcome (declaration ts)) fun i rest => i.Readable ∧ AllValid rest := by
  rw [outcome_declaration]
  refine Ensures.bind (ensures_type hts) ?_
  rintro type rest ⟨htype, hrest⟩ _
  refine Ensures.bind (ensures_take (by decide) hrest) ?_
  rintro name rest ⟨_, hname, hrest⟩ _
  dsimp only
  split
  · refine Ensures.bind (ensures_take (by decide) hrest) ?_
    rintro _ rest ⟨_, _, hrest⟩ _
    refine Ensures.bind (ensures_expression hrest) ?_
    rintro value rest ⟨hvalue, hrest⟩ _
    refine Ensures.bind (ensures_take (by decide) hrest) ?_
    rintro _ rest ⟨_, _, hrest⟩ _
    exact Ensures.ok ⟨.declaration htype hname (by simpa using hvalue), hrest⟩
  · refine Ensures.bind (ensures_take (by decide) hrest) ?_
    rintro _ rest ⟨_, _, hrest⟩ _
    exact Ensures.ok ⟨.declaration htype hname (by simp), hrest⟩

theorem isSimple_assignTo {target value : Node} {assign : Node → Node} (htarget : target.IsExpression)
    (hassign : assignTo? target = some assign) (hvalue : value.IsExpression) : (assign value).IsSimple := by
  unfold assignTo? at hassign
  split at hassign
  · rename_i a cs p
    obtain ⟨name, q, hname, heq⟩ := htarget.eq_varRef rfl
    cases heq
    cases hassign
    exact .assign hname hvalue _ _
  · rename_i a array index p
    split at hassign
    case isFalse => cases hassign
    case isTrue hkind =>
      cases hassign
      cases htarget with
      | arrayAccess harray hindex htight =>
        obtain ⟨name, q, hname, rfl⟩ := harray.eq_varRef hkind
        exact .arrayAssign hname hindex hvalue _ _
  · cases hassign

theorem ensures_assignment (hts : AllValid ts) :
    Ensures (outcome (assignment ts)) fun s rest => s.IsSimple ∧ AllValid rest := by
  rw [outcome_assignment]
  refine Ensures.bind (ensures_expression hts) ?_
  rintro target rest ⟨htarget, hrest⟩ _
  dsimp only
  split
  · split
    case h_2 => exact Ensures.error _
    case h_1 assign hassign =>
      refine Ensures.bind (ensures_take (by decide) hrest) ?_
      rintro _ rest ⟨_, _, hrest⟩ _
      refine Ensures.bind (ensures_expression hrest) ?_
      rintro value rest ⟨hvalue, hrest⟩ _
      refine Ensures.bind (ensures_take (by decide) hrest) ?_
      rintro _ rest ⟨_, _, hrest⟩ _
      exact Ensures.ok ⟨isSimple_assignTo htarget hassign hvalue, hrest⟩
  · refine Ensures.bind (ensures_take (by decide) hrest) ?_
    rintro _ rest ⟨_, _, hrest⟩ _
    exact Ensures.ok ⟨.exprStmt htarget _, hrest⟩

theorem ensures_returnStatement (hts : AllValid ts) :
    Ensures (outcome (returnStatement ts)) fun s rest => s.IsSimple ∧ AllValid rest := by
  rw [outcome_returnStatement]
  refine Ensures.bind (ensures_take (by decide) hts) ?_
  rintro word rest ⟨_, _, hrest⟩ _
  dsimp only
  split
  · refine Ensures.bind (ensures_take (by decide) hrest) ?_
    rintro _ rest ⟨_, _, hrest⟩ _
    exact Ensures.ok ⟨.returnNothing _, hrest⟩
  · refine Ensures.bind (ensures_expression hrest) ?_
    rintro value rest ⟨hvalue, hrest⟩ _
    refine Ensures.bind (ensures_take (by decide) hrest) ?_
    rintro _ rest ⟨_, _, hrest⟩ _
    exact Ensures.ok ⟨.returnValue hvalue _, hrest⟩

theorem ensures_header (hts : AllValid ts) :
    Ensures (outcome (header ts)) fun h rest => h.condition.IsExpression ∧ AllValid rest := by
  cases ts with
  | nil => exact Ensures.error _
  | cons word ts =>
    rw [outcome_header_cons]
    have hvalid : AllValid ts := fun t ht => hts t (by simp [ht])
    refine Ensures.bind (ensures_take (by decide) hvalid) ?_
    rintro _ rest ⟨_, _, hrest⟩ _
    refine Ensures.bind (ensures_expression hrest) ?_
    rintro condition rest ⟨hcondition, hrest⟩ _
    refine Ensures.bind (ensures_take (by decide) hrest) ?_
    rintro _ rest ⟨_, _, hrest⟩ _
    refine Ensures.ok ⟨?_, hrest⟩
    split
    · exact hcondition
    · exact hcondition

/-! Blocks, chains and items, where the items of blocks with fewer than `n` tokens are known to be
readable. -/

section

/-- What is read from fewer than `n` tokens is readable. -/
def ReadableBelow (n : Nat) : Prop :=
  ∀ ts : List Token, ts.length < n → AllValid ts →
    Ensures (outcome (items ts)) fun is rest => (∀ i ∈ is, i.Readable) ∧ AllValid rest

/-- A header and the segment after it are readable. -/
theorem ensures_headed (hts : AllValid ts)
    (ih : ∀ rest : List Token, rest.length < ts.length → AllValid rest →
      Ensures (outcome (segment rest)) fun s rest => s.Readable ∧ AllValid rest) :
    Ensures (do
      let (h, ts) ← outcome (header ts)
      let (s, ts) ← outcome (segment ts)
      return ((⟨h :: s.headers, s.body⟩ : Segment), ts)) fun s rest => s.Readable ∧ AllValid rest := by
  refine Ensures.bind (ensures_header hts) ?_
  rintro h rest ⟨hh, hrest⟩ hless
  refine Ensures.bind (ih rest hless hrest) ?_
  rintro s rest ⟨hs, hrest⟩ _
  refine Ensures.ok ⟨?_, hrest⟩
  cases hs with
  | block p hheaders hitems => exact .block p (List.forall_mem_cons.2 ⟨hh, hheaders⟩) hitems
  | simple hheaders hn => exact .simple (List.forall_mem_cons.2 ⟨hh, hheaders⟩) hn

theorem ensures_segment (ih : ReadableBelow n) (hlength : ts.length ≤ n) (hts : AllValid ts) :
    Ensures (outcome (segment ts)) fun s rest => s.Readable ∧ AllValid rest := by
  induction hl : ts.length using Nat.strong_induction_on generalizing ts with
  | _ l ihl =>
    subst hl
    have hheader := ensures_headed hts fun rest hless hrest => ihl rest.length hless (by omega) hrest rfl
    rw [outcome_segment]
    split
    · exact hheader
    · exact hheader
    · refine Ensures.bind (ensures_take (by decide) hts) ?_
      rintro brace rest ⟨_, _, hrest⟩ _
      refine Ensures.bind (ih rest (by omega) hrest) ?_
      rintro body rest ⟨hbody, hrest⟩ _
      exact Ensures.ok ⟨.block _ (by simp) hbody, hrest⟩
    · refine Ensures.bind (ensures_returnStatement hts) ?_
      rintro s rest ⟨hs, hrest⟩ _
      exact Ensures.ok ⟨.simple (by simp) hs, hrest⟩
    · refine Ensures.bind (ensures_assignment hts) ?_
      rintro s rest ⟨hs, hrest⟩ _
      exact Ensures.ok ⟨.simple (by simp) hs, hrest⟩

theorem ensures_chain (ih : ReadableBelow n) (waiting : Nat) (hlength : ts.length ≤ n) (hts : AllValid ts) :
    Ensures (outcome (chain waiting ts)) fun parts rest =>
      ((∀ s ∈ parts.1 :: parts.2, s.Readable) ∧ Segment.complete waiting (parts.1 :: parts.2)) ∧
        AllValid rest := by
  induction hl : ts.length using Nat.strong_induction_on generalizing ts waiting with
  | _ l ihl =>
    subst hl
    rw [outcome_chain]
    refine Ensures.bind (ensures_segment ih hlength hts) ?_
    rintro first rest ⟨hfirst, hrest⟩ _
    dsimp only
    split
    case isTrue hmore =>
      refine Ensures.bind (ensures_take (by decide) hrest) ?_
      rintro _ rest ⟨_, _, hrest⟩ _
      dsimp only
      refine Ensures.bind (ihl rest.length (by omega) _ (by omega) hrest rfl) ?_
      rintro ⟨second, others⟩ rest ⟨⟨hothers, hcomplete⟩, hrest⟩ _
      refine Ensures.ok ⟨⟨List.forall_mem_cons.2 ⟨hfirst, hothers⟩, ?_⟩, hrest⟩
      rw [Segment.complete.eq_3 waiting first (second :: others) (by simp)]
      simp [hmore.2, hcomplete]
    case isFalse => exact Ensures.ok ⟨⟨by simpa using hfirst, by rw [Segment.complete]⟩, hrest⟩

theorem ensures_statement (ih : ReadableBelow n) (hlength : ts.length ≤ n) (hts : AllValid ts) :
    Ensures (outcome (statement ts)) fun s rest => (Item.statement s).Readable ∧ AllValid rest := by
  rw [outcome_statement]
  refine Ensures.bind (ensures_chain ih 0 hlength hts) ?_
  rintro ⟨first, others⟩ rest ⟨⟨hparts, hcomplete⟩, hrest⟩ _
  exact Ensures.ok ⟨.statement hparts hcomplete, hrest⟩

theorem ensures_item (ih : ReadableBelow n) (hlength : ts.length ≤ n) (hts : AllValid ts) :
    Ensures (outcome (item ts)) fun i rest => i.Readable ∧ AllValid rest := by
  rw [outcome_item]
  split
  · exact ensures_declaration hts
  · refine Ensures.bind (ensures_statement ih hlength hts) ?_
    rintro s rest ⟨hs, hrest⟩ _
    exact Ensures.ok ⟨hs, hrest⟩

end

/-- Every item that is read is readable. -/
theorem ensures_items (hts : AllValid ts) :
    Ensures (outcome (items ts)) fun is rest => (∀ i ∈ is, i.Readable) ∧ AllValid rest := by
  have hbelow : ∀ n, ReadableBelow n := by
    intro n
    induction n with
    | zero => exact fun ts hlength => absurd hlength (Nat.not_lt_zero _)
    | succ n ih =>
      intro ts hlength hts
      rw [outcome_items]
      split
      · refine Ensures.bind (ensures_take (by decide) hts) ?_
        rintro _ rest ⟨_, _, hrest⟩ _
        exact Ensures.ok ⟨by simp, hrest⟩
      · refine Ensures.bind (ensures_item ih (by omega) hts) ?_
        rintro first rest ⟨hfirst, hrest⟩ _
        refine Ensures.bind (ih rest (by omega) hrest) ?_
        rintro others rest ⟨hothers, hrest⟩ _
        exact Ensures.ok ⟨List.forall_mem_cons.2 ⟨hfirst, hothers⟩, hrest⟩
  exact hbelow (ts.length + 1) ts (Nat.lt_succ_self _) hts

end Reader
end JmmCompiler

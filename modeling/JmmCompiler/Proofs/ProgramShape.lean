import JmmCompiler.Proofs.StatementShape
import JmmCompiler.Tree.Walk
/-! The shape of programs: which trees are read from a text. -/
namespace JmmCompiler

namespace Node

inductive IsParam : Node → Prop
  | intro {name : String} {type : Node} (hname : Lexeme.IsName name) (htype : type.IsType) (p : Position) :
      IsParam ⟨.param, ⟨[("name", .text name)]⟩, [type], p⟩

/-- Fields, and methods with their parameters, their local variables and their statements. -/
inductive IsMember : Node → Prop
  | field {n : Node} (hn : n.IsVarDecl) : IsMember n
  | method {name : String} {isPublic isStatic : Bool} {type : Node} {params : List Node} {body : List Item}
      (hname : Lexeme.IsName name) (htype : type.IsType) (hparams : ∀ q ∈ params, q.IsParam)
      (hbody : ∀ i ∈ body, i.Readable) (p : Position) :
      IsMember ⟨.methodDecl, ⟨[("name", .text name), ("is_public", .bool isPublic),
        ("is_static", .bool isStatic)]⟩, type :: params ++ Item.allLocals body ++ Item.allNodes body, p⟩

inductive IsClass : Node → Prop
  | alone {name : String} {members : List Node} (hname : Lexeme.IsName name)
      (hmembers : ∀ m ∈ members, m.IsMember) (p : Position) :
      IsClass ⟨.classDecl, ⟨[("name", .text name)]⟩, members, p⟩
  | extending {name parent : String} {members : List Node} (hname : Lexeme.IsName name)
      (hparent : Lexeme.IsName parent) (hmembers : ∀ m ∈ members, m.IsMember) (p : Position) :
      IsClass ⟨.classDecl, ⟨[("name", .text name), ("superclass", .text parent)]⟩, members, p⟩

inductive IsImport : Node → Prop
  | intro {first : String} {others : List String} (hfirst : Lexeme.IsName first)
      (hothers : ∀ name ∈ others, Lexeme.IsName name) (p : Position) :
      IsImport ⟨.importDecl, ⟨[("name", .text (String.intercalate "." (first :: others)))]⟩, [], p⟩

/-- Trees of programs: imports and then a class. -/
inductive IsProgram : Node → Prop
  | intro {imports : List Node} {decl : Node} (himports : ∀ i ∈ imports, i.IsImport)
      (hdecl : decl.IsClass) (p : Position) : IsProgram ⟨.program, {}, imports ++ [decl], p⟩

end Node

namespace Reader
variable {ts : List Token}
open Lexer (AllValid)

theorem ensures_param (hts : AllValid ts) :
    Ensures (outcome (param ts)) fun q rest => q.IsParam ∧ AllValid rest := by
  rw [outcome_param]
  refine Ensures.bind (ensures_type hts) ?_
  rintro type rest ⟨htype, hrest⟩ _
  refine Ensures.bind (ensures_take (by decide) hrest) ?_
  rintro name rest ⟨_, hname, hrest⟩ _
  exact Ensures.ok ⟨.intro hname htype _, hrest⟩

theorem ensures_moreParams (hts : AllValid ts) :
    Ensures (outcome (moreParams ts)) fun qs rest => (∀ q ∈ qs, q.IsParam) ∧ AllValid rest := by
  induction hl : ts.length using Nat.strong_induction_on generalizing ts with
  | _ l ihl =>
    subst hl
    cases ts with
    | nil =>
      rw [outcome_moreParams_nil]
      exact Ensures.error _
    | cons t ts =>
      have hvalid : AllValid ts := fun t ht => hts t (by simp [ht])
      rw [List.length_cons] at ihl
      rw [outcome_moreParams_cons]
      split
      · exact Ensures.ok ⟨by simp, hvalid⟩
      split
      · refine Ensures.bind (ensures_param hvalid) ?_
        rintro next rest ⟨hnext, hrest⟩ _
        refine Ensures.bind (ihl rest.length (by omega) hrest rfl) ?_
        rintro others rest ⟨hothers, hrest⟩ _
        exact Ensures.ok ⟨List.forall_mem_cons.2 ⟨hnext, hothers⟩, hrest⟩
      · exact Ensures.error _

theorem ensures_params (hts : AllValid ts) :
    Ensures (outcome (params ts)) fun qs rest => (∀ q ∈ qs, q.IsParam) ∧ AllValid rest := by
  rw [outcome_params]
  split
  · refine Ensures.bind (ensures_take (by decide) hts) ?_
    rintro _ rest ⟨_, _, hrest⟩ _
    exact Ensures.ok ⟨by simp, hrest⟩
  · refine Ensures.bind (ensures_param hts) ?_
    rintro first rest ⟨hfirst, hrest⟩ _
    refine Ensures.bind (ensures_moreParams hrest) ?_
    rintro others rest ⟨hothers, hrest⟩ _
    exact Ensures.ok ⟨List.forall_mem_cons.2 ⟨hfirst, hothers⟩, hrest⟩

theorem allValid_modifiers (hts : AllValid ts) : AllValid (modifiers ts).rest := by
  induction ts with
  | nil => exact hts
  | cons t ts ih =>
    rw [modifiers]
    split
    · exact ih fun t ht => hts t (by simp [ht])
    · exact hts

theorem ensures_classMember (hts : AllValid ts) :
    Ensures (outcome (classMember ts)) fun m rest => m.IsMember ∧ AllValid rest := by
  rw [outcome_classMember]
  refine Ensures.bind (ensures_type (allValid_modifiers hts)) ?_
  rintro type rest ⟨htype, hrest⟩ _
  refine Ensures.bind (ensures_take (by decide) hrest) ?_
  rintro name rest ⟨_, hname, hrest⟩ _
  dsimp only
  split
  · refine Ensures.bind (ensures_take (by decide) hrest) ?_
    rintro _ rest ⟨_, _, hrest⟩ _
    refine Ensures.bind (ensures_params hrest) ?_
    rintro params rest ⟨hparams, hrest⟩ _
    refine Ensures.bind (ensures_take (by decide) hrest) ?_
    rintro _ rest ⟨_, _, hrest⟩ _
    refine Ensures.bind (ensures_items hrest) ?_
    rintro body rest ⟨hbody, hrest⟩ _
    exact Ensures.ok ⟨.method hname htype hparams hbody _, hrest⟩
  · refine Ensures.bind (ensures_take (by decide) hrest) ?_
    rintro _ rest ⟨_, _, hrest⟩ _
    exact Ensures.ok ⟨.field (.intro hname htype _), hrest⟩

theorem ensures_classMembers (hts : AllValid ts) :
    Ensures (outcome (classMembers ts)) fun ms rest => (∀ m ∈ ms, m.IsMember) ∧ AllValid rest := by
  induction hl : ts.length using Nat.strong_induction_on generalizing ts with
  | _ l ihl =>
    subst hl
    rw [outcome_classMembers]
    split
    · refine Ensures.bind (ensures_take (by decide) hts) ?_
      rintro _ rest ⟨_, _, hrest⟩ _
      exact Ensures.ok ⟨by simp, hrest⟩
    · refine Ensures.bind (ensures_classMember hts) ?_
      rintro first rest ⟨hfirst, hrest⟩ _
      refine Ensures.bind (ihl rest.length (by omega) hrest rfl) ?_
      rintro others rest ⟨hothers, hrest⟩ _
      exact Ensures.ok ⟨List.forall_mem_cons.2 ⟨hfirst, hothers⟩, hrest⟩

theorem ensures_classDecl (hts : AllValid ts) :
    Ensures (outcome (classDecl ts)) fun c rest => c.IsClass ∧ AllValid rest := by
  rw [outcome_classDecl]
  refine Ensures.bind (ensures_take (by decide) hts) ?_
  rintro word rest ⟨_, _, hrest⟩ _
  refine Ensures.bind (ensures_take (by decide) hrest) ?_
  rintro name rest ⟨_, hname, hrest⟩ _
  dsimp only
  split
  · refine Ensures.bind (ensures_take (by decide) hrest) ?_
    rintro _ rest ⟨_, _, hrest⟩ _
    refine Ensures.bind (ensures_take (by decide) hrest) ?_
    rintro parent rest ⟨_, hparent, hrest⟩ _
    refine Ensures.bind (ensures_take (by decide) hrest) ?_
    rintro _ rest ⟨_, _, hrest⟩ _
    refine Ensures.bind (ensures_classMembers hrest) ?_
    rintro members rest ⟨hmembers, hrest⟩ _
    exact Ensures.ok ⟨.extending hname hparent hmembers _, hrest⟩
  · refine Ensures.bind (ensures_take (by decide) hrest) ?_
    rintro _ rest ⟨_, _, hrest⟩ _
    refine Ensures.bind (ensures_classMembers hrest) ?_
    rintro members rest ⟨hmembers, hrest⟩ _
    exact Ensures.ok ⟨.alone hname hmembers _, hrest⟩

theorem ensures_moreNames (hts : AllValid ts) :
    Ensures (outcome (moreNames ts)) fun names rest =>
      (∀ name ∈ names, Lexeme.IsName name) ∧ AllValid rest := by
  induction hl : ts.length using Nat.strong_induction_on generalizing ts with
  | _ l ihl =>
    subst hl
    cases ts with
    | nil =>
      rw [outcome_moreNames_nil]
      exact Ensures.error _
    | cons t ts =>
      have hvalid : AllValid ts := fun t ht => hts t (by simp [ht])
      rw [List.length_cons] at ihl
      rw [outcome_moreNames_cons]
      split
      · exact Ensures.ok ⟨by simp, hvalid⟩
      split
      · refine Ensures.bind (ensures_take (by decide) hvalid) ?_
        rintro name rest ⟨_, hname, hrest⟩ _
        refine Ensures.bind (ihl rest.length (by omega) hrest rfl) ?_
        rintro others rest ⟨hothers, hrest⟩ _
        exact Ensures.ok ⟨List.forall_mem_cons.2 ⟨hname, hothers⟩, hrest⟩
      · exact Ensures.error _

theorem ensures_importDecl (hts : AllValid ts) :
    Ensures (outcome (importDecl ts)) fun i rest => i.IsImport ∧ AllValid rest := by
  rw [outcome_importDecl]
  refine Ensures.bind (ensures_take (by decide) hts) ?_
  rintro word rest ⟨_, _, hrest⟩ _
  refine Ensures.bind (ensures_take (by decide) hrest) ?_
  rintro first rest ⟨_, hfirst, hrest⟩ _
  refine Ensures.bind (ensures_moreNames hrest) ?_
  rintro others rest ⟨hothers, hrest⟩ _
  exact Ensures.ok ⟨.intro hfirst hothers _, hrest⟩

theorem ensures_declarations (hts : AllValid ts) :
    Ensures (outcome (declarations ts)) fun ds rest =>
      (∃ imports decl, ds = imports ++ [decl] ∧ (∀ i ∈ imports, i.IsImport) ∧ decl.IsClass) ∧
        AllValid rest := by
  induction hl : ts.length using Nat.strong_induction_on generalizing ts with
  | _ l ihl =>
    subst hl
    rw [outcome_declarations]
    split
    · refine Ensures.bind (ensures_importDecl hts) ?_
      rintro first rest ⟨hfirst, hrest⟩ _
      refine Ensures.bind (ihl rest.length (by omega) hrest rfl) ?_
      rintro others rest ⟨⟨imports, decl, heq, himports, hdecl⟩, hrest⟩ _
      exact Ensures.ok ⟨⟨first :: imports, decl, congrArg _ heq,
        List.forall_mem_cons.2 ⟨hfirst, himports⟩, hdecl⟩, hrest⟩
    · refine Ensures.bind (ensures_classDecl hts) ?_
      rintro decl rest ⟨hdecl, hrest⟩ _
      exact Ensures.ok ⟨⟨[], decl, rfl, by simp, hdecl⟩, hrest⟩

end Reader

/-- Every tree that is read has the shape of a program. -/
theorem Node.isProgram_of_parse {source : String} {root : Node} (h : Node.parse source = .ok root) :
    root.IsProgram := by
  rw [Node.parse, Reader.program_eq, bind_eq_ok] at h
  obtain ⟨⟨children, rest⟩, hread, h⟩ := h
  obtain ⟨⟨imports, decl, rfl, himports, hdecl⟩, -⟩ :=
    Reader.ensures_declarations (fun t ht hkind => Lexer.valid_of_mem_scan ht hkind) _ _ hread
  cases rest with
  | nil =>
    obtain rfl := Except.ok.inj h
    exact .intro himports hdecl _
  | cons t ts => cases h

namespace Node

/-! ## The expressions of a tree -/

/-- Every node of a tree that is an expression has the shape of one. -/
def ShapedExpressions (root : Node) : Prop :=
  ∀ path n, root.at? path = some n → n.kind.isExpression → n.IsExpression

theorem shapedExpressions_of_children {n : Node} (here : n.kind.isExpression → n.IsExpression)
    (below : ∀ c ∈ n.children, c.ShapedExpressions) : n.ShapedExpressions := by
  intro path d hpath hd
  cases path with
  | nil =>
    obtain rfl := Option.some.inj hpath
    exact here hd
  | cons i path =>
    obtain ⟨c, hc, hrest⟩ := Option.bind_eq_some_iff.1 hpath
    exact below c (List.mem_of_getElem? hc) path d hrest hd

theorem IsExpression.shapedExpressions {e : Node} (h : e.IsExpression) : e.ShapedExpressions := by
  refine shapedExpressions_of_children (fun _ => h) ?_
  induction h with
  | intLiteral => simp
  | boolLiteral => simp
  | thisRef => simp
  | varRef => simp
  | newObject => simp
  | paren hinner _ ih => simpa using shapedExpressions_of_children (fun _ => hinner) ih
  | newArray _ hsize _ ih => simpa using shapedExpressions_of_children (fun _ => hsize) ih
  | arrayLiteral helements _ ih =>
    exact fun e he => shapedExpressions_of_children (fun _ => helements e he) (ih e he)
  | arrayAccess harray hindex _ _ iharray ihindex =>
    simpa using ⟨shapedExpressions_of_children (fun _ => harray) iharray,
      shapedExpressions_of_children (fun _ => hindex) ihindex⟩
  | length harray _ _ ih => simpa using shapedExpressions_of_children (fun _ => harray) ih
  | call _ hreceiver hargs _ _ ih ihargs =>
    refine List.forall_mem_cons.2 ⟨shapedExpressions_of_children (fun _ => hreceiver) ih, fun e he => ?_⟩
    exact shapedExpressions_of_children (fun _ => hargs e he) (ihargs e he)
  | unary hoperand _ _ ih => simpa using shapedExpressions_of_children (fun _ => hoperand) ih
  | binary _ hleft hright _ _ _ ihleft ihright =>
    simpa using ⟨shapedExpressions_of_children (fun _ => hleft) ihleft,
      shapedExpressions_of_children (fun _ => hright) ihright⟩

theorem IsStatement.shapedExpressions {n : Node} (h : n.IsStatement) : n.ShapedExpressions := by
  induction h with
  | simple hn =>
    cases hn with
    | assign hname hvalue p q =>
      exact shapedExpressions_of_children (by simp [Kind.isExpression])
        (by simpa using ⟨(IsExpression.varRef hname p).shapedExpressions, hvalue.shapedExpressions⟩)
    | arrayAssign hname hindex hvalue p q =>
      exact shapedExpressions_of_children (by simp [Kind.isExpression])
        (by simpa using ⟨(IsExpression.varRef hname p).shapedExpressions, hindex.shapedExpressions,
          hvalue.shapedExpressions⟩)
    | exprStmt he p =>
      exact shapedExpressions_of_children (by simp [Kind.isExpression]) (by simpa using he.shapedExpressions)
    | returnNothing p => exact shapedExpressions_of_children (by simp [Kind.isExpression]) (by simp)
    | returnValue hvalue p =>
      exact shapedExpressions_of_children (by simp [Kind.isExpression])
        (by simpa using hvalue.shapedExpressions)
  | block _ p ih => exact shapedExpressions_of_children (by simp [Kind.isExpression]) ih
  | ifThen hc _ p ih =>
    exact shapedExpressions_of_children (by simp [Kind.isExpression])
      (by simpa using ⟨hc.shapedExpressions, ih⟩)
  | ifElse hc _ _ p ihthen ihelse =>
    exact shapedExpressions_of_children (by simp [Kind.isExpression])
      (by simpa using ⟨hc.shapedExpressions, ihthen, ihelse⟩)
  | whileLoop hc _ p ih =>
    exact shapedExpressions_of_children (by simp [Kind.isExpression])
      (by simpa using ⟨hc.shapedExpressions, ih⟩)

theorem IsType.shapedExpressions {n : Node} (h : n.IsType) : n.ShapedExpressions := by
  obtain ⟨hname, harray, p⟩ := h
  exact shapedExpressions_of_children (by simp [Kind.isExpression]) (by simp)

theorem IsVarDecl.shapedExpressions {n : Node} (h : n.IsVarDecl) : n.ShapedExpressions := by
  obtain ⟨hname, htype, p⟩ := h
  exact shapedExpressions_of_children (by simp [Kind.isExpression]) (by simpa using htype.shapedExpressions)

theorem IsParam.shapedExpressions {n : Node} (h : n.IsParam) : n.ShapedExpressions := by
  obtain ⟨hname, htype, p⟩ := h
  exact shapedExpressions_of_children (by simp [Kind.isExpression]) (by simpa using htype.shapedExpressions)

theorem IsMember.shapedExpressions {n : Node} (h : n.IsMember) : n.ShapedExpressions := by
  cases h with
  | field hn => exact hn.shapedExpressions
  | @method name isPublic isStatic type params body hname htype hparams hbody p =>
    refine shapedExpressions_of_children (by simp [Kind.isExpression]) fun c hc => ?_
    simp only [List.cons_append, List.mem_cons, List.mem_append] at hc
    rcases hc with rfl | (hc | hc) | hc
    · exact htype.shapedExpressions
    · exact (hparams c hc).shapedExpressions
    · exact (Item.isVarDecl_of_mem_allLocals hbody c hc).shapedExpressions
    · exact (Item.isStatement_of_mem_allNodes hbody c hc).shapedExpressions

/-- Every expression of a program has the shape. -/
theorem IsProgram.shapedExpressions {root : Node} (h : root.IsProgram) : root.ShapedExpressions := by
  obtain ⟨himports, hdecl, p⟩ := h
  refine shapedExpressions_of_children (by simp [Kind.isExpression]) fun c hc => ?_
  rcases List.mem_append.1 hc with hc | hc
  · obtain ⟨hfirst, hothers, q⟩ := himports c hc
    exact shapedExpressions_of_children (by simp [Kind.isExpression]) (by simp)
  · obtain rfl := List.mem_singleton.1 hc
    cases hdecl with
    | alone hname hmembers q =>
      exact shapedExpressions_of_children (by simp [Kind.isExpression])
        fun m hm => (hmembers m hm).shapedExpressions
    | extending hname hparent hmembers q =>
      exact shapedExpressions_of_children (by simp [Kind.isExpression])
        fun m hm => (hmembers m hm).shapedExpressions

end Node
end JmmCompiler

import JmmCompiler.Proofs.TypeNames
/-! The documented shape of a tree: which attributes a node of each kind has, and the kinds of its
children. Every node of a program that is read has it. -/
namespace JmmCompiler

namespace Kind

/-- Whether these are the attributes of a node of the kind. -/
def hasAttributes (kind : Kind) (attributes : List (String × Attribute)) : Bool :=
  match kind, attributes with
  | .program, [] | .block, [] | .exprStmt, [] | .ifStmt, [] | .whileStmt, [] | .assign, []
  | .arrayAssign, [] | .returnStmt, [] | .paren, [] | .thisRef, [] | .arrayLiteral, []
  | .arrayAccess, [] | .length, [] => true
  | .importDecl, [("name", .text _)] | .classDecl, [("name", .text _)]
  | .classDecl, [("name", .text _), ("superclass", .text _)] | .varDecl, [("name", .text _)]
  | .param, [("name", .text _)] | .varRef, [("name", .text _)] | .newObject, [("name", .text _)]
  | .newArray, [("name", .text _)] | .call, [("name", .text _)] => true
  | .methodDecl, [("name", .text _), ("is_public", .bool _), ("is_static", .bool _)] => true
  | .typeRef, [("name", .text _), ("is_array", .bool isArray), ("is_varargs", .bool isVarargs)] =>
    isArray || !isVarargs
  | .binary, [("op", .text op)] => (Operator.ofSymbol? op).isSome
  | .unary, [("op", .text op)] => op = "!"
  | .intLiteral, [("value", .int value)] => 0 ≤ value
  | .boolLiteral, [("value", .bool _)] => true
  | _, _ => false

/-- Whether the children of a node of the kind may be of these kinds. Imports come before the class, and in
a method the return type comes before the parameters, these before the local variables and these before
the statements. -/
def hasChildren (kind : Kind) (children : List Kind) : Bool :=
  match kind, children with
  | .program, ks => ks.dropWhile (· = .importDecl) = [.classDecl]
  | .classDecl, ks => ks.all fun k => k = .varDecl || k = .methodDecl
  | .methodDecl, type :: ks =>
    type = .typeRef && ((ks.dropWhile (· = .param)).dropWhile (· = .varDecl)).all isStatement
  | .varDecl, [type] | .param, [type] => type = .typeRef
  | .block, ks => ks.all isStatement
  | .ifStmt, [condition, thenPart] => condition.isExpression && thenPart.isStatement
  | .ifStmt, [condition, thenPart, elsePart] =>
    condition.isExpression && thenPart.isStatement && elsePart.isStatement
  | .whileStmt, [condition, body] => condition.isExpression && body.isStatement
  | .assign, [target, value] => target = .varRef && value.isExpression
  | .arrayAssign, [array, index, value] => array = .varRef && index.isExpression && value.isExpression
  | .exprStmt, [e] | .returnStmt, [e] | .unary, [e] | .paren, [e] | .newArray, [e] | .length, [e] =>
    e.isExpression
  | .binary, [left, right] | .arrayAccess, [left, right] => left.isExpression && right.isExpression
  | .arrayLiteral, ks => ks.all isExpression
  | .call, receiver :: arguments => receiver.isExpression && arguments.all isExpression
  | .importDecl, [] | .typeRef, [] | .returnStmt, [] | .varRef, [] | .intLiteral, [] | .boolLiteral, []
  | .thisRef, [] | .newObject, [] => true
  | _, _ => false

end Kind

namespace Node

/-- A node with the attributes and the children that its kind calls for. -/
def HasShape (n : Node) : Prop :=
  n.kind.hasAttributes n.attributes.entries ∧ n.kind.hasChildren (n.children.map kind)

instance (n : Node) : Decidable n.HasShape := inferInstanceAs (Decidable (_ ∧ _))

variable {n : Node}

theorem IsExpression.isExpression_kind (h : n.IsExpression) : n.kind.isExpression := by
  cases h <;> rfl

theorem IsExpression.hasShape (h : n.IsExpression) : n.HasShape := by
  cases h with
  | intLiteral value p => exact ⟨by simp [Kind.hasAttributes], rfl⟩
  | boolLiteral value p => exact ⟨rfl, rfl⟩
  | thisRef p => exact ⟨rfl, rfl⟩
  | varRef hname p => exact ⟨rfl, rfl⟩
  | paren hinner p => exact ⟨rfl, hinner.isExpression_kind⟩
  | newObject hname p => exact ⟨rfl, rfl⟩
  | newArray hname hsize p => exact ⟨rfl, hsize.isExpression_kind⟩
  | arrayLiteral helements p =>
    exact ⟨rfl, by simpa [Kind.hasChildren] using fun e he => (helements e he).isExpression_kind⟩
  | arrayAccess harray hindex htight p =>
    exact ⟨rfl, by simp [Kind.hasChildren, harray.isExpression_kind, hindex.isExpression_kind]⟩
  | length harray htight p => exact ⟨rfl, harray.isExpression_kind⟩
  | call hname hreceiver hargs htight p =>
    refine ⟨rfl, ?_⟩
    simpa [Kind.hasChildren, hreceiver.isExpression_kind] using fun e he => (hargs e he).isExpression_kind
  | unary hoperand htight p => exact ⟨by simp [Kind.hasAttributes], hoperand.isExpression_kind⟩
  | binary hop hleft hright hleftTight hrightTight p =>
    exact ⟨hop, by simp [Kind.hasChildren, hleft.isExpression_kind, hright.isExpression_kind]⟩

theorem IsStatement.hasShape (h : n.IsStatement) : n.HasShape := by
  cases h with
  | simple hn =>
    cases hn with
    | assign hname hvalue p q => exact ⟨rfl, by simp [Kind.hasChildren, hvalue.isExpression_kind]⟩
    | arrayAssign hname hindex hvalue p q =>
      exact ⟨rfl, by simp [Kind.hasChildren, hindex.isExpression_kind, hvalue.isExpression_kind]⟩
    | exprStmt he p => exact ⟨rfl, he.isExpression_kind⟩
    | returnNothing p => exact ⟨rfl, rfl⟩
    | returnValue hvalue p => exact ⟨rfl, hvalue.isExpression_kind⟩
  | block hns p => exact ⟨rfl, by simpa [Kind.hasChildren] using fun n hn => (hns n hn).isStatement_kind⟩
  | ifThen hc ht p => exact ⟨rfl, by simp [Kind.hasChildren, hc.isExpression_kind, ht.isStatement_kind]⟩
  | ifElse hc ht he p =>
    exact ⟨rfl, by
      simp [Kind.hasChildren, hc.isExpression_kind, ht.isStatement_kind, he.isStatement_kind]⟩
  | whileLoop hc hb p => exact ⟨rfl, by simp [Kind.hasChildren, hc.isExpression_kind, hb.isStatement_kind]⟩

theorem IsType.hasShape (h : n.IsType) : n.HasShape := by
  obtain ⟨hname, harray, p⟩ := h
  rename_i isArray isVarargs
  refine ⟨?_, rfl⟩
  cases isVarargs
  · simp [Kind.hasAttributes]
  · simp [Kind.hasAttributes, harray rfl]

theorem IsType.kind_eq (h : n.IsType) : n.kind = .typeRef := by
  cases h
  rfl

theorem IsParam.hasShape (h : n.IsParam) : n.HasShape := by
  obtain ⟨hname, htype, p⟩ := h
  exact ⟨rfl, by simp [Kind.hasChildren, htype.kind_eq]⟩

theorem IsVarDecl.hasShape (h : n.IsVarDecl) : n.HasShape := by
  obtain ⟨hname, htype, p⟩ := h
  exact ⟨rfl, by simp [Kind.hasChildren, htype.kind_eq]⟩

/-- What stands first in a list falls away where nothing of its kind follows. -/
theorem dropWhile_kind {k : Kind} {first rest : List Node} (hfirst : ∀ n ∈ first, n.kind = k)
    (hrest : ∀ n ∈ rest, n.kind ≠ k) :
    ((first ++ rest).map kind).dropWhile (· = k) = rest.map kind := by
  have hall : ∀ k' ∈ first.map kind, decide (k' = k) = true := by simpa using hfirst
  rw [List.map_append, List.dropWhile_append_of_pos hall]
  cases rest with
  | nil => rfl
  | cons n rest => simp [hrest n (by simp)]

theorem IsMember.hasShape (h : n.IsMember) : n.HasShape := by
  cases h with
  | field hn => exact hn.hasShape
  | @method name isPublic isStatic type params body hname htype hparams hbody p =>
    have hparamKinds : ∀ q ∈ params, q.kind = .param := by
      intro q hq
      cases hparams q hq
      rfl
    have hlocals : ∀ d ∈ Item.allLocals body, d.kind = .varDecl := by
      intro d hd
      cases Item.isVarDecl_of_mem_allLocals hbody d hd
      rfl
    have hstatements : ∀ n ∈ Item.allNodes body, n.kind.isStatement := fun n hn =>
      (Item.isStatement_of_mem_allNodes hbody n hn).isStatement_kind
    have hother {k : Kind} (hk : k.isStatement = false) : ∀ n ∈ Item.allNodes body, n.kind ≠ k := by
      rintro n hn rfl
      simp [hstatements n hn] at hk
    refine ⟨rfl, ?_⟩
    have hafter : ∀ n ∈ Item.allLocals body ++ Item.allNodes body, n.kind ≠ .param :=
      List.forall_mem_append.2 ⟨fun d hd => by simp [hlocals d hd], hother rfl⟩
    simp only [List.cons_append, List.append_assoc, List.map_cons, Kind.hasChildren, htype.kind_eq,
      dropWhile_kind hparamKinds hafter, dropWhile_kind hlocals (hother rfl)]
    simpa using hstatements

theorem IsPiece.hasShape (h : n.IsPiece) : n.HasShape := by
  cases h with
  | program h =>
    obtain ⟨himports, hclass, p⟩ := h
    rename_i imports decl
    have hkinds : ∀ i ∈ imports, i.kind = .importDecl := by
      intro i hi
      cases himports i hi
      rfl
    have hkind : decl.kind = .classDecl := by cases hclass <;> rfl
    have hother : ∀ c ∈ [decl], c.kind ≠ .importDecl := by simp [hkind]
    exact ⟨rfl, by simp only [Kind.hasChildren, dropWhile_kind hkinds hother, List.map_singleton, hkind,
      decide_true]⟩
  | importDecl h =>
    obtain ⟨hfirst, hothers, p⟩ := h
    exact ⟨rfl, rfl⟩
  | classDecl h =>
    have hmember {m : Node} (hm : m.IsMember) : m.kind = .varDecl ∨ m.kind = .methodDecl := by
      cases hm with
      | field hn =>
        cases hn
        exact .inl rfl
      | method => exact .inr rfl
    cases h with
    | alone hname hmembers p =>
      exact ⟨rfl, by simpa [Kind.hasChildren] using fun m hm => hmember (hmembers m hm)⟩
    | extending hname hparent hmembers p =>
      exact ⟨rfl, by simpa [Kind.hasChildren] using fun m hm => hmember (hmembers m hm)⟩
  | member h => exact h.hasShape
  | param h => exact h.hasShape
  | type h => exact h.hasShape
  | part h => exact Or.elim h IsExpression.hasShape IsStatement.hasShape

end Node
end JmmCompiler

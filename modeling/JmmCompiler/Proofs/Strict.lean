import JmmCompiler.Proofs.Evaluation
import JmmCompiler.Proofs.Subtrees
import JmmCompiler.Proofs.Typed
/-! Programs that keep to what is known: no value is taken of a void call, imported names only receive calls,
and no type has the name of the unknown type. Their typed expressions are strictly typed. -/
namespace JmmCompiler

theorem Ty.eq_mk {t : Ty} {name : String} {isArray : Bool} (hname : t.name = name)
    (hisArray : t.isArray = isArray) : t = ⟨name, isArray⟩ := by
  subst hname hisArray
  rfl

theorem Ty.arrayOf_ne_voids {t : Ty} (harray : t ≠ ⟨"void", true⟩) (hvoid : t ≠ .void) :
    t.arrayOf ≠ ⟨"void", true⟩ := fun heq => by
  have hname : t.name = "void" := congrArg Ty.name heq
  cases hisArray : t.isArray with
  | true => exact harray (Ty.eq_mk hname hisArray)
  | false => exact hvoid (Ty.eq_mk hname hisArray)

theorem Operator.resultType_cases (o : Operator) : o.resultType = .int ∨ o.resultType = .boolean := by
  cases o <;> simp [resultType]

/-- The classes and the fields of a program have types that there are values of. -/
structure SymbolTable.Regular (t : SymbolTable) : Prop where
  classType : t.classType.isReference = true
  superClass : ∀ parent, t.superClass = some parent → (⟨parent, false⟩ : Ty).isReference = true
  fields : ∀ name field, t.field? name = some field → field.type ≠ .void

/-- The type that a node writes. -/
def Node.writtenType? (n : Node) : Option Ty :=
  match n.kind with
  | .typeRef => (Ty.ofNode n).toOption
  | .newObject => n.name.toOption.map (⟨·, false⟩)
  | .newArray => n.name.toOption.map (⟨·, true⟩)
  | .arrayLiteral => (n.text "element_type").toOption.map (⟨·, true⟩)
  | _ => none

/-- The children of an expression or a statement but for the receiver of a call. -/
def Node.operands (n : Node) : List Node := if n.kind = .call then n.children.tail else n.children

namespace Context
variable (s : Context)

/-- The same context with strict typing. -/
def strictly : Context := { s with strict := true }

/-- A variable reference that is nothing but the name of an import. -/
def IsImportRef (e : Node) : Prop := ∃ name, e.kind = .varRef ∧ e.name = .ok name ∧ s.IsImportName name

/-- A node that takes no value of a void call, has imported names as receivers only, and creates what is known. -/
structure Tame (n : Node) : Prop where
  operands : n.kind = .binary ∨ n.kind = .arrayLiteral →
    ∀ c ∈ n.children, s.table.isVoidCall s.method c = false
  arguments : s.table.imports ≠ [] → n.kind = .call →
    ∀ c ∈ n.children.tail, s.table.isVoidCall s.method c = false
  imports : ∀ c ∈ n.operands, ¬s.IsImportRef c
  written : ∀ type, n.writtenType? = some type → type.IsKnown
  created : n.kind = .newObject → ∀ type, n.writtenType? = some type → type.isReference = true
  literals : s.table.imports ≠ [] → n.kind = .arrayLiteral → n.attributes = {} →
    ∀ c ∈ n.children.head?, s.typeOf c ≠ .ok .any

/-- The types of the variables, of the class and of the results of methods are known. -/
structure Declared : Prop where
  names : ∀ name, s.HasVariable name → (s.variableType name).IsKnown ∧ s.variableType name ≠ .void
  results : ∀ name m, s.table.method? name = some m → m.returnType.IsKnown
  known : s.table.classType.IsKnown
  class_ne_void : s.table.classType ≠ .void

/-- What is known of the type of an expression: only an imported class gives an unknown one, and only a void call
has no value. -/
structure Determines (e : Node) (type : Ty) : Prop where
  ne_voids : type ≠ ⟨"void", true⟩
  unknown : type.name = "any" → type = .any ∧ s.table.imports ≠ []
  isVoidCall : type = .void → s.table.isVoidCall s.method e = true

variable {s} {e : Node} {type : Ty}

theorem determines_of_isKnown (h : type.IsKnown) (hvoid : type ≠ .void) : s.Determines e type :=
  ⟨h.2, fun heq => absurd heq h.1, fun heq => absurd heq hvoid⟩

theorem determines_any (himports : s.table.imports ≠ []) : s.Determines e .any :=
  ⟨by decide, fun _ => ⟨rfl, himports⟩, fun heq => absurd heq (by decide)⟩

theorem determines_foreign (name : String) (args : List Node) (himports : s.table.imports ≠ []) :
    s.Determines e (Ty.foreign name args) := by
  unfold Ty.foreign
  split
  · exact determines_of_isKnown (by decide) (by decide)
  · exact determines_any himports

end Context

theorem SymbolTable.imports_ne_nil {t : SymbolTable} {name : String} (h : t.isImported name = true) :
    t.imports ≠ [] := by
  intro hnil
  simp [isImported, importNames, hnil] at h

theorem Context.IsImportName.imports_ne_nil {s : Context} {name : String} (h : s.IsImportName name) :
    s.table.imports ≠ [] := SymbolTable.imports_ne_nil h.2.2

namespace Typed
variable {s : Context} {e : Node} {type : Ty}

theorem kind_ne (h : Typed s e type) : e.kind ≠ .methodDecl := by
  cases h <;> simp

/-- A typed receiver that is the name of an import. -/
theorem eq_importRef (he : s.IsImportRef e) (h : Typed s e type) :
    type = .any ∧ ∃ name p, e = ⟨.varRef, ⟨[("name", .text name)]⟩, [], p⟩ ∧ s.IsImportName name := by
  obtain ⟨name, hkind, hname, himport⟩ := he
  cases h with
  | @varRef name' hnames p =>
    obtain rfl : name' = name := Except.ok.inj hname
    exact ⟨himport.variableType, name', p, rfl, himport⟩
  | _ => cases hkind

/-- Where types are known, the types of the expressions of a tame tree are determined. -/
theorem determines (h : Typed s e type) (hs : s.Declared) (htame : e.Everywhere s.Tame) : s.Determines e type := by
  induction h with
  | @varRef name h p =>
    rcases h with h | ⟨-, h⟩
    · exact Context.determines_of_isKnown (hs.names name h).1 (hs.names name h).2
    · rw [h.variableType]
      exact Context.determines_any h.imports_ne_nil
  | thisRef h p => exact Context.determines_of_isKnown hs.known hs.class_ne_void
  | paren hinner p ih =>
    obtain ⟨harray, hany, hvoid⟩ := ih (htame.child (by simp) hinner.kind_ne)
    refine ⟨harray, hany, fun heq => ?_⟩
    rw [SymbolTable.isVoidCall]
    exact hvoid heq
  | newObject name hknown p =>
    refine Context.determines_of_isKnown (htame.here.written _ rfl) fun heq => ?_
    have hreference : Ty.isReference ⟨name, false⟩ = true := htame.here.created rfl _ rfl
    rw [heq] at hreference
    cases hreference
  | newArray name hsize hint hknown p ih =>
    exact Context.determines_of_isKnown (htame.here.written _ rfl) (by simp [Ty.void])
  | @arrayLiteral first rest types helements hfit hadmits p ih =>
    obtain ⟨harray, hany, hvoid⟩ :=
      ih first (by simp) (htame.child (by simp) (helements first (by simp)).kind_ne)
    have hvalue : types first ≠ .void := fun heq => by
      have hcall := htame.here.operands (.inr rfl) first (by simp)
      rw [hvoid heq] at hcall
      cases hcall
    refine ⟨Ty.arrayOf_ne_voids harray hvalue, fun heq => ?_, by simp [Ty.arrayOf, Ty.void]⟩
    obtain ⟨hfirst, himports⟩ := hany heq
    exact absurd (hfirst ▸ (helements first (by simp)).typeOf) (htame.here.literals himports rfl rfl first rfl)
  | gatheredLiteral name helements hfit hadmits hknown p ih =>
    exact Context.determines_of_isKnown (htame.here.written _ rfl) (by simp [Ty.void])
  | @arrayAccess array index type indexType harray hindex htype hint hknown p ih ihindex =>
    obtain ⟨hvoids, hany, -⟩ := ih (htame.child (by simp) harray.kind_ne)
    rcases htype with rfl | hisArray
    · exact Context.determines_any (hany rfl).2
    obtain ⟨name, isArray⟩ := type
    obtain rfl : isArray = true := hisArray
    have hknown : name ≠ "any" := fun heq => by simpa [Ty.any] using (hany heq).1
    have hvoid : name ≠ "void" := fun heq => hvoids (heq ▸ rfl)
    have hindexed : Ty.indexed ⟨name, true⟩ = ⟨name, false⟩ := by simp [Ty.indexed, Ty.any, Ty.base]
    rw [hindexed]
    exact Context.determines_of_isKnown ⟨hknown, by simp⟩ fun heq => hvoid (congrArg Ty.name heq)
  | @binary op o left right leftType rightType hop hleft hright halike hwanted hadmits p ihl ihr =>
    rcases o.resultType_cases with heq | heq
    all_goals
      rw [heq]
      exact Context.determines_of_isKnown (by decide) (by decide)
  | @ownCall name m receiver args types hm hreceiver hargs haccepts p ihr iha =>
    obtain ⟨hany, harray⟩ := hs.results name m hm
    refine ⟨harray, fun heq => absurd heq hany, fun heq => ?_⟩
    have hown : s.table.isOwnCall (some s.method) name receiver = .ok true :=
      s.table.isOwnCall_of_method _ hm hreceiver.typeOf
    have hname : Node.name ⟨.call, ⟨[("name", .text name)]⟩, receiver :: args, p⟩ = .ok name := rfl
    simp [SymbolTable.isVoidCall, hname, hown, hm, heq, Except.toOption]
  | foreignCall hreceiver hother hlength himports hargs hadmits p ihr iha =>
    exact Context.determines_foreign _ _ himports
  | importCall hreceiver hother hargs hadmits p q iha =>
    exact Context.determines_foreign _ _ hreceiver.imports_ne_nil
  | _ => exact Context.determines_of_isKnown (by decide) (by decide)

theorem ne_void (h : Typed s e type) (hs : s.Declared) (htame : e.Everywhere s.Tame)
    (hvalue : s.table.isVoidCall s.method e = false) : type ≠ .void := fun heq => by
  rw [(h.determines hs htame).isVoidCall heq] at hvalue
  cases hvalue

/-- Without imports all strictly typed expressions have known types. -/
theorem isKnown (h : Typed s e type) (hs : s.Declared) (hstrict : s.strict = true)
    (himports : s.table.imports = []) : type.IsKnown := by
  induction h with
  | varRef h p =>
    rcases h with h | ⟨hlax, -⟩
    · exact (hs.names _ h).1
    · rw [hstrict] at hlax
      cases hlax
  | thisRef h p => exact hs.known
  | paren hinner p ih => exact ih
  | newObject name hknown p => exact (hknown hstrict).1
  | newArray name hsize hint hknown p ih => exact hknown hstrict
  | @arrayLiteral first rest types helements hfit hadmits p ih =>
    obtain ⟨hany, harray⟩ := ih first (by simp)
    exact ⟨hany, Ty.arrayOf_ne_voids harray (hadmits first (by simp) hstrict)⟩
  | gatheredLiteral name helements hfit hadmits hknown p ih => exact hknown hstrict
  | arrayAccess harray hindex htype hint hknown p ih ihindex =>
    rcases htype with rfl | hisArray
    · exact absurd rfl ih.1
    · unfold Ty.indexed
      split
      · rename_i heq
        exact absurd (congrArg Ty.name heq) ih.1
      · exact ⟨ih.1, by simp [Ty.base]⟩
  | @binary op o left right leftType rightType hop hleft hright halike hwanted hadmits p ihl ihr =>
    rcases o.resultType_cases with heq | heq
    all_goals
      rw [heq]
      exact ⟨by decide, by decide⟩
  | ownCall hm hreceiver hargs haccepts p ihr iha => exact hs.results _ _ hm
  | foreignCall hreceiver hother hlength himports' hargs hadmits p ihr iha => exact absurd himports himports'
  | importCall hreceiver hother hargs hadmits p q iha => exact absurd himports hreceiver.imports_ne_nil
  | _ => exact ⟨by decide, by decide⟩

/-- An operand in a tame tree is a tame tree and no name of an import. -/
theorem operand {n : Node} (h : Typed s e type) (htame : n.Everywhere s.Tame) (he : e ∈ n.operands) :
    e.Everywhere s.Tame ∧ ¬s.IsImportRef e := by
  refine ⟨htame.child ?_ h.kind_ne, htame.here.imports e he⟩
  unfold Node.operands at he
  split at he
  · exact List.mem_of_mem_tail he
  · exact he

/-- A typed expression of a tame tree is strictly typed. -/
theorem strictly (h : Typed s e type) (hs : s.Declared) (htame : e.Everywhere s.Tame)
    (he : ¬s.IsImportRef e) : Typed s.strictly e type := by
  have hclass : s.table.classType ≠ .any := fun heq => hs.known.1 (congrArg Ty.name heq)
  have hadmits {n c : Node} {type : Ty} (hn : n.Everywhere s.Tame) (hmem : c ∈ n.operands)
      (hc : Typed s c type) (hvalue : s.table.isVoidCall s.method c = false) : s.strictly.Admits type :=
    fun _ => hc.ne_void hs (hc.operand hn hmem).1 hvalue
  induction h with
  | intLiteral i p => exact .intLiteral i p
  | boolLiteral b p => exact .boolLiteral b p
  | varRef h p =>
    rcases h with h | ⟨-, h⟩
    · exact @Typed.varRef s.strictly _ (.inl h) p
    · exact absurd ⟨_, rfl, rfl, h⟩ he
  | thisRef h p => exact @Typed.thisRef s.strictly h p
  | paren hinner p ih => exact .paren ((hinner.operand htame (by simp [Node.operands])).elim ih) p
  | newObject name hknown p =>
    exact .newObject name (fun _ => ⟨htame.here.written _ rfl, htame.here.created rfl _ rfl⟩) p
  | newArray name hsize hint hknown p ih =>
    have hsize' := (hsize.operand htame (by simp [Node.operands])).elim ih
    exact .newArray name hsize' hint (fun _ => htame.here.written _ rfl) p
  | emptyLiteral p => exact .emptyLiteral p
  | arrayLiteral helements hfit _ p ih =>
    exact .arrayLiteral (fun e he => ((helements e he).operand htame he).elim (ih e he)) hfit
      (fun e he => hadmits htame he (helements e he) (htame.here.operands (.inr rfl) e he)) p
  | gatheredLiteral name helements hfit _ hknown p ih =>
    exact .gatheredLiteral name (fun e he => ((helements e he).operand htame he).elim (ih e he)) hfit
      (fun e he => hadmits htame he (helements e he) (htame.here.operands (.inr rfl) e he))
      (fun _ => htame.here.written _ rfl) p
  | arrayAccess harray hindex htype hint hknown p ih ihindex =>
    have harray' := (harray.operand htame (by simp [Node.operands])).elim ih
    have hindex' := (hindex.operand htame (by simp [Node.operands])).elim ihindex
    refine .arrayAccess harray' hindex' htype hint (fun _ hany => ?_) p
    have hall := htame.child (by simp) harray.kind_ne
    have hunknown := ((harray.determines hs hall).unknown (congrArg Ty.name hany)).1
    simp [hany, Ty.any] at hunknown
  | length harray htype p ih =>
    exact .length ((harray.operand htame (by simp [Node.operands])).elim ih) htype p
  | unary hoperand hboolean p ih =>
    exact .unary ((hoperand.operand htame (by simp [Node.operands])).elim ih) hboolean p
  | @binary op o left right leftType rightType hop hleft hright halike hwanted _ p ihl ihr =>
    have hl : left ∈ Node.operands ⟨.binary, ⟨[("op", .text op)]⟩, [left, right], p⟩ := by simp [Node.operands]
    have hr : right ∈ Node.operands ⟨.binary, ⟨[("op", .text op)]⟩, [left, right], p⟩ := by simp [Node.operands]
    have hvalues := htame.here.operands (.inl rfl)
    exact .binary hop ((hleft.operand htame hl).elim ihl) ((hright.operand htame hr).elim ihr) halike hwanted
      ⟨hadmits htame hl hleft (hvalues _ (by simp)), hadmits htame hr hright (hvalues _ (by simp))⟩ p
  | @ownCall name m receiver args types hm hreceiver hargs haccepts p ihr iha =>
    have hreceiver' := ihr (htame.child (by simp) hreceiver.kind_ne)
      fun href => hclass (hreceiver.eq_importRef href).1
    exact @Typed.ownCall s.strictly _ _ _ _ _ hm hreceiver'
      (fun e he => ((hargs e he).operand htame he).elim (iha e he)) haccepts p
  | lengthCall hreceiver hother harray p ih =>
    have hreceiver' := ih (htame.child (by simp) hreceiver.kind_ne) fun href => by
      simp [(hreceiver.eq_importRef href).1, Ty.any] at harray
    exact .lengthCall hreceiver' hother harray p
  | @foreignCall name receiver type args types hreceiver hother hlength himports hargs _ p ihr iha =>
    have hargs' (e : Node) (he : e ∈ args) := ((hargs e he).operand htame he).elim (iha e he)
    have hvalues (e : Node) (he : e ∈ args) :=
      hadmits htame he (hargs e he) (htame.here.arguments himports rfl e he)
    by_cases href : s.IsImportRef receiver
    · obtain ⟨rfl, imported, q, rfl, himport⟩ := hreceiver.eq_importRef href
      exact @Typed.importCall s.strictly _ _ _ _ himport (fun _ => hclass) hargs' hvalues p q
    · exact .foreignCall (ihr (htame.child (by simp) hreceiver.kind_ne) href) hother hlength himports
        hargs' hvalues p
  | @importCall name imported args types hreceiver hother hargs _ p q iha =>
    have hargs' (e : Node) (he : e ∈ args) := ((hargs e he).operand htame he).elim (iha e he)
    have hvalues (e : Node) (he : e ∈ args) :=
      hadmits htame he (hargs e he) (htame.here.arguments hreceiver.imports_ne_nil rfl e he)
    exact @Typed.importCall s.strictly _ _ _ _ hreceiver hother hargs' hvalues p q

end Typed

namespace Context
variable {s : Context} {name : String} {value : Node} {target : Ty}

/-- A variable that is no name of an import. -/
theorem Names.hasVariable {p : Position} (h : s.Names name)
    (hother : ¬s.IsImportRef ⟨.varRef, ⟨[("name", .text name)]⟩, [], p⟩) : s.HasVariable name :=
  h.resolve_right fun himport => hother ⟨name, rfl, rfl, himport.2⟩

theorem Assigns.strictly (h : s.Assigns target value) (hs : s.Declared)
    (htame : value.Everywhere s.Tame) (hvalue : ¬s.IsImportRef value) :
    s.strictly.Assigns target value := by
  cases h with
  | whole htyped h => exact .whole (htyped.strictly hs htame hvalue) h
  | elementwise htyped hkind harray helements h =>
    refine .elementwise (htyped.strictly hs htame hvalue) hkind harray (fun e he => ?_) h
    have helement := (helements e he).operand htame (by simpa [Node.operands, hkind] using he)
    exact (helements e he).strictly hs helement.1 helement.2

end Context

/-- A statement that fits into a tame tree fits strictly. -/
theorem Fits.strictly {s : Context} {returnType : Ty} {n : Node} (h : Fits s returnType n)
    (hs : s.Declared) (htame : n.Everywhere s.Tame) : Fits s.strictly returnType n := by
  have hpart {n c : Node} {type : Ty} (hn : n.Everywhere s.Tame) (hkind : n.kind ≠ .call)
      (hc : c ∈ n.children) (h : Typed s c type) : Typed s.strictly c type :=
    (h.operand hn (by simpa [Node.operands, hkind] using hc)).elim (h.strictly hs)
  have kind_ne {n : Node} (h : Fits s returnType n) : n.kind ≠ .methodDecl := by cases h <;> simp
  induction h with
  | block hparts p ih => exact .block (fun n hn => ih n hn (htame.child hn (kind_ne (hparts n hn)))) p
  | exprStmt he p => exact .exprStmt (hpart htame (by simp) (by simp) he) p
  | @assign name value hname hvalue p q =>
    have htarget := hname.hasVariable (htame.here.imports ⟨.varRef, ⟨[("name", .text name)]⟩, [], p⟩
      (by simp [Node.operands]))
    have hkind : value.kind ≠ .methodDecl := by
      cases hvalue with
      | whole htyped _ => exact htyped.kind_ne
      | elementwise htyped _ _ _ _ => exact htyped.kind_ne
    have hvalue' := hvalue.strictly hs (htame.child (by simp) hkind)
      (htame.here.imports _ (by simp [Node.operands]))
    exact @Fits.assign s.strictly _ _ _ (.inl htarget) hvalue' p q
  | @arrayAssign name index value indexType valueType hname hindex hvalue htype hint hfit p q =>
    have htarget := hname.hasVariable (htame.here.imports ⟨.varRef, ⟨[("name", .text name)]⟩, [], p⟩
      (by simp [Node.operands]))
    exact @Fits.arrayAssign s.strictly _ _ _ _ _ _ (.inl htarget) (hpart htame (by simp) (by simp) hindex)
      (hpart htame (by simp) (by simp) hvalue) htype hint hfit p q
  | returnNothing hvoid p => exact .returnNothing hvoid p
  | returnValue hvalue hvoid hfit p =>
    exact .returnValue (hpart htame (by simp) (by simp) hvalue) hvoid hfit p
  | ifThen hc hboolean ht p ih =>
    exact .ifThen (hpart htame (by simp) (by simp) hc) hboolean (ih (htame.child (by simp) (kind_ne ht))) p
  | ifElse hc hboolean ht he p iht ihe =>
    exact .ifElse (hpart htame (by simp) (by simp) hc) hboolean (iht (htame.child (by simp) (kind_ne ht)))
      (ihe (htame.child (by simp) (kind_ne he))) p
  | whileLoop hc hboolean hb p ih =>
    exact .whileLoop (hpart htame (by simp) (by simp) hc) hboolean (ih (htame.child (by simp) (kind_ne hb))) p

end JmmCompiler

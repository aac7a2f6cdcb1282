import JmmCompiler.Proofs.TypingForms
/-! Typed trees: expressions that the checks accept, with their types, and statements that fit into a
method. Trees that a compilation makes on its way are covered as well. -/
namespace JmmCompiler

namespace MethodInfo

/-- The parameter that takes any number of arguments. -/
def rest? (m : MethodInfo) : Option Symbol := if m.isVarargs then m.params.getLast? else none

/-- Parameters that take arguments of given types, one each. -/
def Takes (params : List Symbol) (types : List Ty) : Prop :=
  List.Forall₂ (fun p type => Ty.assignable p.type type = true) params types

/-- Arguments of given types may be passed to a method. -/
inductive Accepts (m : MethodInfo) : List Ty → Prop
  | each {types : List Ty} (hrest : m.rest? = none) (hparams : Takes m.params types) : Accepts m types
  | array {last : Symbol} {fixed : List Ty} {given : Ty} (hrest : m.rest? = some last)
      (hparams : Takes m.params.dropLast fixed) (harray : given.isArray = true)
      (hgiven : Ty.assignable last.type given = true) : Accepts m (fixed ++ [given])
  | gathered {last : Symbol} {fixed more : List Ty} (hrest : m.rest? = some last)
      (hlast : last.type.isArray = true) (hparams : Takes m.params.dropLast fixed)
      (hmore : ∀ type ∈ more, Ty.assignable last.type.base type = true)
      (hsingle : ∀ type, more = [type] → type.isArray = false) : Accepts m (fixed ++ more)

end MethodInfo

/-- A type that is known, and no array of what has no values. -/
def Ty.IsKnown (t : Ty) : Prop := t.name ≠ "any" ∧ t ≠ ⟨"void", true⟩

instance (t : Ty) : Decidable t.IsKnown := inferInstanceAs (Decidable (_ ∧ _))

/-- The surroundings of an expression. Where they are strict, operands have values, an imported name is nothing
but a receiver, and the types of what is created and of what is indexed are known. -/
structure Context where
  table : SymbolTable
  method : String
  isStatic : Bool
  strict : Bool := false

namespace Context
variable (s : Context)

def typeOf (e : Node) : Except Failure Ty := s.table.typeOf (some s.method) e

/-- The type that a variable is taken to have, which an imported name lacks. -/
def variableType (name : String) : Ty := (s.table.variableType? (some s.method) name).getD .any

/-- A name that is nothing but that of an import. -/
def IsImportName (name : String) : Prop :=
  s.table.binding? (some s.method) name = none ∧ s.table.field? name = none ∧
    s.table.isImported name = true

/-- A parameter, a local variable or a field within reach. -/
def HasVariable (name : String) : Prop :=
  (s.table.binding? (some s.method) name).isSome ∨ (s.table.field? name).isSome ∧ s.isStatic = false

/-- A name that may stand as an expression. -/
def Names (name : String) : Prop := s.HasVariable name ∨ s.strict = false ∧ s.IsImportName name

/-- A type of values that may be operands. -/
def Admits (type : Ty) : Prop := s.strict = true → type ≠ .void

end Context

/-- The expressions that are accepted in a context, with their types. -/
inductive Typed (s : Context) : Node → Ty → Prop
  | intLiteral (i : Int) (p : Position) : Typed s ⟨.intLiteral, ⟨[("value", .int i)]⟩, [], p⟩ .int
  | boolLiteral (b : Bool) (p : Position) :
      Typed s ⟨.boolLiteral, ⟨[("value", .bool b)]⟩, [], p⟩ .boolean
  | varRef {name : String} (h : s.Names name) (p : Position) :
      Typed s ⟨.varRef, ⟨[("name", .text name)]⟩, [], p⟩ (s.variableType name)
  | thisRef (h : s.isStatic = false) (p : Position) : Typed s ⟨.thisRef, {}, [], p⟩ s.table.classType
  | paren {inner : Node} {type : Ty} (hinner : Typed s inner type) (p : Position) :
      Typed s ⟨.paren, {}, [inner], p⟩ type
  | newObject (name : String)
      (hknown : s.strict = true → Ty.IsKnown ⟨name, false⟩ ∧ Ty.isReference ⟨name, false⟩ = true) (p : Position) :
      Typed s ⟨.newObject, ⟨[("name", .text name)]⟩, [], p⟩ ⟨name, false⟩
  | newArray (name : String) {size : Node} {sizeType : Ty} (hsize : Typed s size sizeType)
      (hint : Ty.assignable .int sizeType = true) (hknown : s.strict = true → Ty.IsKnown ⟨name, true⟩)
      (p : Position) : Typed s ⟨.newArray, ⟨[("name", .text name)]⟩, [size], p⟩ ⟨name, true⟩
  | emptyLiteral (p : Position) : Typed s ⟨.arrayLiteral, {}, [], p⟩ .intArray
  | arrayLiteral {first : Node} {rest : List Node} {types : Node → Ty}
      (helements : ∀ e ∈ first :: rest, Typed s e (types e))
      (hfit : ∀ e ∈ first :: rest, Ty.assignable (types first).base (types e) = true)
      (hadmits : ∀ e ∈ first :: rest, s.Admits (types e)) (p : Position) :
      Typed s ⟨.arrayLiteral, {}, first :: rest, p⟩ (types first).arrayOf
  | gatheredLiteral (name : String) {elements : List Node} {types : Node → Ty}
      (helements : ∀ e ∈ elements, Typed s e (types e))
      (hfit : ∀ e ∈ elements, Ty.assignable ⟨name, false⟩ (types e) = true)
      (hadmits : ∀ e ∈ elements, s.Admits (types e)) (hknown : s.strict = true → Ty.IsKnown ⟨name, true⟩)
      (p : Position) : Typed s ⟨.arrayLiteral, ⟨[("element_type", .text name)]⟩, elements, p⟩ ⟨name, true⟩
  | arrayAccess {array index : Node} {type indexType : Ty} (harray : Typed s array type)
      (hindex : Typed s index indexType) (htype : type = .any ∨ type.isArray = true)
      (hint : Ty.assignable .int indexType = true) (hknown : s.strict = true → type ≠ ⟨"any", true⟩)
      (p : Position) : Typed s ⟨.arrayAccess, {}, [array, index], p⟩ (Ty.indexed type)
  | length {array : Node} {type : Ty} (harray : Typed s array type)
      (htype : type = .any ∨ type.isArray = true) (p : Position) :
      Typed s ⟨.length, {}, [array], p⟩ .int
  | unary {operand : Node} {type : Ty} (hoperand : Typed s operand type)
      (hboolean : Ty.assignable .boolean type = true) (p : Position) :
      Typed s ⟨.unary, ⟨[("op", .text "!")]⟩, [operand], p⟩ .boolean
  | binary {op : String} {o : Operator} {left right : Node} {leftType rightType : Ty}
      (hop : Operator.ofSymbol? op = some o) (hleft : Typed s left leftType)
      (hright : Typed s right rightType) (halike : Ty.assignable leftType rightType = true)
      (hwanted : ∀ type ∈ o.operandType?,
        Ty.assignable type leftType = true ∧ Ty.assignable type rightType = true)
      (hadmits : s.Admits leftType ∧ s.Admits rightType) (p : Position) :
      Typed s ⟨.binary, ⟨[("op", .text op)]⟩, [left, right], p⟩ o.resultType
  | ownCall {name : String} {m : MethodInfo} {receiver : Node} {args : List Node} {types : Node → Ty}
      (hm : s.table.method? name = some m) (hreceiver : Typed s receiver s.table.classType)
      (hargs : ∀ e ∈ args, Typed s e (types e)) (haccepts : m.Accepts (args.map types)) (p : Position) :
      Typed s ⟨.call, ⟨[("name", .text name)]⟩, receiver :: args, p⟩ m.returnType
  | lengthCall {receiver : Node} {type : Ty} (hreceiver : Typed s receiver type)
      (hother : (s.table.method? "length").isSome → type ≠ s.table.classType)
      (harray : type.isArray = true) (p : Position) :
      Typed s ⟨.call, ⟨[("name", .text "length")]⟩, [receiver], p⟩ .int
  | foreignCall {name : String} {receiver : Node} {type : Ty} {args : List Node} {types : Node → Ty}
      (hreceiver : Typed s receiver type)
      (hother : (s.table.method? name).isSome → type ≠ s.table.classType)
      (hlength : name = "length" → args = [] → type.isArray = false) (himports : s.table.imports ≠ [])
      (hargs : ∀ e ∈ args, Typed s e (types e)) (hadmits : ∀ e ∈ args, s.Admits (types e))
      (p : Position) :
      Typed s ⟨.call, ⟨[("name", .text name)]⟩, receiver :: args, p⟩ (Ty.foreign name args)
  | importCall {name imported : String} {args : List Node} {types : Node → Ty}
      (hreceiver : s.IsImportName imported)
      (hother : (s.table.method? name).isSome → s.table.classType ≠ .any)
      (hargs : ∀ e ∈ args, Typed s e (types e)) (hadmits : ∀ e ∈ args, s.Admits (types e))
      (p q : Position) :
      Typed s ⟨.call, ⟨[("name", .text name)]⟩,
        ⟨.varRef, ⟨[("name", .text imported)]⟩, [], q⟩ :: args, p⟩ (Ty.foreign name args)

/-- A value may be assigned to a place of a type: as a whole, or element by element. -/
inductive Context.Assigns (s : Context) (target : Ty) (value : Node) : Prop
  | whole {type : Ty} (hvalue : Typed s value type) (h : s.table.compatible target type = true)
  | elementwise {type : Ty} (hvalue : Typed s value type) (hkind : value.kind = .arrayLiteral)
      (harray : target.isArray = true) {types : Node → Ty}
      (helements : ∀ e ∈ value.children, Typed s e (types e))
      (h : ∀ e ∈ value.children, Ty.assignable target.base (types e) = true)

/-- The statements that are accepted in a method with a return type. -/
inductive Fits (s : Context) (returnType : Ty) : Node → Prop
  | block {parts : List Node} (hparts : ∀ n ∈ parts, Fits s returnType n) (p : Position) :
      Fits s returnType ⟨.block, {}, parts, p⟩
  | exprStmt {e : Node} {type : Ty} (he : Typed s e type) (p : Position) :
      Fits s returnType ⟨.exprStmt, {}, [e], p⟩
  | assign {name : String} {value : Node}
      (hname : s.Names name) (hvalue : s.Assigns (s.variableType name) value) (p q : Position) :
      Fits s returnType ⟨.assign, {}, [⟨.varRef, ⟨[("name", .text name)]⟩, [], p⟩, value], q⟩
  | arrayAssign {name : String} {index value : Node} {indexType valueType : Ty}
      (hname : s.Names name) (hindex : Typed s index indexType) (hvalue : Typed s value valueType)
      (htype : s.variableType name = .any ∨ (s.variableType name).isArray = true)
      (hint : Ty.assignable .int indexType = true)
      (hfit : (s.variableType name).isArray = true →
        Ty.assignable (s.variableType name).base valueType = true) (p q : Position) :
      Fits s returnType
        ⟨.arrayAssign, {}, [⟨.varRef, ⟨[("name", .text name)]⟩, [], p⟩, index, value], q⟩
  | returnNothing (hvoid : returnType = .void) (p : Position) :
      Fits s returnType ⟨.returnStmt, {}, [], p⟩
  | returnValue {value : Node} {type : Ty} (hvalue : Typed s value type) (hvoid : returnType ≠ .void)
      (hfit : s.table.compatible returnType type = true) (p : Position) :
      Fits s returnType ⟨.returnStmt, {}, [value], p⟩
  | ifThen {c t : Node} {type : Ty} (hc : Typed s c type) (hboolean : Ty.assignable .boolean type = true)
      (ht : Fits s returnType t) (p : Position) : Fits s returnType ⟨.ifStmt, {}, [c, t], p⟩
  | ifElse {c t e : Node} {type : Ty} (hc : Typed s c type)
      (hboolean : Ty.assignable .boolean type = true) (ht : Fits s returnType t)
      (he : Fits s returnType e) (p : Position) : Fits s returnType ⟨.ifStmt, {}, [c, t, e], p⟩
  | whileLoop {c b : Node} {type : Ty} (hc : Typed s c type)
      (hboolean : Ty.assignable .boolean type = true) (hb : Fits s returnType b) (p : Position) :
      Fits s returnType ⟨.whileStmt, {}, [c, b], p⟩

theorem Context.IsImportName.variableType {s : Context} {name : String} (h : s.IsImportName name) :
    s.variableType name = .any := by
  obtain ⟨hbinding, hfield, -⟩ := h
  obtain ⟨hparam, hlocal⟩ := Option.or_eq_none_iff.1 hbinding
  simp [Context.variableType, SymbolTable.variableType?, hfield, hparam, hlocal]

namespace Typed
variable {s : Context} {e : Node} {type : Ty}

theorem typeOf (h : Typed s e type) : s.typeOf e = .ok type := by
  induction h with
  | intLiteral i p => rfl
  | boolLiteral b p => rfl
  | varRef h p => rfl
  | thisRef h p => rfl
  | paren hinner p ih => exact ih
  | newObject name hknown p => rfl
  | newArray name hsize hint hknown p ih => rfl
  | emptyLiteral p => exact s.table.typeOf_emptyLiteral _ p
  | @arrayLiteral first rest types helements hfit hadmits p ih =>
    exact s.table.typeOf_arrayLiteral _ (ih first (by simp))
  | gatheredLiteral name helements hfit hadmits hknown p ih => exact s.table.typeOf_gatheredLiteral _ name _ p
  | arrayAccess harray hindex htype hint hknown p ih ihindex => exact s.table.typeOf_arrayAccess _ ih
  | length harray htype p ih => rfl
  | unary hoperand hboolean p ih => rfl
  | binary hop hleft hright halike hwanted hadmits p ihl ihr =>
    rw [Context.typeOf, s.table.typeOf_binary, hop]
  | ownCall hm hreceiver hargs haccepts p ihr iha =>
    rw [Context.typeOf, s.table.typeOf_call _ ihr, hm]
    simp
  | @lengthCall receiver type hreceiver hother harray p ih =>
    rw [Context.typeOf, s.table.typeOf_call _ ih]
    cases hm : s.table.method? "length" with
    | none => simp [Ty.foreign]
    | some m =>
      have htype := hother (by simp [hm])
      simp [htype, Ty.foreign]
  | @foreignCall name receiver type args types hreceiver hother hlength himports hargs hadmits p ihr iha =>
    rw [Context.typeOf, s.table.typeOf_call _ ihr]
    cases hm : s.table.method? name with
    | none => rfl
    | some m =>
      have htype := hother (by simp [hm])
      simp [htype]
  | @importCall name imported args types hreceiver hother hargs hadmits p q iha =>
    have htype : s.typeOf ⟨.varRef, ⟨[("name", .text imported)]⟩, [], q⟩ = .ok .any :=
      congrArg Except.ok hreceiver.variableType
    rw [Context.typeOf, s.table.typeOf_call _ htype]
    cases hm : s.table.method? name with
    | none => rfl
    | some m =>
      have hclass := hother (by simp [hm])
      simp [Ne.symm hclass]

/-- A typed expression that is a variable has a name that may stand as an expression. -/
theorem names (h : Typed s e type) (hkind : e.kind = .varRef) : ∃ name, e.name = .ok name ∧ s.Names name := by
  cases h with
  | varRef h p => exact ⟨_, rfl, h⟩
  | _ => cases hkind

/-- The elements of an array literal are typed. -/
theorem elements (h : Typed s e type) (hkind : e.kind = .arrayLiteral) :
    ∃ types : Node → Ty, ∀ c ∈ e.children, Typed s c (types c) := by
  cases h with
  | emptyLiteral p => exact ⟨fun _ => .any, by simp⟩
  | arrayLiteral helements hfit hadmits p => exact ⟨_, helements⟩
  | gatheredLiteral name helements hfit hadmits hknown p => exact ⟨_, helements⟩
  | _ => cases hkind

end Typed
end JmmCompiler

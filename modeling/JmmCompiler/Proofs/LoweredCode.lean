import JmmCompiler.Proofs.Returns
import JmmCompiler.Proofs.StagedTyping
/-! The code of typed expressions and statements. An operand has the type of the expression that it stands for, or the
type that is asked of what is not known, and every instruction is one of a few forms that are made of such operands. -/
namespace JmmCompiler

/-- The type of a call whose type is not known. -/
def SymbolTable.askedType (expected : Option Ty) : Ty := (expected.filter (· ≠ .any)).getD .int

/-- The type that is asked of an operand beside one of a type. -/
def Operator.hint (o : Operator) (other : Ty) : Ty := o.operandType?.getD (if other = .any then .int else other)

theorem SymbolTable.operandHint_eq {t : SymbolTable} {method op : String} {o : Operator} {other : Node} {type : Ty}
    (hop : Operator.ofSymbol? op = some o) (h : t.typeOf method other = .ok type) :
    t.operandHint method op other = .ok (o.hint type) := by
  unfold operandHint Operator.hint
  rw [hop, Option.bind_some]
  cases o.operandType? with
  | some wanted => rfl
  | none => rw [h]; rfl

namespace Context
variable (s : Context) (P : Node → Prop)

/-- No parameter and no local variable has the name of a field. -/
def Unshadowed : Prop := ∀ name v, s.table.binding? (some s.method) name = some v → s.table.field? name = none

/-- No variable is hidden, and types are known where typing is strict. -/
structure Proper : Prop where
  unshadowed : s.Unshadowed
  declared : s.strict = true → s.Declared

/-- What expressions are lowered to, by their kind without parentheses, the type that is wanted and their type. -/
inductive Gives : Kind → Option Ty → Ty → Element → Prop
  | int {kind : Kind} {expected : Option Ty} (i : Int) : Gives kind expected .int (.literal i .int)
  | boolean {kind : Kind} {expected : Option Ty} (b : Bool) :
      Gives kind expected .boolean (.literal (if b then 1 else 0) .boolean)
  | var {kind : Kind} {expected : Option Ty} (name : String) {type : Ty} (hknown : s.strict = true → type ≠ .any) :
      Gives kind expected type (.var name type)
  | foreign {kind : Kind} {expected : Option Ty} (name : String) {type : Ty} (htype : type = .any ∨ type = .int)
      (hexpected : expected ≠ some .void) : Gives kind expected type (.var name (SymbolTable.askedType expected))
  | element {expected : Option Ty} (name : String) {array index : Node} {p : Position} {code : Element} {type : Ty}
      (hnode : P ⟨.arrayAccess, {}, [array, index], p⟩) (harray : Typed s array .any)
      (hgives : Gives array.coreKind (some (SymbolTable.elementWanted expected).arrayOf) .any code)
      (htype : code.type = .ok type) : Gives .arrayAccess expected .any (.var name type.base)
  | importRef {kind : Kind} {expected : Option Ty} {name : String} (h : s.IsImportName name) (hlax : s.strict = false) :
      Gives kind expected .any (.classRef name ⟨name, false⟩)
  | nothing {kind : Kind} {expected : Option Ty} : Gives kind expected .void .absent
  | discarded {kind : Kind} {type : Ty} (htype : type = .any ∨ type = .int) : Gives kind (some .void) type .absent

/-- The value that an expression is lowered to where a type is wanted. -/
structure Operand (expected : Option Ty) (e : Node) (type : Ty) (code : Element) : Prop where
  typed : Typed s e type
  every : e.Everywhere P
  gives : s.Gives P e.coreKind expected type code

/-- The arguments of a call of a method of the class, one for each parameter. -/
inductive Passes : List Symbol → List Node → List Element → Prop
  | nil : Passes [] [] []
  | cons {p : Symbol} {e : Node} {type : Ty} {code : Element} {params : List Symbol} {args : List Node}
      {codes : List Element} (hcode : s.Operand P (some p.type) e type code) (hfit : Ty.assignable p.type type = true)
      (hrest : Passes params args codes) : Passes (p :: params) (e :: args) (code :: codes)

/-- The arguments of a call of an unknown method. -/
def Sends (codes : List Element) : Prop :=
  ∀ code ∈ codes, ∃ e type, s.Operand P none e type code ∧ s.Admits type

/-- How methods are called, with the type of what they give. -/
inductive Calls : Invocation → Element → String → List Element → Ty → Prop
  | static {name : String} {m : MethodInfo} {receiver : Node} {args : List Node} {p : Position} {codes : List Element}
      (hnode : P ⟨.call, ⟨[("name", .text name)]⟩, receiver :: args, p⟩) (hm : s.table.method? name = some m)
      (hreceiver : Typed s receiver s.table.classType) (hstatic : s.table.isStatic name = true)
      (hcodes : s.Passes P m.params args codes) :
      Calls .static (.classRef s.table.className s.table.classType) name codes m.returnType
  | own {name : String} {m : MethodInfo} {receiver : Node} {args : List Node} {p : Position} {code : Element}
      {codes : List Element} (hnode : P ⟨.call, ⟨[("name", .text name)]⟩, receiver :: args, p⟩)
      (hm : s.table.method? name = some m) (hreceiver : s.Operand P none receiver s.table.classType code)
      (hcodes : s.Passes P m.params args codes) : Calls .virtual code name codes m.returnType
  | ownImport {name imported : String} {m : MethodInfo} {receiver : Node} {args : List Node} {p : Position}
      {codes : List Element} (hnode : P ⟨.call, ⟨[("name", .text name)]⟩, receiver :: args, p⟩)
      (hm : s.table.method? name = some m) (hclass : s.table.classType = .any) (hcodes : s.Passes P m.params args codes) :
      Calls .static (.classRef imported ⟨imported, false⟩) name codes m.returnType
  | foreign {name : String} {receiver : Node} {args : List Node} {p : Position} {receiverType type : Ty} {code : Element}
      {codes : List Element} (hnode : P ⟨.call, ⟨[("name", .text name)]⟩, receiver :: args, p⟩)
      (hreceiver : s.Operand P none receiver receiverType code)
      (hother : (s.table.method? name).isSome → receiverType ≠ s.table.classType)
      (hlength : name = "length" → args = [] → receiverType.isArray = false) (hcodes : s.Sends P codes) :
      Calls .virtual code name codes type
  | imported {name imported : String} {receiver : Node} {args : List Node} {p : Position} {type : Ty} {codes : List Element}
      (hnode : P ⟨.call, ⟨[("name", .text name)]⟩, receiver :: args, p⟩) (himport : s.IsImportName imported)
      (hcodes : s.Sends P codes) : Calls .static (.classRef imported ⟨imported, false⟩) name codes type

/-- The values that are computed into temporaries, with their types. -/
inductive Computes : Instruction → Ty → Prop
  | field {name : String} {f : Symbol} (hf : s.table.field? name = some f) (hinstance : s.isStatic = false) :
      Computes (.getField s.table.thisElement (.var name f.type)) f.type
  | newArray {e : Node} {type : Ty} {size : Element} (name : String) (hsize : s.Operand P (some .int) e type size)
      (hint : Ty.assignable .int type = true) : Computes (.call .new .absent none [size] ⟨name, true⟩) ⟨name, true⟩
  | literal (name : String) (count : Int) :
      Computes (.call .new .absent none [.literal count .int] ⟨name, true⟩) ⟨name, true⟩
  | newObject {name : String} {p : Position} (hnode : P ⟨.newObject, ⟨[("name", .text name)]⟩, [], p⟩) :
      Computes (.call .new (.classRef name ⟨name, false⟩) none [] ⟨name, false⟩) ⟨name, false⟩
  | length {e : Node} {type : Ty} {array : Element} (harray : s.Operand P (some .intArray) e type array)
      (htype : type = .any ∨ type.isArray = true) : Computes (.call .arrayLength array none [] .int) .int
  | unary {e : Node} {type : Ty} {operand : Element} (hoperand : s.Operand P (some .boolean) e type operand)
      (hboolean : Ty.assignable .boolean type = true) : Computes (.unary "!" operand .boolean) .boolean
  | binary {op : String} {o : Operator} {e e' : Node} {type type' : Ty} {left right : Element}
      (hop : Operator.ofSymbol? op = some o) (hleft : s.Operand P (some (o.hint type')) e type left)
      (hright : s.Operand P (some (o.hint type)) e' type' right) (halike : Ty.assignable type type' = true)
      (hwanted : ∀ t ∈ o.operandType?, Ty.assignable t type = true ∧ Ty.assignable t type' = true)
      (hadmits : s.Admits type ∧ s.Admits type') : Computes (.binary op left right o.resultType) o.resultType
  | element {expected : Option Ty} {e e' : Node} {type indexType elementType : Ty} {array index : Element} {name : String}
      (harray : s.Operand P (some (SymbolTable.elementWanted expected).arrayOf) e type array)
      (htype : type = .any ∨ type.isArray = true) (hname : array.name = .ok name) (helement : array.type = .ok elementType)
      (hindex : s.Operand P (some .int) e' indexType index) (hint : Ty.assignable .int indexType = true) :
      Computes (.single (.item name elementType.base index)) elementType.base
  | call {invocation : Invocation} {target : Element} {name : String} {codes : List Element} {type : Ty}
      (hcall : s.Calls P invocation target name codes type) (hvalue : type ≠ .void) :
      Computes (.call invocation target (some name) codes type) type

/-- The conditions of jumps. -/
inductive Tests : Instruction → Prop
  | comparison {op : String} {c : Comparison} {e e' : Node} {type type' : Ty} {left right : Element}
      (hop : Operator.ofSymbol? op = some (.comparison c)) (hleft : s.Operand P (some .int) e type left)
      (hright : s.Operand P (some .int) e' type' right) (halike : Ty.assignable type type' = true)
      (hwanted : c.isOrdering = true → Ty.assignable .int type = true ∧ Ty.assignable .int type' = true)
      (hadmits : s.Admits type ∧ s.Admits type') : Tests (.binary op left right .boolean)
  | negation {e : Node} {type : Ty} {code : Element} (hcode : s.Operand P (some .boolean) e type code)
      (hboolean : Ty.assignable .boolean type = true) : Tests (.unary "!" code .boolean)
  | truth {e : Node} {type : Ty} {code : Element} (hcode : s.Operand P (some .boolean) e type code)
      (hboolean : Ty.assignable .boolean type = true) : Tests (.single code)

/-- The instructions of a method with a return type. -/
inductive Makes (returnType : Ty) : Instruction → Prop
  | temp {type : Ty} {value : Instruction} (name : String) (hvalue : s.Computes P value type) :
      Makes returnType (.assign (.var name type) value)
  | init (temp name : String) : Makes returnType (.call .special (.var temp ⟨name, false⟩) (some "<init>") [] .void)
  | truth {e : Node} {type : Ty} {code : Element} (name : String) (hcode : s.Operand P (some .boolean) e type code)
      (hboolean : Ty.assignable .boolean type = true) : Makes returnType (.assign (.var name .boolean) (.single code))
  | falsity (name : String) : Makes returnType (.assign (.var name .boolean) (.single (.literal 0 .boolean)))
  | put {literal e : Node} {literalType type : Ty} {code : Element} (array : String) (index : Int)
      (hliteral : Typed s literal literalType) (hevery : literal.Everywhere P) (harray : literalType.isArray = true)
      (hcode : s.Operand P (some literalType.base) e type code) (hfit : Ty.assignable literalType.base type = true)
      (hadmits : s.Admits type) :
      Makes returnType (.assign (.item array literalType.base (.literal index .int)) (.single code))
  | call {invocation : Invocation} {target : Element} {name : String} {codes : List Element}
      (hcall : s.Calls P invocation target name codes .void) :
      Makes returnType (.call invocation target (some name) codes .void)
  | test {condition : Instruction} (label : String) (h : s.Tests P condition) : Makes returnType (.branch condition label)
  | goto (label : String) : Makes returnType (.goto label)
  | label (name : String) : Makes returnType (.label name)
  | assign {name : String} {v : Symbol} {e : Node} {type : Ty} {code : Element} {p q : Position}
      (hnode : P ⟨.assign, {}, [⟨.varRef, ⟨[("name", .text name)]⟩, [], p⟩, e], q⟩)
      (hname : s.table.binding? (some s.method) name = some v) (hcode : s.Operand P (some v.type) e type code)
      (hassigns : s.Assigns v.type e) : Makes returnType (.assign (.var name v.type) (.single code))
  | update {name op : String} {v : Symbol} {o : Operator} {e : Node} {type : Ty} {literal : Element}
      (hname : s.table.binding? (some s.method) name = some v) (hop : Operator.ofSymbol? op = some o)
      (hother : ∀ c, o ≠ .comparison c) (hliteral : s.Operand P (some v.type) e type literal)
      (hwanted : ∀ t ∈ o.operandType?, Ty.assignable t v.type = true ∧ Ty.assignable t type = true)
      (hfit : s.table.compatible v.type o.resultType = true) :
      Makes returnType (.assign (.var name v.type) (.binary op (.var name v.type) literal v.type))
  | putField {name : String} {f : Symbol} {e : Node} {type : Ty} {code : Element} {p q : Position}
      (hnode : P ⟨.assign, {}, [⟨.varRef, ⟨[("name", .text name)]⟩, [], p⟩, e], q⟩) (hf : s.table.field? name = some f)
      (hinstance : s.isStatic = false) (hcode : s.Operand P (some f.type) e type code) (hassigns : s.Assigns f.type e) :
      Makes returnType (.putField s.table.thisElement (.var name f.type) code)
  | store {e e' e'' : Node} {type indexType valueType elementType : Ty} {array index code : Element} {name : String}
      (harray : s.Operand P (some .intArray) e type array) (htype : type = .any ∨ type.isArray = true)
      (hknown : s.strict = true → type ≠ .any) (hname : array.name = .ok name) (helement : array.type = .ok elementType)
      (hindex : s.Operand P (some .int) e' indexType index) (hint : Ty.assignable .int indexType = true)
      (hcode : s.Operand P (some elementType.base) e'' valueType code)
      (hfit : type.isArray = true → Ty.assignable type.base valueType = true) :
      Makes returnType (.assign (.item name elementType.base index) (.single code))
  | ret {e : Node} {type : Ty} {code : Element} {p : Position} (hnode : P ⟨.returnStmt, {}, [e], p⟩)
      (hcode : s.Operand P (some returnType) e type code)
      (hvoid : returnType ≠ .void) (hfit : s.table.compatible returnType type = true) : Makes returnType (.ret code returnType)
  | retNothing (hvoid : returnType = .void) : Makes returnType (.ret .absent .void)

end Context

/-! ## Expressions -/

namespace Context
variable {s : Context} {P : Node → Prop} {returnType type : Ty} {expected : Option Ty} {e : Node} {name : String}
open Lower

theorem Unshadowed.variableType_binding (hs : s.Unshadowed) {v : Symbol} (h : s.table.binding? (some s.method) name = some v) :
    s.variableType name = v.type := by
  have hfield := hs name v h
  simp only [SymbolTable.binding?] at h
  simp [Context.variableType, SymbolTable.variableType?, hfield, h]

theorem variableType_field {f : Symbol} (hf : s.table.field? name = some f) : s.variableType name = f.type := by
  simp [Context.variableType, SymbolTable.variableType?, hf]

/-- What an expression is lowered to: an operand, and instructions that compute it. -/
def Values (s : Context) (P : Node → Prop) (returnType : Ty) (expected : Option Ty) (e : Node) (type : Ty)
    (l : Lowered) : Prop :=
  s.Operand P expected e type l.code ∧ ∀ i ∈ l.computation, s.Makes P returnType i

theorem succeeds_intoTemp_values {before : List Instruction} {t : Ty} {value : Instruction}
    (hbefore : ∀ i ∈ before, s.Makes P returnType i) (hvalue : s.Computes P value t)
    (hcode : ∀ temp, s.Operand P expected e type (.var temp t)) :
    Succeeds (SymbolTable.intoTemp before t value) (s.Values P returnType expected e type) := by
  refine succeeds_temp.bind fun temp _ => .pure ⟨hcode temp, fun i hi => ?_⟩
  rcases List.mem_append.1 hi with hi | hi
  · exact hbefore i hi
  · exact List.mem_singleton.1 hi ▸ .temp temp hvalue

theorem Proper.ne_any (hs : s.Proper) (h : s.HasVariable name) : s.strict = true → s.variableType name ≠ .any :=
  fun hstrict heq => ((hs.declared hstrict).names name h).1.1 (congrArg Ty.name heq)

theorem succeeds_lowerVariable_values (hs : s.Proper) (h : s.Names name) {p : Position}
    (hP : Node.Everywhere P ⟨.varRef, ⟨[("name", .text name)]⟩, [], p⟩) :
    Succeeds (s.table.lowerVariable s.method name)
      (s.Values P returnType expected ⟨.varRef, ⟨[("name", .text name)]⟩, [], p⟩ (s.variableType name)) := by
  have hoperand {code : Element} (hgives : s.Gives P .varRef expected (s.variableType name) code) :
      s.Operand P expected ⟨.varRef, ⟨[("name", .text name)]⟩, [], p⟩ (s.variableType name) code := ⟨.varRef h p, hP, hgives⟩
  unfold SymbolTable.lowerVariable
  cases hbinding : s.table.binding? s.method name with
  | some v =>
    have hknown : s.strict = true → s.variableType name ≠ .any := hs.ne_any (.inl (by simp [hbinding]))
    rw [hs.unshadowed.variableType_binding hbinding] at hknown
    refine .pure ⟨hoperand ?_, by simp⟩
    rw [hs.unshadowed.variableType_binding hbinding]
    exact .var name hknown
  | none =>
    cases hfield : s.table.field? name with
    | some f =>
      have hinstance : s.isStatic = false := by
        rcases h with (h | h) | ⟨-, -, h, -⟩
        · simp [hbinding] at h
        · exact h.2
        · simp [hfield] at h
      have hknown : s.strict = true → s.variableType name ≠ .any := hs.ne_any (.inr ⟨by simp [hfield], hinstance⟩)
      rw [variableType_field hfield] at hknown
      refine succeeds_intoTemp_values (by simp) (.field hfield hinstance) fun temp => hoperand ?_
      rw [variableType_field hfield]
      exact .var temp hknown
    | none =>
      obtain ⟨hlax, himport⟩ : s.strict = false ∧ s.IsImportName name := by
        refine h.resolve_left fun h => ?_
        rcases h with h | h
        · simp [hbinding] at h
        · simp [hfield] at h
      rw [if_pos himport.2.2]
      refine .pure ⟨hoperand ?_, by simp⟩
      rw [himport.variableType]
      exact .importRef himport hlax

theorem Operand.paren {inner : Node} {code : Element} {p : Position} (h : s.Operand P expected inner type code)
    (hP : Node.Everywhere P ⟨.paren, {}, [inner], p⟩) : s.Operand P expected ⟨.paren, {}, [inner], p⟩ type code :=
  ⟨.paren h.typed p, hP, h.gives⟩

/-- The value of what is an array or is not known has a name. -/
theorem Gives.exists_name {kind : Kind} {code : Element} (h : s.Gives P kind expected type code)
    (htype : type = .any ∨ type.isArray = true) (hexpected : expected ≠ some .void) : ∃ name, code.name = .ok name := by
  cases h with
  | int i => simp [Ty.int, Ty.any] at htype
  | boolean b => simp [Ty.boolean, Ty.any] at htype
  | nothing => simp [Ty.void, Ty.any] at htype
  | discarded _ => exact absurd rfl hexpected
  | _ => exact ⟨_, rfl⟩

/-- The value of an array has its type. -/
theorem Gives.type_of_array {kind : Kind} {code : Element} {t : Ty} (h : s.Gives P kind expected type code)
    (hisArray : type.isArray = true) (ht : code.type = .ok t) : type = t := by
  cases h with
  | var name hknown => exact Except.ok.inj ht
  | foreign name htype hexpected => rcases htype with rfl | rfl <;> cases hisArray
  | discarded htype => rcases htype with rfl | rfl <;> cases hisArray
  | _ => cases hisArray

theorem askedType_eq_void (h : SymbolTable.askedType expected = .void) : expected = some .void := by
  by_contra hne
  exact SymbolTable.wanted_ne_void hne h

theorem foreign_cases (name : String) (args : List Node) : Ty.foreign name args = .any ∨ Ty.foreign name args = .int := by
  unfold Ty.foreign
  split
  · exact .inr rfl
  · exact .inl rfl

section
variable {args : List Node} {types : Node → Ty}

/-- An expression is lowered to its value, whatever is wanted of it. -/
def Lowers (s : Context) (P : Node → Prop) (returnType : Ty) (e : Node) (type : Ty) : Prop :=
  ∀ expected, Succeeds (s.table.lower s.method expected e) (s.Values P returnType expected e type)

/-- Expressions are lowered to their values, whatever is wanted of them. -/
def LowersAll (s : Context) (P : Node → Prop) (returnType : Ty) (types : Node → Ty) (es : List Node) : Prop :=
  ∀ e ∈ es, ∀ expected, Succeeds (s.table.lower s.method expected e) (s.Values P returnType expected e (types e))

theorem succeeds_lowerArguments_passes (h : s.LowersAll P returnType types args) {params : List Symbol}
    (htakes : MethodInfo.Takes params (args.map types)) :
    Succeeds (s.table.lowerArguments s.method (params.map (·.type)) args)
      fun r => s.Passes P params args r.2 ∧ ∀ i ∈ r.1, s.Makes P returnType i := by
  induction args generalizing params with
  | nil =>
    cases htakes
    exact .pure ⟨.nil, by simp⟩
  | cons e es ih =>
    obtain ⟨he, hes⟩ := List.forall_mem_cons.1 h
    rcases htakes with _ | ⟨hfirst, hrest⟩
    rw [SymbolTable.lowerArguments]
    refine (he _).bind fun value hvalue => (ih hes hrest).bind fun rest hcodes => .pure ⟨?_, ?_⟩
    · exact .cons hvalue.1 hfirst hcodes.1
    · simpa [or_imp, forall_and] using ⟨hvalue.2, hcodes.2⟩

theorem succeeds_lowerArguments_sends (h : s.LowersAll P returnType types args) (hadmits : ∀ e ∈ args, s.Admits (types e)) :
    Succeeds (s.table.lowerArguments s.method [] args)
      fun r => s.Sends P r.2 ∧ ∀ i ∈ r.1, s.Makes P returnType i := by
  induction args with
  | nil => exact .pure ⟨by simp [Sends], by simp⟩
  | cons e es ih =>
    obtain ⟨he, hes⟩ := List.forall_mem_cons.1 h
    obtain ⟨hadmitted, hmore⟩ := List.forall_mem_cons.1 hadmits
    rw [SymbolTable.lowerArguments]
    refine (he _).bind fun value hvalue => (ih hes hmore).bind fun rest hcodes => .pure ⟨?_, ?_⟩
    · exact List.forall_mem_cons.2 ⟨⟨e, types e, hvalue.1, hadmitted⟩, hcodes.1⟩
    · simpa [or_imp, forall_and] using ⟨hvalue.2, hcodes.2⟩

theorem succeeds_lowerElements_makes {literal : Node} {literalType : Ty} (hliteral : Typed s literal literalType)
    (hevery : literal.Everywhere P) (harray : literalType.isArray = true) (h : s.LowersAll P returnType types args)
    (hfit : ∀ e ∈ args, Ty.assignable literalType.base (types e) = true) (hadmits : ∀ e ∈ args, s.Admits (types e))
    (array : String) (index : Nat) :
    Succeeds (s.table.lowerElements s.method array literalType.base index args) fun is => ∀ i ∈ is, s.Makes P returnType i := by
  induction args generalizing index with
  | nil => exact .pure (by simp)
  | cons e es ih =>
    obtain ⟨he, hes⟩ := List.forall_mem_cons.1 h
    obtain ⟨hfirst, hmore⟩ := List.forall_mem_cons.1 hfit
    obtain ⟨hadmitted, hrest⟩ := List.forall_mem_cons.1 hadmits
    rw [SymbolTable.lowerElements]
    refine (he _).bind fun value hvalue => (ih hes hmore hrest _).bind fun stores hstores => .pure ?_
    have hput : s.Makes P returnType (.assign (.item array literalType.base (.literal index .int)) (.single value.code)) :=
      .put array index hliteral hevery harray hvalue.1 hfirst hadmitted
    intro i hi
    simp only [List.mem_append, List.mem_singleton] at hi
    rcases hi with (hi | rfl) | hi
    · exact hvalue.2 i hi
    · exact hput
    · exact hstores i hi

/-- An array literal is an array that is created and filled. -/
theorem succeeds_arrayLiteral_values {attributes : Assoc Attribute} {p : Position} (types : Node → Ty)
    (h : Typed s ⟨.arrayLiteral, attributes, args, p⟩ type) (hP : Node.Everywhere P ⟨.arrayLiteral, attributes, args, p⟩)
    (hargs : s.LowersAll P returnType types args) (hfit : ∀ e ∈ args, Ty.assignable type.base (types e) = true)
    (hadmits : ∀ e ∈ args, s.Admits (types e)) (hisArray : type.isArray = true) (expected : Option Ty) :
    Succeeds (s.table.lower s.method expected ⟨.arrayLiteral, attributes, args, p⟩)
      (s.Values P returnType expected ⟨.arrayLiteral, attributes, args, p⟩ type) := by
  have htype : (⟨type.name, true⟩ : Ty) = type := (Ty.eq_mk rfl hisArray).symm
  have hnew : Succeeds (SymbolTable.lowerNewArray type.name ⟨.literal args.length .int, []⟩) fun array => ∃ temp,
      array = ⟨.var temp ⟨type.name, true⟩, [.assign (.var temp ⟨type.name, true⟩)
        (.call .new .absent none [.literal args.length .int] ⟨type.name, true⟩)]⟩ :=
    succeeds_temp.bind fun temp _ => .pure ⟨temp, rfl⟩
  rw [SymbolTable.lower_arrayLiteral _ _ _ _ _ _ h.typeOf]
  refine hnew.bind fun array hnew => ?_
  obtain ⟨temp, rfl⟩ := hnew
  refine .known rfl ((succeeds_lowerElements_makes h hP hisArray hargs hfit hadmits temp 0).bind fun stores hstores => ?_)
  refine .pure ⟨⟨h, hP, htype ▸ .var temp fun _ => by simp [Ty.any]⟩, fun i hi => ?_⟩
  rcases List.mem_append.1 hi with hi | hi
  · obtain rfl := List.mem_singleton.1 hi
    exact .temp temp (.literal type.name args.length)
  · exact hstores i hi

/-- A call whose target and arguments are lowered. -/
theorem succeeds_lowerInvocation_values {invocation : Invocation} (target : Lowered) {name : String} {t : Ty}
    {params : List Ty} {Q : List Element → Prop}
    (hargs : Succeeds (s.table.lowerArguments s.method params args) fun r => Q r.2 ∧ ∀ i ∈ r.1, s.Makes P returnType i)
    (htarget : ∀ i ∈ target.computation, s.Makes P returnType i)
    (hcall : ∀ codes, Q codes → s.Calls P invocation target.code name codes t)
    (habsent : t = .void → s.Operand P expected e type .absent)
    (hcode : t ≠ .void → ∀ temp, s.Operand P expected e type (.var temp t)) :
    Succeeds (s.table.lowerInvocation s.method invocation target name t params args)
      (s.Values P returnType expected e type) := by
  refine hargs.bind fun (before, codes) hcodes => ?_
  obtain ⟨hcodes, hbefore⟩ := hcodes
  have hall : ∀ i ∈ target.computation ++ before, s.Makes P returnType i := by
    intro i hi
    exact (List.mem_append.1 hi).elim (htarget i) (hbefore i)
  by_cases hvoid : t = .void
  · subst hvoid
    simp only [if_true]
    refine .pure ⟨habsent rfl, fun i hi => ?_⟩
    rcases List.mem_append.1 hi with hi | hi
    · exact hall i hi
    · exact List.mem_singleton.1 hi ▸ .call (hcall codes hcodes)
  · simp only [hvoid, if_false]
    exact succeeds_intoTemp_values hall (.call (hcall codes hcodes) hvoid) (hcode hvoid)

end

end Context

namespace Typed
variable {s : Context} {P : Node → Prop} {returnType type : Ty} {e receiver : Node}
open Lower

/-- It is known whether a receiver is a class, which has the name of an import and no type. -/
theorem exists_isClassReceiver (h : Typed s receiver type) :
    ∃ isClass, s.table.isClassReceiver s.method receiver = .ok isClass ∧
      (isClass = true → ∃ imported, receiver.name = .ok imported ∧ s.IsImportName imported ∧ type = .any) := by
  by_cases hkind : receiver.kind = .varRef
  · cases h with
    | @varRef imported h p =>
      have hname : Node.name ⟨.varRef, ⟨[("name", .text imported)]⟩, [], p⟩ = .ok imported := rfl
      refine ⟨_, s.table.isClassReceiver_of_name s.method hkind hname, fun hclass => ⟨imported, hname, ?_⟩⟩
      have himport : s.IsImportName imported := by
        simpa [Context.IsImportName, and_assoc] using hclass
      exact ⟨himport, himport.variableType⟩
    | _ => cases hkind
  · exact ⟨false, s.table.isClassReceiver_of_kind s.method hkind, by simp⟩

/-- The target of a call: the class, the class of an import, or an object. -/
theorem succeeds_callTarget_values (h : Typed s receiver type)
    (hlower : Succeeds (s.table.lower s.method none receiver) (s.Values P returnType none receiver type))
    (own : Bool) (name : String) {Q : Invocation → Element → Prop}
    (hstatic : own = true → s.table.isStatic name = true → Q .static (.classRef s.table.className s.table.classType))
    (himport : ∀ imported, s.IsImportName imported → type = .any → Q .static (.classRef imported ⟨imported, false⟩))
    (hvirtual : ∀ code, s.Operand P none receiver type code → Q .virtual code) :
    ∃ isClass, s.table.isClassReceiver s.method receiver = .ok isClass ∧
      Succeeds (s.table.callTarget s.method own isClass name receiver) fun r =>
        (∀ i ∈ r.2.computation, s.Makes P returnType i) ∧ Q r.1 r.2.code := by
  obtain ⟨isClass, hclass, hnamed⟩ := h.exists_isClassReceiver
  refine ⟨isClass, hclass, ?_⟩
  unfold SymbolTable.callTarget
  split
  · rename_i hown
    rw [Bool.and_eq_true] at hown
    obtain ⟨hown, hisStatic⟩ := hown
    exact .pure ⟨by simp, hstatic hown hisStatic⟩
  split
  · obtain ⟨imported, hname, himported, hany⟩ := hnamed ‹_›
    exact .known hname (.pure ⟨by simp, himport imported himported hany⟩)
  · exact hlower.bind fun target htarget => .pure ⟨htarget.2, hvirtual target.code htarget.1⟩

/-- An element is read from a named array into a temporary. -/
theorem lowers_arrayAccess {array index : Node} {indexType : Ty} {p : Position} (harray : Typed s array type)
    (hindex : Typed s index indexType) (htype : type = .any ∨ type.isArray = true)
    (hint : Ty.assignable .int indexType = true) (hknown : s.strict = true → type ≠ ⟨"any", true⟩)
    (hP : Node.Everywhere P ⟨.arrayAccess, {}, [array, index], p⟩) (ha : s.Lowers P returnType array type)
    (hi : s.Lowers P returnType index indexType) :
    s.Lowers P returnType ⟨.arrayAccess, {}, [array, index], p⟩ (Ty.indexed type) := by
  intro expected
  rw [SymbolTable.lower_arrayAccess]
  refine (ha _).bind fun array ha => (hi _).bind fun index hi => ?_
  obtain ⟨name, hname⟩ := ha.1.gives.exists_name htype (by simp [Ty.arrayOf, Ty.void])
  obtain ⟨elementType, helement⟩ := Element.exists_type_of_name hname
  refine .known helement (.known hname ?_)
  refine Context.succeeds_intoTemp_values (by simpa [or_imp, forall_and] using ⟨ha.2, hi.2⟩)
    (.element ha.1 htype hname helement hi.1 hint) fun temp =>
      ⟨.arrayAccess harray hindex htype hint hknown p, hP, ?_⟩
  by_cases hany : type = .any
  · subst hany
    exact .element temp hP.here harray ha.1.gives helement
  · have hisArray := htype.resolve_left hany
    obtain rfl := ha.1.gives.type_of_array hisArray helement
    rw [Ty.indexed, if_neg hany]
    exact .var temp fun hstrict heq => hknown hstrict (Ty.eq_mk (congrArg Ty.name heq) hisArray)

section
variable {op : String} {o : Operator} {left right : Node} {leftType rightType : Ty} {p : Position}

/-- The right operand of `&&` is computed only if the left one is true: a jump leads past it. -/
theorem lowers_and (hleft : Typed s left leftType) (hright : Typed s right rightType)
    (halike : Ty.assignable leftType rightType = true)
    (hwanted : ∀ t ∈ (Operator.logical .and).operandType?, Ty.assignable t leftType = true ∧ Ty.assignable t rightType = true)
    (hadmits : s.Admits leftType ∧ s.Admits rightType)
    (hP : Node.Everywhere P ⟨.binary, ⟨[("op", .text "&&")]⟩, [left, right], p⟩)
    (hl : s.Lowers P returnType left leftType) (hr : s.Lowers P returnType right rightType) :
    s.Lowers P returnType ⟨.binary, ⟨[("op", .text "&&")]⟩, [left, right], p⟩ (Operator.logical .and).resultType := by
  intro expected
  obtain ⟨hbl, hbr⟩ := hwanted .boolean rfl
  rw [SymbolTable.lower_and]
  refine succeeds_label.bind fun label _ => (hl _).bind fun left hl => (hr _).bind fun right hr =>
    succeeds_temp.bind fun temp _ => .pure
      ⟨⟨.binary rfl hleft hright halike hwanted hadmits p, hP, .var temp fun _ => by decide⟩, fun i hi => ?_⟩
  simp only [List.mem_append, List.mem_cons, List.not_mem_nil, or_false] at hi
  rcases hi with ((hi | rfl) | hi) | rfl | rfl | rfl | rfl | rfl
  · exact hl.2 i hi
  · exact .test _ (.negation hl.1 hbl)
  · exact hr.2 i hi
  · exact .truth temp hr.1 hbr
  · exact .goto _
  · exact .label _
  · exact .falsity temp
  · exact .label _

/-- The operands of every other operator are computed both, each with the type that the other one asks for. -/
theorem lowers_binary (hop : Operator.ofSymbol? op = some o) (hleft : Typed s left leftType)
    (hright : Typed s right rightType) (halike : Ty.assignable leftType rightType = true)
    (hwanted : ∀ t ∈ o.operandType?, Ty.assignable t leftType = true ∧ Ty.assignable t rightType = true)
    (hadmits : s.Admits leftType ∧ s.Admits rightType)
    (hP : Node.Everywhere P ⟨.binary, ⟨[("op", .text op)]⟩, [left, right], p⟩)
    (hl : s.Lowers P returnType left leftType) (hr : s.Lowers P returnType right rightType) :
    s.Lowers P returnType ⟨.binary, ⟨[("op", .text op)]⟩, [left, right], p⟩ o.resultType := by
  by_cases hand : op = "&&"
  · subst hand
    obtain rfl : Operator.logical .and = o := Option.some.inj hop
    exact lowers_and hleft hright halike hwanted hadmits hP hl hr
  intro expected
  have hresult : o.resultType ≠ .any := by
    rcases o.resultType_cases with heq | heq <;> simp [heq, Ty.int, Ty.boolean, Ty.any]
  rw [SymbolTable.lower_binary _ _ _ _ hop hand]
  refine .known (SymbolTable.operandHint_eq hop hright.typeOf) ((hl _).bind fun left hl =>
    .known (SymbolTable.operandHint_eq hop hleft.typeOf) ((hr _).bind fun right hr => ?_))
  exact Context.succeeds_intoTemp_values (by simpa [or_imp, forall_and] using ⟨hl.2, hr.2⟩)
    (.binary hop hl.1 hr.1 halike hwanted hadmits)
    fun temp => ⟨.binary hop hleft hright halike hwanted hadmits p, hP, .var temp fun _ => hresult⟩

end

/-! ### Calls -/

section
variable {name : String} {args : List Node} {types : Node → Ty} {p : Position}

/-- A call of a method of the class passes one value for each parameter and gives what the method returns. -/
theorem lowers_ownCall (hs : s.Proper) {m : MethodInfo} (hm : s.table.method? name = some m)
    (hreceiver : Typed s receiver s.table.classType) (hargs : ∀ e ∈ args, Typed s e (types e))
    (haccepts : m.Accepts (args.map types)) (hP : Node.Everywhere P ⟨.call, ⟨[("name", .text name)]⟩, receiver :: args, p⟩)
    (hnormal : Node.Everywhere s.IsNormal ⟨.call, ⟨[("name", .text name)]⟩, receiver :: args, p⟩)
    (htarget : s.Lowers P returnType receiver s.table.classType) (hlowers : s.LowersAll P returnType types args) :
    s.Lowers P returnType ⟨.call, ⟨[("name", .text name)]⟩, receiver :: args, p⟩ m.returnType := by
  intro expected
  have hown : s.table.isOwnCall (some s.method) name receiver = .ok true :=
    s.table.isOwnCall_of_method _ hm hreceiver.typeOf
  have hsignature : s.table.callSignature expected true name = .ok (m.returnType, m.params.map (·.type)) :=
    s.table.callSignature_of_method expected hm
  obtain ⟨types', htypes', htakes, -⟩ := hnormal.here _ _ _ _ name m rfl rfl hm hreceiver.typeOf
  have hsame : args.map types' = args.map types := List.map_congr_left fun e he =>
    Except.ok.inj ((htypes' e he).typeOf.symm.trans (hargs e he).typeOf)
  have htyped := Typed.ownCall hm hreceiver hargs haccepts p
  obtain ⟨isClass, hclass, htarget⟩ := hreceiver.succeeds_callTarget_values (htarget none) true name
    (Q := fun invocation target => ∀ codes, s.Passes P m.params args codes →
      s.Calls P invocation target name codes m.returnType)
    (fun _ hstatic codes hcodes => .static hP.here hm hreceiver hstatic hcodes)
    (fun imported _ hclass codes hcodes => .ownImport hP.here hm hclass hcodes)
    (fun code hcode codes hcodes => .own hP.here hm hcode hcodes)
  rw [SymbolTable.lower_call _ _ _ _ hown hreceiver.typeOf hclass, if_neg (by simp)]
  refine htarget.bind fun r hr => .known hsignature ?_
  exact Context.succeeds_lowerInvocation_values r.2 (Context.succeeds_lowerArguments_passes hlowers (hsame ▸ htakes)) hr.1 hr.2
    (fun hvoid => ⟨htyped, hP, hvoid ▸ .nothing⟩) fun _ temp => ⟨htyped, hP, .var temp fun hstrict heq =>
      ((hs.declared hstrict).results name m hm).1 (congrArg Ty.name heq)⟩

/-- A call of what is not declared gives a value of the type that is asked for, or none. -/
theorem succeeds_lowerInvocation_foreign {invocation : Invocation} {expected : Option Ty} (target : Lowered)
    (htyped : Typed s e (Ty.foreign name args)) (hP : e.Everywhere P) (hlowers : s.LowersAll P returnType types args)
    (hadmits : ∀ e ∈ args, s.Admits (types e)) (htarget : ∀ i ∈ target.computation, s.Makes P returnType i)
    (hcall : ∀ codes, s.Sends P codes →
      s.Calls P invocation target.code name codes (SymbolTable.askedType expected)) :
    Succeeds (s.table.lowerInvocation s.method invocation target name (SymbolTable.askedType expected) [] args)
      (s.Values P returnType expected e (Ty.foreign name args)) := by
  refine Context.succeeds_lowerInvocation_values target (Context.succeeds_lowerArguments_sends hlowers hadmits) htarget hcall
    (fun hvoid => ⟨htyped, hP, ?_⟩) fun hvalue temp => ⟨htyped, hP, .foreign temp (Context.foreign_cases name args) ?_⟩
  · rw [Context.askedType_eq_void hvoid]
    exact .discarded (Context.foreign_cases name args)
  · rintro rfl
    exact hvalue rfl

/-- A call of an object of another class, or of one whose class is not known. -/
theorem lowers_foreignCall (hreceiver : Typed s receiver type)
    (hother : (s.table.method? name).isSome → type ≠ s.table.classType)
    (hlength : name = "length" → args = [] → type.isArray = false) (himports : s.table.imports ≠ [])
    (hargs : ∀ e ∈ args, Typed s e (types e)) (hadmits : ∀ e ∈ args, s.Admits (types e))
    (hP : Node.Everywhere P ⟨.call, ⟨[("name", .text name)]⟩, receiver :: args, p⟩)
    (htarget : s.Lowers P returnType receiver type) (hlowers : s.LowersAll P returnType types args) :
    s.Lowers P returnType ⟨.call, ⟨[("name", .text name)]⟩, receiver :: args, p⟩ (Ty.foreign name args) := by
  intro expected
  have htyped := Typed.foreignCall hreceiver hother hlength himports hargs hadmits p
  obtain ⟨isClass, hclass, htarget⟩ := hreceiver.succeeds_callTarget_values (htarget none) false name
    (Q := fun invocation target => ∀ codes, s.Sends P codes →
      s.Calls P invocation target name codes (SymbolTable.askedType expected))
    (by simp) (fun imported himport _ codes hcodes => .imported hP.here himport hcodes)
    (fun code hcode codes hcodes => .foreign hP.here hcode hother hlength hcodes)
  rw [SymbolTable.lower_call _ _ _ _ (isOwnCall_of_other hreceiver hother) hreceiver.typeOf hclass,
    if_neg (by simpa using hlength)]
  exact htarget.bind fun r hr => .known rfl
    (succeeds_lowerInvocation_foreign r.2 htyped hP hlowers hadmits hr.1 hr.2)

/-- A static call of an imported class. -/
theorem lowers_importCall {imported : String} {q : Position} (hreceiver : s.IsImportName imported)
    (hother : (s.table.method? name).isSome → s.table.classType ≠ .any)
    (hargs : ∀ e ∈ args, Typed s e (types e)) (hadmits : ∀ e ∈ args, s.Admits (types e))
    (hP : Node.Everywhere P ⟨.call, ⟨[("name", .text name)]⟩, ⟨.varRef, ⟨[("name", .text imported)]⟩, [], q⟩ :: args, p⟩)
    (hlowers : s.LowersAll P returnType types args) :
    s.Lowers P returnType ⟨.call, ⟨[("name", .text name)]⟩, ⟨.varRef, ⟨[("name", .text imported)]⟩, [], q⟩ :: args, p⟩
      (Ty.foreign name args) := by
  intro expected
  rw [SymbolTable.lower_call _ _ _ _ (hreceiver.isOwnCall hother) hreceiver.typeOf hreceiver.isClassReceiver,
    if_neg (by simp [Ty.any])]
  exact .known rfl (.known rfl (succeeds_lowerInvocation_foreign ⟨.classRef imported ⟨imported, false⟩, []⟩
    (.importCall hreceiver hother hargs hadmits p q) hP hlowers hadmits (by simp)
    fun codes hcodes => .imported hP.here hreceiver hcodes))

end

/-- Every typed expression is lowered to its value. -/
theorem succeeds_values (hs : s.Proper) (h : Typed s e type) (hP : e.Everywhere P) (hnormal : e.Everywhere s.IsNormal)
    (expected : Option Ty) : Succeeds (s.table.lower s.method expected e) (s.Values P returnType expected e type) := by
  induction h generalizing expected with
  | intLiteral i p => exact .pure ⟨⟨.intLiteral i p, hP, .int i⟩, by simp⟩
  | boolLiteral b p => exact .pure ⟨⟨.boolLiteral b p, hP, .boolean b⟩, by simp⟩
  | varRef h p => exact Context.succeeds_lowerVariable_values hs h hP
  | thisRef h p =>
    have hknown (hstrict : s.strict = true) : s.table.classType ≠ .any := fun heq =>
      (hs.declared hstrict).known.1 (congrArg Ty.name heq)
    exact .pure ⟨⟨.thisRef h p, hP, .var _ hknown⟩, by simp⟩
  | paren hinner p ih =>
    exact (ih (hP.child (by simp) hinner.kind_ne) (hnormal.child (by simp) hinner.kind_ne) expected).imp
      fun l hl => ⟨hl.1.paren hP, hl.2⟩
  | newObject name hknown p =>
    rw [SymbolTable.lower_newObject]
    have hne (hstrict : s.strict = true) : (⟨name, false⟩ : Ty) ≠ .any := fun heq =>
      (hknown hstrict).1.1 (congrArg Ty.name heq)
    refine succeeds_temp.bind fun temp _ => .pure ⟨⟨.newObject name hknown p, hP, .var _ hne⟩, fun i hi => ?_⟩
    simp only [List.mem_cons, List.not_mem_nil, or_false] at hi
    rcases hi with rfl | rfl
    · exact .temp temp (.newObject hP.here)
    · exact .init temp name
  | newArray name hsize hint hknown p ih =>
    rw [SymbolTable.lower_newArray]
    refine (ih (hP.child (by simp) hsize.kind_ne) (hnormal.child (by simp) hsize.kind_ne) _).bind fun size hvalue => ?_
    exact Context.succeeds_intoTemp_values hvalue.2 (.newArray name hvalue.1 hint)
      fun temp => ⟨.newArray name hsize hint hknown p, hP, .var _ fun _ => by simp [Ty.any]⟩
  | emptyLiteral p =>
    exact Context.succeeds_arrayLiteral_values (fun _ => .any) (.emptyLiteral p) hP (by simp [Context.LowersAll]) (by simp)
      (by simp) rfl expected
  | @arrayLiteral first rest types helements hfit hadmits p ih =>
    have hargs : s.LowersAll P returnType types (first :: rest) := fun e he expected =>
      ih e he (hP.child he (helements e he).kind_ne) (hnormal.child he (helements e he).kind_ne) expected
    exact Context.succeeds_arrayLiteral_values types (.arrayLiteral helements hfit hadmits p) hP hargs hfit hadmits rfl expected
  | @gatheredLiteral name elements types helements hfit hadmits hknown p ih =>
    have hargs : s.LowersAll P returnType types elements := fun e he expected =>
      ih e he (hP.child he (helements e he).kind_ne) (hnormal.child he (helements e he).kind_ne) expected
    exact Context.succeeds_arrayLiteral_values types (.gatheredLiteral name helements hfit hadmits hknown p) hP hargs hfit
      hadmits rfl expected
  | arrayAccess harray hindex htype hint hknown p ih ihindex =>
    exact lowers_arrayAccess harray hindex htype hint hknown hP
      (ih (hP.child (by simp) harray.kind_ne) (hnormal.child (by simp) harray.kind_ne))
      (ihindex (hP.child (by simp) hindex.kind_ne) (hnormal.child (by simp) hindex.kind_ne)) expected
  | length harray htype p ih =>
    rw [SymbolTable.lower_length]
    refine (ih (hP.child (by simp) harray.kind_ne) (hnormal.child (by simp) harray.kind_ne) _).bind fun array hvalue => ?_
    exact Context.succeeds_intoTemp_values hvalue.2 (.length hvalue.1 htype) fun temp =>
      ⟨.length harray htype p, hP, .var _ fun _ => by decide⟩
  | unary hoperand hboolean p ih =>
    rw [SymbolTable.lower_unary]
    refine (ih (hP.child (by simp) hoperand.kind_ne) (hnormal.child (by simp) hoperand.kind_ne) _).bind fun operand hvalue => ?_
    exact Context.succeeds_intoTemp_values hvalue.2 (.unary hvalue.1 hboolean)
      fun temp => ⟨.unary hoperand hboolean p, hP, .var _ fun _ => by decide⟩
  | binary hop hleft hright halike hwanted hadmits p ihl ihr =>
    exact lowers_binary hop hleft hright halike hwanted hadmits hP
      (ihl (hP.child (by simp) hleft.kind_ne) (hnormal.child (by simp) hleft.kind_ne))
      (ihr (hP.child (by simp) hright.kind_ne) (hnormal.child (by simp) hright.kind_ne)) expected
  | @ownCall name m receiver args types hm hreceiver hargs haccepts p ihr iha =>
    have hlowers : s.LowersAll P returnType types args := fun e he => iha e he
      (hP.child (List.mem_cons_of_mem _ he) (hargs e he).kind_ne)
      (hnormal.child (List.mem_cons_of_mem _ he) (hargs e he).kind_ne)
    exact lowers_ownCall hs hm hreceiver hargs haccepts hP hnormal
      (ihr (hP.child (by simp) hreceiver.kind_ne) (hnormal.child (by simp) hreceiver.kind_ne)) hlowers expected
  | @lengthCall receiver type hreceiver hother harray p ih =>
    have htyped := Typed.lengthCall hreceiver hother harray p
    obtain ⟨isClass, hclass, -⟩ := hreceiver.exists_isClassReceiver
    rw [SymbolTable.lower_call _ _ _ _ (isOwnCall_of_other hreceiver hother) hreceiver.typeOf hclass, if_pos (by simp [harray])]
    refine (ih (hP.child (by simp) hreceiver.kind_ne) (hnormal.child (by simp) hreceiver.kind_ne) _).bind fun array hvalue => ?_
    exact Context.succeeds_intoTemp_values hvalue.2 (.length hvalue.1 (.inr harray)) fun temp =>
      ⟨htyped, hP, .var _ fun _ => by decide⟩
  | @foreignCall name receiver receiverType args types hreceiver hother hlength himports hargs hadmits p ihr iha =>
    have hlowers : s.LowersAll P returnType types args := fun e he => iha e he
      (hP.child (List.mem_cons_of_mem _ he) (hargs e he).kind_ne)
      (hnormal.child (List.mem_cons_of_mem _ he) (hargs e he).kind_ne)
    exact lowers_foreignCall hreceiver hother hlength himports hargs hadmits hP
      (ihr (hP.child (by simp) hreceiver.kind_ne) (hnormal.child (by simp) hreceiver.kind_ne)) hlowers expected
  | @importCall name imported args types hreceiver hother hargs hadmits p q iha =>
    have hlowers : s.LowersAll P returnType types args := fun e he => iha e he
      (hP.child (List.mem_cons_of_mem _ he) (hargs e he).kind_ne)
      (hnormal.child (List.mem_cons_of_mem _ he) (hargs e he).kind_ne)
    exact lowers_importCall hreceiver hother hargs hadmits hP hlowers expected

end Typed
end JmmCompiler

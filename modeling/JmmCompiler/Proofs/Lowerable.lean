import JmmCompiler.Lowering.Statement
import JmmCompiler.Proofs.Freshness
import JmmCompiler.Proofs.LoweringForms
import JmmCompiler.Proofs.Typed
/-! Lowering gives code for every typed expression, whatever its surroundings want and whatever names have
been given out. -/
namespace JmmCompiler

namespace Lower
variable {α β : Type} {x : Lower α} {f : α → Lower β} {P : α → Prop} {Q : β → Prop}

/-- A lowering that succeeds from all names, with a result of a kind. -/
def Succeeds (x : Lower α) (P : α → Prop) : Prop := ∀ ns, ∃ a ns', x.run ns = .ok (a, ns') ∧ P a

theorem Succeeds.pure {a : α} (h : P a) : Succeeds (Pure.pure a) P := fun ns => ⟨a, ns, rfl, h⟩

theorem Succeeds.bind (hx : Succeeds x P) (hf : ∀ a, P a → Succeeds (f a) Q) : Succeeds (x >>= f) Q := by
  intro ns
  obtain ⟨a, ns₁, hrun, ha⟩ := hx ns
  obtain ⟨b, ns₂, hrest, hb⟩ := hf a ha ns₁
  exact ⟨b, ns₂, lower_bind_eq_ok.2 ⟨a, ns₁, hrun, hrest⟩, hb⟩

/-- A known result goes on with its value. -/
theorem Succeeds.known {y : Except Failure α} {a : α} (hy : y = .ok a) (hf : Succeeds (f a) Q) :
    Succeeds (liftM y >>= f) Q := by
  subst hy
  exact hf

theorem Succeeds.imp {P' : α → Prop} (hx : Succeeds x P) (hP : ∀ a, P a → P' a) : Succeeds x P' := by
  intro ns
  obtain ⟨a, ns', hrun, ha⟩ := hx ns
  exact ⟨a, ns', hrun, hP a ha⟩

theorem succeeds_temp : Succeeds temp fun _ => True := fun _ => ⟨_, _, rfl, trivial⟩

theorem succeeds_label : Succeeds label fun _ => True := fun _ => ⟨_, _, rfl, trivial⟩

end Lower

namespace Context
variable {s : Context} {e receiver : Node} {type : Ty} {name : String}
open Lower

/-- The value of a lowered expression has a name where an array of an unknown type is wanted. -/
def Named (type : Ty) (expected : Option Ty) (v : Lowered) : Prop :=
  type = .any ∨ type.isArray = true → expected ≠ some .void → ∃ name, v.code.name = .ok name

theorem succeeds_intoTemp (before : List Instruction) (type : Ty) (value : Instruction) :
    Succeeds (SymbolTable.intoTemp before type value) fun v => ∃ name, v.code.name = .ok name :=
  succeeds_temp.bind fun name _ => .pure ⟨name, rfl⟩

end Context

theorem Element.exists_type_of_name {e : Element} {name : String} (h : e.name = .ok name) :
    ∃ type, e.type = .ok type := by
  cases e with
  | absent => cases h
  | _ => exact ⟨_, rfl⟩

namespace SymbolTable
variable {s : Context} {type : Ty} {name : String}
open Lower

/-- A variable is lowered to something that has a name. -/
theorem succeeds_lowerVariable (h : s.Names name) :
    Succeeds (s.table.lowerVariable s.method name) fun v => ∃ name, v.code.name = .ok name := by
  unfold lowerVariable
  cases hbinding : s.table.binding? s.method name with
  | some b => exact .pure ⟨name, rfl⟩
  | none =>
    cases hfield : s.table.field? name with
    | some f => exact Context.succeeds_intoTemp _ _ _
    | none =>
      have himported : s.table.isImported name = true := by
        rcases h with (h | ⟨h, -⟩) | ⟨-, -, -, h⟩
        · simp [hbinding] at h
        · simp [hfield] at h
        · exact h
      simp only [himported, if_true]
      exact .pure ⟨name, rfl⟩

section
variable {method : String} {t : SymbolTable} {elements args : List Node}

theorem exists_operandHint (op : String) {other : Node} {type : Ty}
    (h : t.typeOf method other = .ok type) : ∃ hint, t.operandHint method op other = .ok hint := by
  unfold operandHint
  split
  · exact ⟨_, rfl⟩
  · exact ⟨_, by rw [h]; rfl⟩

/-- The value of `x = x op literal`. -/
theorem selfUpdate?_binary (name : String) (target : Ty) {op : String} {o : Operator}
    (hop : Operator.ofSymbol? op = some o) (left right : Node) (p : Position) :
    selfUpdate? name target ⟨.binary, ⟨[("op", .text op)]⟩, [left, right], p⟩ =
      match o with
      | .comparison _ => .ok none
      | _ => if left.kind ≠ .varRef then .ok none else do
        if (← left.name) ≠ name then return none
        return (← literalElement? right).map fun literal => .binary op (.var name target) literal target := by
  have hnode : Node.op ⟨.binary, ⟨[("op", .text op)]⟩, [left, right], p⟩ = .ok op := rfl
  simp only [selfUpdate?, ne_eq, not_true, if_false, hnode, ok_bind, hop]
  cases o with
  | comparison c => rfl
  | arithmetic a => rfl
  | logical l => rfl

/-- What an update adds reads nothing. -/
theorem names_of_literalElement {n : Node} {e : Element} (h : literalElement? n = .ok (some e)) : e.names = .ok [] := by
  unfold literalElement? at h
  split at h
  · simp only [bind_eq_ok] at h
    obtain ⟨value, -, h⟩ := h
    split at h
    · obtain rfl := Option.some.inj (Except.ok.inj h)
      rfl
    · cases h
  · simp only [bind_eq_ok, pure_eq_ok] at h
    obtain ⟨value, -, h⟩ := h
    obtain rfl := Option.some.inj h
    rfl
  · cases h

/-- An update changes a variable by a literal, the right operand of its value. -/
theorem exists_literal_of_selfUpdate {name : String} {target : Ty} {e : Node} {update : Instruction}
    (h : selfUpdate? name target e = .ok (some update)) :
    ∃ op literal, ∃ right ∈ e.children, literalElement? right = .ok (some literal) ∧
      update = .binary op (.var name target) literal target := by
  unfold selfUpdate? at h
  split at h
  · cases h
  rw [bind_eq_ok] at h
  obtain ⟨op, -, h⟩ := h
  have hliteral {left right : Node} (h : (do
      if left.kind ≠ .varRef then return none
      if (← left.name) ≠ name then return none
      return (← literalElement? right).map fun literal => .binary op (.var name target) literal target :
        Except Failure (Option Instruction)) = .ok (some update)) :
      ∃ literal, literalElement? right = .ok (some literal) ∧ update = .binary op (.var name target) literal target := by
    split at h
    · cases h
    rw [bind_eq_ok] at h
    obtain ⟨variableName, -, h⟩ := h
    split at h
    · cases h
    simp only [bind_eq_ok, pure_eq_ok, Option.map_eq_some_iff] at h
    obtain ⟨found, hfound, literal, rfl, rfl⟩ := h
    exact ⟨literal, hfound, rfl⟩
  split at h
  · cases h
  · cases h
  · split at h
    · rename_i left right hchildren
      obtain ⟨literal, hfound, heq⟩ := hliteral h
      exact ⟨op, literal, right, by simp [hchildren], hfound, heq⟩
    · cases h

/-- An update reads the variable that it writes, and nothing else. -/
theorem eq_of_selfUpdate {name : String} {target : Ty} {e : Node} {update : Instruction}
    (h : selfUpdate? name target e = .ok (some update)) :
    ∃ op literal, update = .binary op (.var name target) literal target ∧ literal.names = .ok [] := by
  obtain ⟨op, literal, right, -, hfound, rfl⟩ := exists_literal_of_selfUpdate h
  exact ⟨op, literal, rfl, names_of_literalElement hfound⟩

/-- Expressions that are lowered whatever is wanted of them. -/
def Lowers (t : SymbolTable) (method : String) (es : List Node) : Prop :=
  ∀ e ∈ es, ∀ expected, Succeeds (t.lower method expected e) fun _ => True

theorem succeeds_lowerElements (h : Lowers t method elements) (array : String) (element : Ty) (index : Nat) :
    Succeeds (t.lowerElements method array element index elements) fun _ => True := by
  induction elements generalizing index with
  | nil => exact .pure trivial
  | cons e es ih =>
    obtain ⟨he, hes⟩ := List.forall_mem_cons.1 h
    rw [lowerElements]
    exact (he _).bind fun value _ => (ih hes _).bind fun rest _ => .pure trivial

theorem succeeds_lowerArguments (h : Lowers t method args) (params : List Ty) :
    Succeeds (t.lowerArguments method params args) fun _ => True := by
  induction args generalizing params with
  | nil => exact .pure trivial
  | cons e es ih =>
    obtain ⟨he, hes⟩ := List.forall_mem_cons.1 h
    rw [lowerArguments]
    exact (he _).bind fun value _ => (ih hes _).bind fun rest _ => .pure trivial

theorem succeeds_arrayLiteral (h : Lowers t method elements) {attributes : Assoc Attribute} {p : Position}
    {type : Ty} (htype : t.typeOf method ⟨.arrayLiteral, attributes, elements, p⟩ = .ok type)
    (expected : Option Ty) :
    Succeeds (t.lower method expected ⟨.arrayLiteral, attributes, elements, p⟩)
      fun v => ∃ name, v.code.name = .ok name := by
  rw [lower_arrayLiteral _ _ _ _ _ _ htype]
  refine (Context.succeeds_intoTemp _ _ _).bind fun array ⟨name, hname⟩ => .known hname ?_
  exact (succeeds_lowerElements h name _ 0).bind fun stores _ => .pure ⟨name, hname⟩

/-- An invocation has a value with a name, unless it is void. -/
theorem succeeds_lowerInvocation (h : Lowers t method args) (invocation : Invocation) (target : Lowered)
    (name : String) (type : Ty) (params : List Ty) :
    Succeeds (t.lowerInvocation method invocation target name type params args)
      fun v => type ≠ .void → ∃ name, v.code.name = .ok name := by
  refine (succeeds_lowerArguments h params).bind fun (before, codes) _ => ?_
  by_cases hvoid : type = .void
  · simp only [hvoid, if_true]
    exact .pure fun hne => absurd rfl hne
  · simp only [hvoid, if_false]
    exact (Context.succeeds_intoTemp _ _ _).imp fun v hv _ => hv

end

end SymbolTable

namespace SymbolTable
open Lower

/-- The type that is wanted of a call whose type is not known. -/
theorem wanted_ne_void {expected : Option Ty} (h : expected ≠ some .void) :
    (expected.filter (· ≠ .any)).getD .int ≠ .void := by
  cases expected with
  | none => simp [Ty.int, Ty.void]
  | some type =>
    by_cases hany : type = .any
    · subst hany
      decide
    · simpa [Option.filter, hany] using h

/-- A call whose parts are known. -/
theorem succeeds_call {t : SymbolTable} {method name : String} {expected : Option Ty} {own isClass : Bool}
    {receiver : Node} {args : List Node} {receiverType type : Ty} {params : List Ty}
    (hown : t.isOwnCall method name receiver = .ok own)
    (htype : t.typeOf method receiver = .ok receiverType)
    (hclass : t.isClassReceiver method receiver = .ok isClass)
    (hlength : ¬(own = false ∧ name = "length" ∧ args = [] ∧ receiverType.isArray = true))
    (htarget : Succeeds (t.callTarget method own isClass name receiver) fun _ => True)
    (hsignature : t.callSignature expected own name = .ok (type, params)) (hargs : Lowers t method args)
    (p : Position) :
    Succeeds (t.lower method expected ⟨.call, ⟨[("name", .text name)]⟩, receiver :: args, p⟩)
      fun v => type ≠ .void → ∃ name, v.code.name = .ok name := by
  rw [lower_call _ _ _ _ hown htype hclass, if_neg hlength]
  exact htarget.bind fun (invocation, target) _ =>
    .known hsignature (succeeds_lowerInvocation hargs invocation target name type params)

end SymbolTable

namespace Context.IsImportName
variable {s : Context} {name imported : String} {p : Position}

theorem typeOf (h : s.IsImportName imported) :
    s.table.typeOf (some s.method) ⟨.varRef, ⟨[("name", .text imported)]⟩, [], p⟩ = .ok .any :=
  congrArg Except.ok h.variableType

theorem isOwnCall (h : s.IsImportName imported)
    (hother : (s.table.method? name).isSome → s.table.classType ≠ .any) :
    s.table.isOwnCall (some s.method) name ⟨.varRef, ⟨[("name", .text imported)]⟩, [], p⟩ = .ok false :=
  s.table.isOwnCall_of_ne _ h.typeOf fun hm => (hother hm).symm

theorem isClassReceiver (h : s.IsImportName imported) :
    s.table.isClassReceiver s.method ⟨.varRef, ⟨[("name", .text imported)]⟩, [], p⟩ = .ok true := by
  have hname : Node.name ⟨.varRef, ⟨[("name", .text imported)]⟩, [], p⟩ = .ok imported := rfl
  rw [s.table.isClassReceiver_of_name s.method rfl hname]
  simp [h.1, h.2.1, h.2.2]

end Context.IsImportName

namespace Typed
variable {s : Context} {e receiver : Node} {type : Ty} {args : List Node}
open Lower

/-- A receiver is a target of calls. -/
theorem succeeds_callTarget (h : Typed s receiver type)
    (hlower : Succeeds (s.table.lower s.method none receiver) (Context.Named type none))
    (own : Bool) (name : String) :
    ∃ isClass, s.table.isClassReceiver s.method receiver = .ok isClass ∧
      Succeeds (s.table.callTarget s.method own isClass name receiver) fun _ => True := by
  have htarget (isClass : Bool) (hname : isClass = true → ∃ imported, receiver.name = .ok imported) :
      Succeeds (s.table.callTarget s.method own isClass name receiver) fun _ => True := by
    unfold SymbolTable.callTarget
    split
    · exact .pure trivial
    split
    · rename_i hclass
      obtain ⟨imported, himported⟩ := hname hclass
      exact .known himported (.pure trivial)
    · exact hlower.bind fun _ _ => .pure trivial
  by_cases hkind : receiver.kind = .varRef
  · obtain ⟨imported, hname, -⟩ := h.names hkind
    exact ⟨_, s.table.isClassReceiver_of_name s.method hkind hname, htarget _ fun _ => ⟨_, hname⟩⟩
  · exact ⟨false, s.table.isClassReceiver_of_kind s.method hkind, htarget false (by simp)⟩

theorem isOwnCall_of_other (h : Typed s receiver type) {name : String}
    (hother : (s.table.method? name).isSome → type ≠ s.table.classType) :
    s.table.isOwnCall (some s.method) name receiver = .ok false := s.table.isOwnCall_of_ne _ h.typeOf hother

/-- A typed expression is lowered. -/
theorem succeeds_lower (h : Typed s e type) (expected : Option Ty) :
    Succeeds (s.table.lower s.method expected e) (Context.Named type expected) := by
  induction h generalizing expected with
  | intLiteral i p => exact .pure (by simp [Context.Named, Ty.int, Ty.any])
  | boolLiteral b p => exact .pure (by simp [Context.Named, Ty.boolean, Ty.any])
  | varRef h p => exact (SymbolTable.succeeds_lowerVariable h).imp fun v hv _ _ => hv
  | thisRef h p => exact .pure fun _ _ => ⟨_, rfl⟩
  | paren hinner p ih => exact ih expected
  | newObject name hknown p =>
    rw [SymbolTable.lower_newObject]
    exact succeeds_temp.bind fun temp _ => .pure fun _ _ => ⟨temp, rfl⟩
  | newArray name hsize hint hknown p ih =>
    rw [SymbolTable.lower_newArray]
    exact (ih _).bind fun size _ => (Context.succeeds_intoTemp _ _ _).imp fun v hv _ _ => hv
  | emptyLiteral p =>
    exact (SymbolTable.succeeds_arrayLiteral (by simp [SymbolTable.Lowers])
      (s.table.typeOf_emptyLiteral _ p) expected).imp fun v hv _ _ => hv
  | @arrayLiteral first rest types helements hfit hadmits p ih =>
    have hlowers : SymbolTable.Lowers s.table s.method (first :: rest) :=
      fun e he expected => (ih e he expected).imp fun _ _ => trivial
    exact (SymbolTable.succeeds_arrayLiteral hlowers
      (s.table.typeOf_arrayLiteral _ (helements first (by simp)).typeOf) expected).imp fun v hv _ _ => hv
  | gatheredLiteral name helements hfit hadmits hknown p ih =>
    have hlowers : SymbolTable.Lowers s.table s.method _ :=
      fun e he expected => (ih e he expected).imp fun _ _ => trivial
    exact (SymbolTable.succeeds_arrayLiteral hlowers
      (s.table.typeOf_gatheredLiteral _ name _ p) expected).imp fun v hv _ _ => hv
  | arrayAccess harray hindex htype hint hknown p ih ihindex =>
    rw [SymbolTable.lower_arrayAccess]
    refine (ih _).bind fun array harray => (ihindex _).bind fun index _ => ?_
    obtain ⟨name, hname⟩ := harray htype (by simp [Ty.arrayOf, Ty.void])
    obtain ⟨type, htype⟩ := Element.exists_type_of_name hname
    refine .known htype (.known hname ?_)
    exact (Context.succeeds_intoTemp _ _ _).imp fun v hv _ _ => hv
  | length harray htype p ih => 
    rw [SymbolTable.lower_length]
    exact (ih _).bind fun size _ => (Context.succeeds_intoTemp _ _ _).imp fun v hv _ _ => hv
  | unary hoperand hboolean p ih =>
    rw [SymbolTable.lower_unary]
    exact (ih _).bind fun size _ => (Context.succeeds_intoTemp _ _ _).imp fun v hv _ _ => hv
  | @binary op o left right leftType rightType hop hleft hright halike hwanted hadmits p ihl ihr =>
    by_cases hand : op = "&&"
    · subst hand
      rw [SymbolTable.lower_and]
      exact succeeds_label.bind fun label _ => (ihl _).bind fun left _ => (ihr _).bind fun right _ =>
        succeeds_temp.bind fun temp _ => .pure fun _ _ => ⟨temp, rfl⟩
    · rw [SymbolTable.lower_binary _ _ _ _ hop hand]
      obtain ⟨leftHint, hleftHint⟩ := SymbolTable.exists_operandHint op hright.typeOf
      obtain ⟨rightHint, hrightHint⟩ := SymbolTable.exists_operandHint op hleft.typeOf
      exact .known hleftHint ((ihl _).bind fun left _ => .known hrightHint ((ihr _).bind fun right _ =>
        (Context.succeeds_intoTemp _ _ _).imp fun v hv _ _ => hv))
  | @ownCall name m receiver args types hm hreceiver hargs haccepts p ihr iha =>
    obtain ⟨isClass, hclass, htarget⟩ := hreceiver.succeeds_callTarget (ihr none) true name
    have hown : s.table.isOwnCall (some s.method) name receiver = .ok true :=
      s.table.isOwnCall_of_method _ hm hreceiver.typeOf
    have hsignature : s.table.callSignature expected true name =
        .ok (m.returnType, m.params.map (·.type)) := s.table.callSignature_of_method expected hm
    have hlowers : SymbolTable.Lowers s.table s.method args :=
      fun e he expected => (iha e he expected).imp fun _ _ => trivial
    refine (SymbolTable.succeeds_call hown hreceiver.typeOf hclass (by simp) htarget hsignature hlowers p).imp
      fun v hv htype _ => hv ?_
    rintro hvoid
    simp [hvoid, Ty.void, Ty.any] at htype
  | @lengthCall receiver type hreceiver hother harray p ih =>
    obtain ⟨isClass, hclass, -⟩ := hreceiver.succeeds_callTarget (ih none) true "length"
    rw [SymbolTable.lower_call _ _ _ _ (isOwnCall_of_other hreceiver hother) hreceiver.typeOf hclass, if_pos (by simp [harray])]
    exact (ih _).bind fun size _ => (Context.succeeds_intoTemp _ _ _).imp fun v hv _ _ => hv
  | @foreignCall name receiver type args types hreceiver hother hlength himports hargs hadmits p ihr iha =>
    obtain ⟨isClass, hclass, htarget⟩ := hreceiver.succeeds_callTarget (ihr none) false name
    have hlowers : SymbolTable.Lowers s.table s.method args :=
      fun e he expected => (iha e he expected).imp fun _ _ => trivial
    have hforeign : ¬(false = false ∧ name = "length" ∧ args = [] ∧ type.isArray = true) := by
      simpa using hlength
    exact (SymbolTable.succeeds_call (isOwnCall_of_other hreceiver hother) hreceiver.typeOf hclass hforeign
      htarget rfl hlowers p).imp fun v hv _ hexpected => hv (SymbolTable.wanted_ne_void hexpected)
  | @importCall name imported args types hreceiver hother hargs hadmits p q iha =>
    have hlowers : SymbolTable.Lowers s.table s.method args :=
      fun e he expected => (iha e he expected).imp fun _ _ => trivial
    exact (SymbolTable.succeeds_call (hreceiver.isOwnCall hother) hreceiver.typeOf hreceiver.isClassReceiver
      (by simp [Ty.any]) (.pure trivial) rfl hlowers p).imp
        fun v hv _ hexpected => hv (SymbolTable.wanted_ne_void hexpected)

/-- It is known which literal an expression is, if it is one. -/
theorem exists_literalElement (h : Typed s e type) :
    ∃ literal, SymbolTable.literalElement? e = .ok literal := by
  unfold SymbolTable.literalElement?
  cases h with
  | intLiteral i p => exact ⟨_, rfl⟩
  | boolLiteral b p => exact ⟨_, rfl⟩
  | _ => exact ⟨none, rfl⟩

/-- It is known whether an assigned value updates the variable. -/
theorem exists_selfUpdate (h : Typed s e type) (name : String) (target : Ty) :
    ∃ update, SymbolTable.selfUpdate? name target e = .ok update := by
  by_cases hkind : e.kind = .binary
  · cases h with
    | @binary op o left right leftType rightType hop hleft hright halike hwanted hadmits p =>
      obtain ⟨literal, hliteral⟩ := hright.exists_literalElement
      rw [SymbolTable.selfUpdate?_binary name target hop]
      cases o with
      | comparison c => exact ⟨none, rfl⟩
      | _ =>
        by_cases hvariable : left.kind = .varRef
        · obtain ⟨variableName, hname, -⟩ := hleft.names hvariable
          simp only [hvariable, ne_eq, not_true, if_false, hname, hliteral, ok_bind]
          split
          · exact ⟨_, rfl⟩
          · exact ⟨_, rfl⟩
        · exact ⟨none, by simp [hvariable]⟩
    | _ => cases hkind
  · exact ⟨none, by simp [SymbolTable.selfUpdate?, hkind, pure, Except.pure]⟩

end Typed
end JmmCompiler

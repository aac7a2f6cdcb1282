import JmmCompiler.Lowering.Statement
import JmmCompiler.Proofs.TypingForms
/-! What each form of expression is lowered to, and each form of condition. A call goes to a target, has a signature and
is an invocation; how these are found depends on what its receiver is. -/
namespace JmmCompiler
namespace SymbolTable
variable (t : SymbolTable) (method : String) (expected : Option Ty) (p : Position)

theorem lower_intLiteral (i : Int) :
    t.lower method expected ⟨.intLiteral, ⟨[("value", .int i)]⟩, [], p⟩ = pure ⟨.literal i .int, []⟩ := rfl

theorem lower_boolLiteral (b : Bool) :
    t.lower method expected ⟨.boolLiteral, ⟨[("value", .bool b)]⟩, [], p⟩ =
      pure ⟨.literal (if b then 1 else 0) .boolean, []⟩ := rfl

theorem lower_varRef (name : String) :
    t.lower method expected ⟨.varRef, ⟨[("name", .text name)]⟩, [], p⟩ = t.lowerVariable method name := rfl

theorem lower_thisRef : t.lower method expected ⟨.thisRef, {}, [], p⟩ = pure ⟨t.thisElement, []⟩ := rfl

theorem lower_paren (inner : Node) :
    t.lower method expected ⟨.paren, {}, [inner], p⟩ = t.lower method expected inner := rfl

theorem lower_newObject (name : String) :
    t.lower method expected ⟨.newObject, ⟨[("name", .text name)]⟩, [], p⟩ = (do
      let temp := Element.var (← Lower.temp) ⟨name, false⟩
      return ⟨temp, [.assign temp (.call .new (.classRef name ⟨name, false⟩) none [] ⟨name, false⟩),
        .call .special temp (some "<init>") [] .void]⟩) := rfl

theorem lower_newArray (name : String) (size : Node) :
    t.lower method expected ⟨.newArray, ⟨[("name", .text name)]⟩, [size], p⟩ = (do
      lowerNewArray name (← t.lower method (some .int) size)) := rfl

theorem lower_arrayAccess (array index : Node) :
    t.lower method expected ⟨.arrayAccess, {}, [array, index], p⟩ = (do
      let array ← t.lower method (some (elementWanted expected).arrayOf) array
      let index ← t.lower method (some .int) index
      let element := (← array.code.type).base
      let name ← array.code.name
      intoTemp (array.computation ++ index.computation) element (.single (.item name element index.code))) := rfl

theorem lower_length (array : Node) :
    t.lower method expected ⟨.length, {}, [array], p⟩ = (do lengthOf (← t.lower method (some .intArray) array)) :=
  rfl

theorem lower_unary (operand : Node) :
    t.lower method expected ⟨.unary, ⟨[("op", .text "!")]⟩, [operand], p⟩ = (do
      let operand ← t.lower method (some .boolean) operand
      intoTemp operand.computation .boolean (.unary "!" operand.code .boolean)) := rfl

theorem lower_and (left right : Node) :
    t.lower method expected ⟨.binary, ⟨[("op", .text "&&")]⟩, [left, right], p⟩ = (do
      let label ← Lower.label
      let left ← t.lower method (some .boolean) left
      let right ← t.lower method (some .boolean) right
      let temp := Element.var (← Lower.temp) .boolean
      let otherwise := "and_false_" ++ toString label
      let done := "and_end_" ++ toString label
      return ⟨temp, left.computation ++
        [.branch (.unary "!" left.code .boolean) otherwise] ++ right.computation ++
        [.assign temp (.single right.code), .goto done, .label otherwise,
         .assign temp (.single (.literal 0 .boolean)), .label done]⟩) := rfl

theorem lower_binary {op : String} {o : Operator} (hop : Operator.ofSymbol? op = some o) (hand : op ≠ "&&")
    (left right : Node) :
    t.lower method expected ⟨.binary, ⟨[("op", .text op)]⟩, [left, right], p⟩ = (do
      let leftHint ← t.operandHint method op right
      let leftValue ← t.lower method (some leftHint) left
      let rightHint ← t.operandHint method op left
      let rightValue ← t.lower method (some rightHint) right
      intoTemp (leftValue.computation ++ rightValue.computation) o.resultType
        (.binary op leftValue.code rightValue.code o.resultType)) := by
  refine (if_neg hand).trans ?_
  simp only [Json.spelling, hop]
  rfl

theorem lower_arrayLiteral (attributes : Assoc Attribute) (elements : List Node) {type : Ty}
    (htype : t.typeOf method ⟨.arrayLiteral, attributes, elements, p⟩ = .ok type) :
    t.lower method expected ⟨.arrayLiteral, attributes, elements, p⟩ = (do
      let array ← lowerNewArray type.name ⟨.literal elements.length .int, []⟩
      let name ← array.code.name
      let stores ← t.lowerElements method name type.base 0 elements
      return ⟨array.code, array.computation ++ stores⟩) := by
  change (do
      let element := (← t.typeOf method ⟨.arrayLiteral, attributes, elements, p⟩).base
      let array ← lowerNewArray element.name ⟨.literal elements.length .int, []⟩
      let name ← array.code.name
      let stores ← t.lowerElements method name element 0 elements
      return ⟨array.code, array.computation ++ stores⟩ : Lower Lowered) = _
  rw [htype]
  rfl

/-- The class or the object that a call goes to, with the way in which it is called. -/
def callTarget (own isClass : Bool) (name : String) (receiver : Node) : Lower (Invocation × Lowered) :=
  if own && t.isStatic name then pure (.static, ⟨.classRef t.className t.classType, []⟩)
  else if isClass then do
    let imported ← receiver.name
    return (.static, ⟨.classRef imported ⟨imported, false⟩, []⟩)
  else do return (.virtual, ← t.lower method none receiver)

/-- The type of the value of a call, and the types that its arguments are wanted as. -/
def callSignature (own : Bool) (name : String) : Except Failure (Ty × List Ty) :=
  if own then do
    let m ← t.method name
    return (m.returnType, m.params.map (·.type))
  else return ((expected.filter (· ≠ .any)).getD .int, [])

theorem callSignature_of_method {name : String} {m : MethodInfo} (hm : t.method? name = some m) :
    t.callSignature expected true name = .ok (m.returnType, m.params.map (·.type)) := by
  simp [callSignature, SymbolTable.method, hm, bind, Except.bind, pure, Except.pure]

/-- The arguments of a call, and the call. -/
def lowerInvocation (invocation : Invocation) (target : Lowered) (name : String) (type : Ty)
    (params : List Ty) (args : List Node) : Lower Lowered := do
  let (before, codes) ← t.lowerArguments method params args
  let before := target.computation ++ before
  let call := Instruction.call invocation target.code (some name) codes type
  if type = .void then return ⟨.absent, before ++ [call]⟩
  else intoTemp before type call

theorem lower_call {name : String} {receiver : Node} {args : List Node} {own isClass : Bool} {type : Ty}
    (hown : t.isOwnCall method name receiver = .ok own) (htype : t.typeOf method receiver = .ok type)
    (hclass : t.isClassReceiver method receiver = .ok isClass) :
    t.lower method expected ⟨.call, ⟨[("name", .text name)]⟩, receiver :: args, p⟩ =
      if own = false ∧ name = "length" ∧ args = [] ∧ type.isArray = true then (do
        lengthOf (← t.lower method (some .intArray) receiver))
      else (do
        let (invocation, target) ← t.callTarget method own isClass name receiver
        let (type, params) ← t.callSignature expected own name
        t.lowerInvocation method invocation target name type params args) := by
  have hname : Node.name ⟨.call, ⟨[("name", .text name)]⟩, receiver :: args, p⟩ = .ok name := rfl
  have hname? : Node.name? ⟨.call, ⟨[("name", .text name)]⟩, receiver :: args, p⟩ = .ok (some name) := rfl
  have hok {α β : Type} (a : α) (f : α → Lower β) : (liftM (Except.ok a : Except Failure α) >>= f) = f a := rfl
  rw [lower.eq_def]
  simp only [hname, hok, hown, htype, hclass, hname?]
  by_cases hlength : own = false ∧ name = "length" ∧ args = [] ∧ type.isArray = true
  · obtain ⟨rfl, rfl, rfl, harray⟩ := hlength
    simp [harray]
  · rw [if_neg hlength]
    have hskip : (!own && decide (name = "length") && args.isEmpty) = true → type.isArray = false := by
      intro h
      simp only [Bool.and_eq_true, Bool.not_eq_true', decide_eq_true_eq, List.isEmpty_iff] at h
      simpa [h] using hlength
    have hrest (k : Bool → Lower Lowered) :
        (if (!own && decide (name = "length") && args.isEmpty) = true then pure type.isArray >>= k
          else pure false >>= k) = k false := by
      split
      · rw [hskip ‹_›, pure_bind]
      · rw [pure_bind]
    rw [hrest, if_neg Bool.false_ne_true]
    unfold callTarget callSignature lowerInvocation
    cases own with
    | true =>
      cases t.isStatic name with
      | true => simp
      | false => cases isClass <;> simp
    | false => cases isClass <;> simp

theorem isClassReceiver_of_name {receiver : Node} {name : String} (hkind : receiver.kind = .varRef)
    (hname : receiver.name = .ok name) :
    t.isClassReceiver method receiver =
      .ok ((t.binding? method name).isNone && (t.field? name).isNone && t.isImported name) := by
  simp [isClassReceiver, hkind, hname, bind, Except.bind, pure, Except.pure]

theorem isClassReceiver_of_kind {receiver : Node} (hkind : receiver.kind ≠ .varRef) :
    t.isClassReceiver method receiver = .ok false := by
  simp [isClassReceiver, hkind, pure, Except.pure]

/-! ## Conditions -/

theorem lowerBranch_not (operand : Node) (label : String) :
    t.lowerBranch method ⟨.unary, ⟨[("op", .text "!")]⟩, [operand], p⟩ label = (do
      let operand ← t.lower method (some .boolean) operand
      return operand.computation ++ [.branch (.unary "!" operand.code .boolean) label]) := rfl

theorem lowerBranch_compare {op : String} {c : Comparison} (hop : Comparison.ofSymbol? op = some c) (left right : Node)
    (label : String) :
    t.lowerBranch method ⟨.binary, ⟨[("op", .text op)]⟩, [left, right], p⟩ label = (do
      let left ← t.lower method (some .int) left
      let right ← t.lower method (some .int) right
      return left.computation ++ right.computation ++
        [.branch (.binary op left.code right.code .boolean) label]) := by
  have hnode : Node.op ⟨.binary, ⟨[("op", .text op)]⟩, [left, right], p⟩ = .ok op := rfl
  have hfirst : Node.child ⟨.binary, ⟨[("op", .text op)]⟩, [left, right], p⟩ 0 = .ok left := rfl
  have hsecond : Node.child ⟨.binary, ⟨[("op", .text op)]⟩, [left, right], p⟩ 1 = .ok right := rfl
  have hok {α β : Type} (a : α) (f : α → Lower β) : (liftM (Except.ok a : Except Failure α) >>= f) = f a := rfl
  unfold lowerBranch
  simp [hnode, hfirst, hsecond, hok, hop]

/-- A condition that is neither a comparison nor a negation is a value. -/
theorem lowerBranch_value {n : Node} (hunary : n.kind ≠ .unary)
    (hbinary : n.kind = .binary → ∃ op, n.op = .ok op ∧ Comparison.ofSymbol? op = none) (label : String) :
    t.lowerBranch method n label = (do
      let value ← t.lower method (some .boolean) n
      return value.computation ++ [.branch (.single value.code) label]) := by
  have hok {α β : Type} (a : α) (f : α → Lower β) : (liftM (Except.ok a : Except Failure α) >>= f) = f a := rfl
  unfold lowerBranch
  by_cases hkind : n.kind = .binary
  · obtain ⟨op, hop, hnone⟩ := hbinary hkind
    simp [hkind, hop, hok, hnone]
  · simp [hkind, hunary]

end SymbolTable
end JmmCompiler

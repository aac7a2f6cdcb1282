import JmmCompiler.Proofs.Results
import JmmCompiler.Typing
/-! The type of each form of expression. -/
namespace JmmCompiler

namespace Ty

/-- The type of an element of an array of a type. -/
def indexed (array : Ty) : Ty := if array = .any then .any else array.base

/-- The type of a call that reaches no method of the class. -/
def foreign (name : String) (args : List Node) : Ty := if name = "length" ∧ args = [] then .int else .any

end Ty

namespace SymbolTable
variable (t : SymbolTable) (method : Option String)

theorem typeOf_binary (op : String) (children : List Node) (p : Position) :
    t.typeOf method ⟨.binary, ⟨[("op", .text op)]⟩, children, p⟩ =
      match Operator.ofSymbol? op with
      | some o => .ok o.resultType
      | none => .error (.unknownOperator op) := by
  rw [typeOf]
  simp [Node.op, Node.word, Node.required, Node.attribute?, Assoc.find?, Assoc.findEntry, bind, Except.bind,
    pure, Except.pure, Json.spelling]
  rfl

theorem typeOf_thisRef {e : Node} (h : e.kind = .thisRef) : t.typeOf method e = .ok t.classType := by
  obtain ⟨kind, attributes, children, p⟩ := e
  obtain rfl : kind = .thisRef := h
  rfl

/-- A receiver is one of the class when its type is that of the class. -/
theorem isOwnReceiver_eq {receiver : Node} {type : Ty} (h : t.typeOf method receiver = .ok type) :
    t.isOwnReceiver method receiver = .ok (decide (type = t.classType)) := by
  unfold isOwnReceiver
  by_cases hkind : receiver.kind = .thisRef
  · rw [typeOf_thisRef t method hkind, Except.ok.injEq] at h
    simp [hkind, h, pure, Except.pure]
  · simp [hkind, h, bind, Except.bind, pure, Except.pure]

/-- A call gives what the method gives that it reaches. -/
theorem typeOf_call {name : String} {receiver : Node} {args : List Node} {p : Position} {type : Ty}
    (hreceiver : t.typeOf method receiver = .ok type) :
    t.typeOf method ⟨.call, ⟨[("name", .text name)]⟩, receiver :: args, p⟩ =
      .ok (match t.method? name with
        | some m => if type = t.classType then m.returnType else Ty.foreign name args
        | none => Ty.foreign name args) := by
  rw [typeOf]
  simp only [Node.name, Node.word, Node.required, Node.attribute?, Assoc.find?, Assoc.findEntry, bind,
    Except.bind, pure, Except.pure, Json.spelling, hreceiver, List.length_cons, Nat.add_eq_right,
    List.length_eq_zero_iff, if_true]
  cases t.method? name with
  | none => rfl
  | some m =>
    by_cases hkind : receiver.kind = .thisRef
    · rw [typeOf_thisRef t method hkind, Except.ok.injEq] at hreceiver
      simp [hkind, hreceiver]
    · by_cases htype : type = t.classType
      · simp [hkind, htype]
      · simp [hkind, htype, Ty.foreign]

theorem typeOf_arrayLiteral {first : Node} {rest : List Node} {p : Position} {type : Ty}
    (hfirst : t.typeOf method first = .ok type) :
    t.typeOf method ⟨.arrayLiteral, {}, first :: rest, p⟩ = .ok type.arrayOf := by
  rw [typeOf]
  simp [Node.attribute?, hfirst, pure, Except.pure, bind, Except.bind]

theorem typeOf_emptyLiteral (p : Position) : 
    t.typeOf method ⟨.arrayLiteral, {}, [], p⟩ = .ok .intArray := by
  rw [typeOf]
  simp [Node.attribute?, pure, Except.pure]

theorem typeOf_gatheredLiteral (name : String) (elements : List Node) (p : Position) :
    t.typeOf method ⟨.arrayLiteral, ⟨[("element_type", .text name)]⟩, elements, p⟩ = .ok ⟨name, true⟩ := by
  rw [typeOf.eq_def]
  simp [Node.attribute?, Assoc.find?, Assoc.findEntry, Node.word, Node.required, bind, Except.bind,
    pure, Except.pure, Json.spelling]

theorem typeOf_arrayAccess {array : Node} {rest : List Node} {p : Position} {type : Ty}
    (harray : t.typeOf method array = .ok type) :
    t.typeOf method ⟨.arrayAccess, {}, array :: rest, p⟩ = .ok (Ty.indexed type) := by
  rw [typeOf]
  simp [harray, pure, Except.pure, bind, Except.bind, Ty.indexed]

/-- A call is one of the class when the class has the method and the receiver its type. -/
theorem isOwnCall_eq {name : String} {receiver : Node} {type : Ty}
    (h : t.typeOf method receiver = .ok type) :
    t.isOwnCall method name receiver = .ok (t.hasMethod name && decide (type = t.classType)) := by
  unfold isOwnCall
  cases t.hasMethod name with
  | true => simp [isOwnReceiver_eq t method h]
  | false => rfl

theorem isOwnCall_of_method {name : String} {receiver : Node} {m : MethodInfo} (hm : t.method? name = some m)
    (h : t.typeOf method receiver = .ok t.classType) : t.isOwnCall method name receiver = .ok true := by
  rw [t.isOwnCall_eq method h]
  simp [hasMethod, hm]

theorem isOwnCall_of_ne {name : String} {receiver : Node} {type : Ty} (h : t.typeOf method receiver = .ok type)
    (hother : (t.method? name).isSome → type ≠ t.classType) : t.isOwnCall method name receiver = .ok false := by
  rw [t.isOwnCall_eq method h, hasMethod]
  by_cases hm : (t.method? name).isSome = true
  · simp [hother hm]
  · simp [hm]

end SymbolTable
end JmmCompiler

import JmmCompiler.Code.Program
import JmmCompiler.Proofs.OwnCalls
/-! Objects and arrays, on which the methods of a class work. Calls that leave the class are answered by an oracle. -/
namespace JmmCompiler

/-- What a field or an element is before it is assigned. -/
def Value.initial (type : Ty) : Value := if type.isIntLike then .int 0 else .null

/-- What a reference leads to. -/
inductive Form
  | object (className : String)
  | array (items : List Value)
  deriving DecidableEq

/-- What there is at each address, and what the fields of the objects hold. -/
structure Storage where
  forms : List Form := []
  fields : Nat → String → Value := fun _ _ => .null

namespace Storage

def allocate (form : Form) (fields : String → Value) : Act Storage Value :=
  modifyGet fun s => (.ref s.forms.length, ⟨s.forms ++ [form], Function.update s.fields s.forms.length fields⟩)

/-- Ends a computation with a new exception. -/
def raise {α : Type} (className : String) : Act Storage α := do
  throw (.thrown (← allocate (.object className) fun _ => .null))

def address : Value → Act Storage Nat
  | .ref address => pure address
  | .null => raise "NullPointerException"
  | .int _ => throw .fault

def items (array : Value) : Act Storage (Nat × List Value) := do
  let address ← address array
  match (← get).forms[address]? with
  | some (.array items) => return (address, items)
  | _ => throw .fault

/-- The place of an element in an array. -/
def place (items : List Value) (index : Int) : Act Storage (Fin items.length) :=
  if h : 0 ≤ index ∧ index < items.length then pure ⟨index.toNat, by omega⟩ else raise "ArrayIndexOutOfBoundsException"

end Storage

/-! ## Classes -/

structure Signature where
  name : String
  isStatic : Bool
  arity : Nat
  deriving DecidableEq

/-- What a class declares. -/
structure Outline where
  className : String
  fields : List Symbol
  methods : List Signature
  deriving DecidableEq

namespace Outline
variable (o : Outline)

def declares (s : Signature) : Bool := o.methods.find? (·.name = s.name) = some s

/-- Calls that reach a method of the class: those of a static method, and those of a method of an object of the class. -/
def own? : Query → Storage → Option OwnCall
  | .invokeStatic className (some name) args, _ =>
    if className = o.className ∧ o.declares ⟨name, true, args.length⟩ then some ⟨name, none, args⟩ else none
  | .invoke (some name) (.ref address) args, s =>
    if s.forms[address]? = some (.object o.className) ∧ o.declares ⟨name, false, args.length⟩ then
      some ⟨name, some address, args⟩
    else none
  | _, _ => none

/-- The fields of a new object. Those that the class does not declare are none of its own. -/
def initialFields (className name : String) : Value :=
  match if className = o.className then Symbol.lookup? o.fields name else none with
  | some field => .initial field.type
  | none => .null

/-- How a query is answered that no method of the class answers. Calls leave the class, unless there is no object. -/
def respond (external : Oracle Query Storage) : Query → Act Storage Value
  | .new className => Storage.allocate (.object className) (o.initialFields className)
  | .newArray element size =>
    if size < 0 then Storage.raise "NegativeArraySizeException"
    else Storage.allocate (.array (List.replicate size.toNat (.initial ⟨element, false⟩))) fun _ => .null
  | .length array => do return .int (← Storage.items array).2.length
  | .load array index => do
    let (_, items) ← Storage.items array
    return items[← Storage.place items index]
  | .store array index value => do
    let (address, items) ← Storage.items array
    let place ← Storage.place items index
    modify fun s => { s with forms := s.forms.set address (.array (items.set place value)) }
    return value
  | .getField name object => do
    let address ← Storage.address object
    return (← get).fields address name
  | .putField name object value => do
    let address ← Storage.address object
    modify fun s => { s with fields := Function.update s.fields address (Function.update (s.fields address) name value) }
    return value
  | .invoke _ .null _ => Storage.raise "NullPointerException"
  | query => fun s => external query s

/-- The class itself, and what is outside of it. -/
def surroundings (external : Oracle Query Storage) : Surroundings Storage where
  own? := o.own?
  answer query s := runOn (o.respond external query) s

variable {o} {external : Oracle Query Storage} {perform : OwnCall → Act (World Query Storage) (Option Value)}

/-- Fields of objects are read without effects. -/
theorem ask_getField (name : String) (address : Nat) (w : World Query Storage) :
    runOn ((o.surroundings external).ask perform (.getField name (.ref address))) w =
      (.ok (w.heap.fields address name), w) := rfl

theorem declares_of_own {query : Query} {s : Storage} {call : OwnCall} (h : o.own? query s = some call) :
    o.declares ⟨call.method, call.self.isNone, call.args.length⟩ = true := by
  unfold own? at h
  split at h
  · obtain ⟨hdeclared, heq⟩ := Option.ite_none_right_eq_some.1 h
    rw [← Option.some.inj heq]
    exact hdeclared.2
  · obtain ⟨hdeclared, heq⟩ := Option.ite_none_right_eq_some.1 h
    rw [← Option.some.inj heq]
    exact hdeclared.2
  · cases h

end Outline

def MethodInfo.signature (m : MethodInfo) : Signature := ⟨m.name, m.isStatic, m.params.length⟩

def CodeMethod.signature (m : CodeMethod) : Signature := ⟨m.name, m.isStatic, m.params.length⟩

def SymbolTable.outline (t : SymbolTable) : Outline := ⟨t.className, t.fields, t.methods.map (·.signature)⟩

def CodeProgram.outline (p : CodeProgram) : Outline := ⟨p.className, p.fields, p.methods.map (·.signature)⟩

/-- A call reaches the class only where one of its methods takes it. -/
theorem SymbolTable.receives_of_own {t : SymbolTable} {query : Query} {s : Storage} {call : OwnCall}
    (h : t.outline.own? query s = some call) : t.Receives call := by
  have hdeclared := Outline.declares_of_own h
  simp only [Outline.declares, SymbolTable.outline, List.find?_map, decide_eq_true_eq, Option.map_eq_some_iff] at hdeclared
  obtain ⟨m, hm, hsignature⟩ := hdeclared
  obtain ⟨-, hstatic, harity⟩ := Signature.mk.inj hsignature
  refine ⟨m, hm, harity.symm, ?_⟩
  rw [hstatic, Option.not_isNone]

end JmmCompiler

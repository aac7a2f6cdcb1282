import JmmCompiler.Proofs.Machine
import JmmCompiler.Proofs.Results
import JmmCompiler.Proofs.Values
/-! The meaning of three-address instructions. Operands are evaluated in the order in which an instruction
lists them. What goes beyond variables is a request to the surroundings. -/
namespace JmmCompiler

/-- What an instruction asks of its surroundings: its own data, and the values of its operands. -/
inductive Request
  /-- A call. The value of the receiver comes first, unless the call is static. -/
  | call (invocation : Invocation) (receiver : Element) (method : Option String)
      (args : List Element) (type : Ty) (values : List Value)
  | new (type : Ty)
  | newArray (type : Ty) (size : Int)
  | length (array : Value)
  | load (element : Ty) (array : Value) (index : Int)
  | store (element : Ty) (array : Value) (index : Int) (value : Value)
  | getField (field : Element) (object : Value)
  | putField (field : Element) (object value : Value)
  deriving DecidableEq, Inhabited

/-- How requests are answered, and which values a place of a type may hold. -/
structure Setting (W : Type) where
  ask : Request → Act W Value
  fits : Ty → Value → Bool := fun _ _ => true

namespace Setting
variable {W : Type} (s : Setting W) (read : String → Option Value)

/-- A value where a type is wanted. -/
def held (type : Ty) (value : Value) : Act W Value :=
  if s.fits type value then pure value else throw .fault

def lookup (name : String) (type : Ty) : Act W Value :=
  match read name with
  | some value => s.held type value
  | none => throw .fault

def operand : Element → Act W Value
  | .literal n _ => pure (.int n)
  | .var name type => s.lookup read name type
  | .classRef .. | .absent => throw .fault
  | .item array type index => do
    let array ← s.lookup read array type.arrayOf
    let index ← Act.number (← operand index)
    s.held type (← s.ask (.load type array index))

def operands : List Element → Act W (List Value)
  | [] => return []
  | e :: es => do
    let value ← s.operand read e
    return value :: (← operands es)

/-- A call, an allocation or an array length. The value of a call that gives none is whatever the
surroundings answer. -/
def call (invocation : Invocation) (receiver : Element) (method : Option String)
    (args : List Element) (type : Ty) : Act W Value := do
  match invocation with
  | .new =>
    if type.isArray then
      match args with
      | [size] => s.ask (.newArray type (← Act.number (← s.operand read size)))
      | _ => throw .fault
    else s.ask (.new type)
  | .arrayLength => s.ask (.length (← s.held .intArray (← s.operand read receiver)))
  | .static => s.ask (.call .static receiver method args type (← s.operands read args))
  | .virtual | .special =>
    let object ← s.operand read receiver
    s.ask (.call invocation receiver method args type (object :: (← s.operands read args)))

/-- The value that an instruction computes. -/
def value : Instruction → Act W Value
  | .single e => s.operand read e
  | .binary op left right _ => do
    let a ← s.operand read left
    let b ← s.operand read right
    match Operator.ofSymbol? op with
    | some op => op.apply a b
    | none => throw .fault
  | .unary op e _ => do
    let a ← s.operand read e
    if op = "!" then return .ofBool (!(← Act.truth a)) else throw .fault
  | .call invocation receiver method args type => s.call read invocation receiver method args type
  | .getField object field => do s.ask (.getField field (← s.operand read object))
  | _ => throw .fault

/-- The value for what an instruction defines, and where the run goes. The first exit of a jump is its
target. -/
def act : Instruction → Act W (Value × Exit Outcome)
  | .assign (.item array type index) i => do
    let array ← s.lookup read array type.arrayOf
    let index ← s.operand read index
    let value ← s.value read i
    let index ← Act.number index
    let value ← s.held type value
    return (← s.ask (.store type array index value), .follow 0)
  | .assign (.var _ type) i | .assign (.classRef _ type) i => do
    return (← s.held type (← s.value read i), .follow 0)
  | .putField object field e => do
    let object ← s.operand read object
    return (← s.ask (.putField field object (← s.operand read e)), .follow 0)
  | .ret e type =>
    if e = .absent ∨ type = .void then return (.null, .stop (.returned none))
    else do
      let value ← s.held type (← s.operand read e)
      return (value, .stop (.returned (some value)))
  | .branch condition _ => do
    let value ← s.value read condition
    return (value, .follow (if ← Act.truth value then 0 else 1))
  | .goto _ | .nop => return (.null, .follow 0)
  | i => do return (← s.value read i, .follow 0)

/-- What an instruction does to a world. -/
def effect (r : (Except Trap (Value × Exit Outcome)) × W) : Effect Value W Outcome :=
  match r with
  | (.ok (value, exit), w) => ⟨w, value, exit⟩
  | (.error trap, w) => ⟨w, .null, .stop (.trapped trap)⟩

/-- The meaning of instructions in a setting. -/
def meaning : Interpretation Value W Outcome := fun i read w => effect (runOn (s.act read i) w)

variable {s} {r r' : String → Option Value}

theorem operand_congr {e : Element} {names : List String} (h : e.names = .ok names)
    (hr : ∀ x ∈ names, r x = r' x) : s.operand r e = s.operand r' e := by
  induction e generalizing names with
  | literal n type => rfl
  | classRef name type => rfl
  | absent => rfl
  | var name type =>
    obtain rfl : [name] = names := by simpa [Element.names] using h
    simp only [operand, lookup, hr name (by simp)]
  | item array type index ih =>
    simp only [Element.names, bind_eq_ok, pure_eq_ok] at h
    obtain ⟨inner, hinner, rfl⟩ := h
    simp only [operand, lookup, hr array (by simp), ih hinner fun x hx => hr x (by simp [hx])]

theorem operands_congr {es : List Element} {names : List (List String)}
    (h : es.mapM Element.names = .ok names) (hr : ∀ x ∈ names.flatten, r x = r' x) :
    s.operands r es = s.operands r' es := by
  have hall := mapM_eq_ok_iff.1 h
  clear h
  induction hall with
  | nil => rfl
  | cons he _ ih =>
    simp only [operands, operand_congr he fun x hx => hr x (by simp [hx]),
      ih fun x hx => hr x (by simp only [List.flatten_cons, List.mem_append]; exact Or.inr hx)]

theorem call_congr {invocation : Invocation} {receiver : Element} {method : Option String}
    {args : List Element} {type : Ty} {names : List String}
    (h : (Instruction.call invocation receiver method args type).uses = .ok names)
    (hr : ∀ x ∈ names, r x = r' x) :
    s.call r invocation receiver method args type = s.call r' invocation receiver method args type := by
  simp only [Instruction.uses, bind_eq_ok, pure_eq_ok] at h
  obtain ⟨subject, hsubject, argNames, hargs, rfl⟩ := h
  have hreceiver : s.operand r receiver = s.operand r' receiver := by
    cases receiver with
    | absent => rfl
    | _ => exact operand_congr hsubject fun x hx => hr x (by simp [hx])
  have hall : s.operands r args = s.operands r' args :=
    operands_congr hargs fun x hx => hr x (by simp only [List.mem_append]; exact Or.inr hx)
  cases invocation with
  | new =>
    cases args with
    | nil => rfl
    | cons size rest =>
      cases rest with
      | cons => rfl
      | nil =>
        cases mapM_eq_ok_iff.1 hargs with
        | cons hsize _ =>
          have hvalue : s.operand r size = s.operand r' size :=
            operand_congr hsize fun x hx => hr x (by simp [hx])
          simp only [call, hvalue]
  | arrayLength => simp only [call, hreceiver]
  | static => simp only [call, hall]
  | virtual => simp only [call, hreceiver, hall]
  | special => simp only [call, hreceiver, hall]

end Setting

/-- The object whose field an instruction reads or writes. -/
def Instruction.object? : Instruction → Option Element
  | getField object _ | putField object _ _ => some object
  | assign _ i | branch i _ => i.object?
  | _ => none

/-- Fields are read from `this` and written to `this` only. -/
def Instruction.FieldsOfThis (i : Instruction) : Prop :=
  ∀ object, i.object? = some object → ∃ type, object = .var "this" type

namespace Setting
variable {W : Type} {s : Setting W} {r r' : String → Option Value}

theorem value_congr {i : Instruction} {names : List String} (h : i.uses = .ok names)
    (hfields : i.FieldsOfThis) (hthis : r "this" = r' "this") (hr : ∀ x ∈ names, r x = r' x) :
    s.value r i = s.value r' i := by
  cases i with
  | single e => exact operand_congr h hr
  | binary op left right type =>
    simp only [Instruction.uses, bind_eq_ok, pure_eq_ok] at h
    obtain ⟨ls, hl, rs, hrs, rfl⟩ := h
    simp only [value, operand_congr hl fun x hx => hr x (by simp [hx]),
      operand_congr hrs fun x hx => hr x (by simp [hx])]
  | unary op e type => simp only [value, operand_congr h hr]
  | call invocation receiver method args type => exact call_congr h hr
  | getField object field =>
    obtain ⟨type, rfl⟩ := hfields object rfl
    simp only [value, operand, lookup, hthis]
  | _ => rfl

theorem act_congr {i : Instruction} {names : List String} (h : i.uses = .ok names)
    (hfields : i.FieldsOfThis) (hthis : r "this" = r' "this") (hr : ∀ x ∈ names, r x = r' x) :
    s.act r i = s.act r' i := by
  cases i with
  | assign dest i =>
    simp only [Instruction.uses, bind_eq_ok] at h
    obtain ⟨us, hus, h⟩ := h
    cases dest with
    | item array type index =>
      simp only [Element.isItem, if_true, Element.names, bind_eq_ok, pure_eq_ok] at h
      obtain ⟨_, ⟨inner, hinner, rfl⟩, rfl⟩ := h
      simp only [act, lookup, hr array (by simp), operand_congr hinner fun x hx => hr x (by simp [hx]),
        value_congr hus hfields hthis fun x hx => hr x (by simp [hx])]
    | var name type =>
      obtain rfl : us = names := by simpa [Element.isItem] using h
      simp only [act, value_congr hus hfields hthis hr]
    | classRef name type =>
      obtain rfl : us = names := by simpa [Element.isItem] using h
      simp only [act, value_congr hus hfields hthis hr]
    | literal n type => rfl
    | absent => rfl
  | putField object field e =>
    obtain ⟨type, rfl⟩ := hfields object rfl
    simp only [act, operand, lookup, hthis, operand_congr h hr]
  | ret e type =>
    cases e with
    | absent => rfl
    | _ => simp only [act, operand_congr h hr]
  | branch condition label => simp only [act, value_congr (i := condition) h hfields hthis hr]
  | goto label => rfl
  | nop => rfl
  | _ => simp only [act, value_congr h hfields hthis hr]

/-- Where fields are those of `this`, instructions depend on what they use, on `this` and on the world
only. -/
theorem local_meaning (s : Setting W) {code : List Instruction}
    (h : ∀ i ∈ code, i.FieldsOfThis) : s.meaning.Local code := by
  intro i hi names hnames r r' w hr
  have hact := act_congr (s := s) hnames (h i hi) (hr "this" (Or.inl rfl)) fun x hx => hr x (Or.inr hx)
  simp only [meaning, hact]

end Setting
end JmmCompiler

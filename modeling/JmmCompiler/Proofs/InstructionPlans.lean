import JmmCompiler.Proofs.CodeRuns
/-! Instructions as plans: the queries that an instruction makes, one after the other, with what it does with each
answer. A plan can be left at a query and taken up again when the answer is there. -/
namespace JmmCompiler

/-- A computation that makes queries. -/
inductive Plan (α : Type)
  | done (a : α)
  | trapped (trap : Trap)
  | asks (query : Query) (rest : Value → Plan α)

namespace Plan
variable {W α β : Type}

def bind (f : α → Plan β) : Plan α → Plan β
  | done a => f a
  | trapped trap => trapped trap
  | asks query rest => asks query fun answer => (rest answer).bind f

instance : Monad Plan where
  pure := done
  bind p f := p.bind f

/-- A plan that is carried out. -/
def act (ask : Query → Act W Value) : Plan α → Act W α
  | done a => pure a
  | trapped trap => throw trap
  | asks query rest => do
    let answer ← ask query
    (rest answer).act ask

variable (ask : Query → Act W Value)

@[simp] theorem act_pure (a : α) : (pure a : Plan α).act ask = pure a := rfl

@[simp] theorem act_trapped (trap : Trap) : (trapped trap : Plan α).act ask = throw trap := rfl

@[simp] theorem act_bind (p : Plan α) (f : α → Plan β) : (p >>= f).act ask = p.act ask >>= fun a => (f a).act ask := by
  induction p with
  | done a => exact (pure_bind a fun a => (f a).act ask).symm
  | trapped trap => rfl
  | asks query rest ih =>
    change (do
      let answer ← ask query
      ((rest answer).bind f).act ask) = _
    rw [act, bind_assoc]
    exact bind_congr ih

/-- A single request. -/
def request (r : Request) : Plan Value := asks r.query done

@[simp] theorem act_request (r : Request) : (request r).act ask = ask r.query := bind_pure (ask r.query)

/-- A computation without queries, for which there need not be a world. -/
def still (x : Act Unit α) : Plan α :=
  match (runOn x ()).1 with
  | .ok a => pure a
  | .error trap => trapped trap

theorem still_pure (a : α) : still (pure a) = pure a := rfl

theorem still_bind (x : Act Unit α) (f : α → Act Unit β) : still (x >>= f) = still x >>= fun a => still (f a) := by
  unfold still
  rw [runOn_bind]
  rcases runOn x () with ⟨trap | a, u⟩ <;> rfl

@[simp] theorem act_number (v : Value) : (still (Act.number v)).act ask = Act.number v := by
  cases v <;> rfl

@[simp] theorem act_truth (v : Value) : (still (Act.truth v)).act ask = Act.truth v := by
  cases v with
  | int n =>
    simp only [Act.truth]
    split_ifs <;> rfl
  | _ => rfl

@[simp] theorem act_apply (op : Operator) (a b : Value) : (still (op.apply a b)).act ask = op.apply a b := by
  cases op with
  | arithmetic op =>
    cases a <;> cases b <;> try rfl
    rename_i m n
    simp only [Operator.apply]
    cases op.evaluate? m n <;> rfl
  | comparison op => cases op <;> cases a <;> cases b <;> rfl
  | logical op => cases op <;> simp [Operator.apply, still_bind, still_pure, -bind_pure_comp]

/-! ## Instructions -/

section
variable (read : String → Option Value)

def lookup (name : String) : Plan Value :=
  match read name with
  | some value => pure value
  | none => trapped .fault

def operand : Element → Plan Value
  | .literal n _ => pure (.int n)
  | .var name _ => lookup read name
  | .classRef .. | .absent => trapped .fault
  | .item array type index => do
    let array ← lookup read array
    let index ← still (Act.number (← operand index))
    request (Request.load type array index)

def operands : List Element → Plan (List Value)
  | [] => return []
  | e :: es => do
    let value ← operand read e
    return value :: (← operands es)

def call (invocation : Invocation) (receiver : Element) (method : Option String) (args : List Element)
    (type : Ty) : Plan Value := do
  match invocation with
  | .new =>
    if type.isArray then
      match args with
      | [size] => request (Request.newArray type (← still (Act.number (← operand read size))))
      | _ => trapped .fault
    else request (Request.new type)
  | .arrayLength => request (Request.length (← operand read receiver))
  | .static => request (Request.call .static receiver method args type (← operands read args))
  | .virtual | .special =>
    let object ← operand read receiver
    request (Request.call invocation receiver method args type (object :: (← operands read args)))

/-- The value that an instruction computes. -/
def value : Instruction → Plan Value
  | .single e => operand read e
  | .binary op left right _ => do
    let a ← operand read left
    let b ← operand read right
    match Operator.ofSymbol? op with
    | some op => still (op.apply a b)
    | none => trapped .fault
  | .unary op e _ => do
    let a ← operand read e
    if op = "!" then return .ofBool (!(← still (Act.truth a))) else trapped .fault
  | .call invocation receiver method args type => call read invocation receiver method args type
  | .getField object field => do request (Request.getField field (← operand read object))
  | _ => trapped .fault

/-- The value for what an instruction defines, and where the run goes. -/
def ofInstruction : Instruction → Plan (Value × Exit Outcome)
  | .assign (.item array type index) i => do
    let array ← lookup read array
    let index ← operand read index
    let value ← value read i
    let index ← still (Act.number index)
    return (← request (Request.store type array index value), .follow 0)
  | .assign (.var _ _) i | .assign (.classRef _ _) i => do return (← value read i, .follow 0)
  | .putField object field e => do
    let object ← operand read object
    return (← request (Request.putField field object (← operand read e)), .follow 0)
  | .ret e type =>
    if e = .absent ∨ type = .void then return (.null, .stop (.returned none))
    else do
      let value ← operand read e
      return (value, .stop (.returned (some value)))
  | .branch condition _ => do
    let value ← value read condition
    return (value, .follow (if ← still (Act.truth value) then 0 else 1))
  | .goto _ | .nop => return (.null, .follow 0)
  | i => do return (← value read i, .follow 0)

/-! A plan of an instruction, carried out, is what the instruction does. -/

theorem act_lookup (name : String) (type : Ty) : (lookup read name).act ask = (Query.setting ask).lookup read name type := by
  unfold lookup Setting.lookup
  cases read name <;> rfl

@[simp] theorem act_operand (e : Element) : (operand read e).act ask = (Query.setting ask).operand read e := by
  induction e with
  | item array type index ih =>
    simp only [operand, Setting.operand, act_bind, ih, act_lookup ask read array type.arrayOf, act_number, act_request,
      Query.setting_held, Query.setting_ask, bind_pure]
  | var name type => exact act_lookup ask read name type
  | _ => rfl

@[simp] theorem act_operands (es : List Element) : (operands read es).act ask = (Query.setting ask).operands read es := by
  induction es with
  | nil => rfl
  | cons e es ih => simp only [operands, Setting.operands, act_bind, act_operand, ih, act_pure]

@[simp] theorem act_call (invocation : Invocation) (receiver : Element) (method : Option String) (args : List Element)
    (type : Ty) : (call read invocation receiver method args type).act ask =
      (Query.setting ask).call read invocation receiver method args type := by
  cases invocation with
  | new =>
    simp only [call, Setting.call]
    split_ifs
    · split <;> simp
    · simp
  | _ => simp [call, Setting.call]

@[simp] theorem act_value (i : Instruction) : (value read i).act ask = (Query.setting ask).value read i := by
  cases i with
  | binary op left right type =>
    simp only [value, Setting.value, act_bind, act_operand]
    cases Operator.ofSymbol? op <;> simp
  | unary op e type =>
    simp only [value, Setting.value, act_bind, act_operand]
    split_ifs <;> simp
  | _ => simp [value, Setting.value]

theorem act_ofInstruction (i : Instruction) : (ofInstruction read i).act ask = (Query.setting ask).act read i := by
  cases i with
  | assign dest i =>
    cases dest with
    | item array type index => simp [ofInstruction, Setting.act, act_lookup ask read array type.arrayOf]
    | _ => simp [ofInstruction, Setting.act]
  | ret e type =>
    simp only [ofInstruction, Setting.act]
    split_ifs <;> simp
  | _ => simp [ofInstruction, Setting.act]

end

end Plan
end JmmCompiler

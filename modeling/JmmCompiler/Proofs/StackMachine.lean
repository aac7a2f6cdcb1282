import JmmCompiler.Jasmin.Line
import JmmCompiler.Proofs.Steps
/-! A machine that runs the lines of a method body: an operand stack, slots and labels. It takes
constants and slots from the text of a line, so that their short forms count, and descriptors for the
number of operands that a call pops. -/
namespace JmmCompiler.Jasmin

/-- What a text goes on with after a given beginning. -/
def after? (start text : String) : Option String :=
  if start.toList.isPrefixOf text.toList then
    some (String.ofList (text.toList.drop start.toList.length))
  else none

/-- The numbers of 32 bits. -/
def fitsWord (n : Int) : Bool := -2147483648 ≤ n && n ≤ 2147483647

/-- The constant that an instruction pushes, given by its text. -/
def readConst (text : String) : Option Int :=
  match after? "iconst_" text with
  | some "m1" => some (-1)
  | some digits => digits.toInt?.filter fun n => 0 ≤ n && n ≤ 5
  | none =>
    match after? "bipush " text with
    | some digits => digits.toInt?.filter fitsByte
    | none =>
      match after? "sipush " text with
      | some digits => digits.toInt?.filter fitsShort
      | none => (after? "ldc " text).bind fun digits => digits.toInt?.filter fitsWord

/-- The slot that an instruction moves a value from or to, given by its text. -/
def readSlot (op : SlotOp) (text : String) : Option Int :=
  (after? op.text text).bind fun rest =>
    match after? "_" rest with
    | some digits => digits.toInt?.filter fun n => 0 ≤ n && n ≤ 3
    | none => (after? " " rest).bind fun digits => digits.toInt?.filter fun n => 0 ≤ n

/-- The parameters of a descriptor, counted from some number on, and what comes behind them. `inName`
tells that the name of a class has begun. -/
def countParams (inName : Bool) (count : Nat) : List Char → Option (Nat × List Char)
  | [] => none
  | c :: cs =>
    if inName then countParams (c ≠ ';') count cs
    else if c = ')' then some (count, cs)
    else if c = '[' then countParams false count cs
    else countParams (c = 'L') (count + 1) cs

/-- How many parameters a method has, given its descriptor, and whether it gives a value. -/
def readDescriptor (descriptor : String) : Option (Nat × Bool) :=
  match descriptor.toList with
  | '(' :: cs => (countParams false 0 cs).map fun r => (r.1, r.2 ≠ ['V'])
  | _ => none

/-- What an instruction asks of its surroundings. -/
inductive Demand
  | invoke (op : CallOp) (owner name descriptor : String) (values : List Value)
  | new (className : String)
  | newArray (element : String) (size : Int)
  | length (array : Value)
  | load (op : Plain) (array : Value) (index : Int)
  | store (op : Plain) (array : Value) (index : Int) (value : Value)
  | getField (owner name descriptor : String) (object : Value)
  | putField (owner name descriptor : String) (object value : Value)
  deriving DecidableEq, Inhabited

/-- The line that is next, the operand stack with its top in front, the slots and the world. -/
structure Frame (W : Type) where
  pc : Nat
  stack : List Value
  memory : Int → Value
  world : W

/-- A run goes on, or it has ended: with an outcome, or without one where control left the lines. -/
inductive Stage (W : Type)
  | running (frame : Frame W)
  | halted (outcome : Option Outcome) (world : W)

/-- What a line does besides its effect on the world. -/
inductive Move
  | to (pc : Nat) (stack : List Value) (memory : Int → Value)
  | stop (value : Option Value)

/-- The place of a label. -/
def target (code : List Line) (label : String) : Option Nat := code.idxOf? (.label label)

section
variable {W : Type} (code : List Line) (ask : Demand → Act W Value)

def goTo (label : String) (stack : List Value) (memory : Int → Value) : Act W Move :=
  match target code label with
  | some pc => pure (.to pc stack memory)
  | none => throw .fault

/-- The operators on two integers. -/
def combine : Plain → Int → Int → Act W Int
  | .iadd, a, b => pure (wrap (a + b))
  | .isub, a, b => pure (wrap (a - b))
  | .imul, a, b => pure (wrap (a * b))
  | .idiv, a, b => if b = 0 then throw .divisionByZero else pure (wrap (a.tdiv b))
  | .iand, a, b => pure (BitVec.ofInt 32 a &&& BitVec.ofInt 32 b).toInt
  | .ior, a, b => pure (BitVec.ofInt 32 a ||| BitVec.ofInt 32 b).toInt
  | _, _, _ => throw .fault

/-- An instruction without operands, before the line `pc`. -/
def Plain.exec (pc : Nat) (memory : Int → Value) : Plain → List Value → Act W Move
  | .iaload, .int i :: a :: stack => load .iaload false a i stack
  | .baload, .int i :: a :: stack => load .baload false a i stack
  | .aaload, .int i :: a :: stack => load .aaload true a i stack
  | .iastore, v :: .int i :: a :: stack => store .iastore false a i v stack
  | .bastore, v :: .int i :: a :: stack => store .bastore false a i v stack
  | .aastore, v :: .int i :: a :: stack => store .aastore true a i v stack
  | .arrayLength, a :: stack =>
    if a.isReference then do return .to pc ((← ask (.length a)) :: stack) memory else throw .fault
  | .pop, _ :: stack => pure (.to pc stack memory)
  | .nop, stack => pure (.to pc stack memory)
  | .ret, _ => pure (.stop none)
  | .iret, v :: _ => if v.isReference then throw .fault else pure (.stop (some v))
  | .aret, v :: _ => if v.isReference then pure (.stop (some v)) else throw .fault
  | op, .int b :: .int a :: stack => do return .to pc (.int (← combine op a b) :: stack) memory
  | _, _ => throw .fault
where
  /-- Loads an element that is a reference or is not. -/
  load (op : Plain) (reference : Bool) (a : Value) (i : Int) (stack : List Value) : Act W Move :=
    if a.isReference then do
      let v ← ask (.load op a i)
      if v.isReference = reference then return .to pc (v :: stack) memory else throw .fault
    else throw .fault
  store (op : Plain) (reference : Bool) (a : Value) (i : Int) (v : Value) (stack : List Value) :
      Act W Move :=
    if a.isReference && v.isReference = reference then do
      let _ ← ask (.store op a i v)
      return .to pc stack memory
    else throw .fault

/-- A move between a slot and the stack. -/
def SlotOp.exec (pc : Nat) (memory : Int → Value) (slot : Int) : SlotOp → List Value → Act W Move
  | .iload, stack =>
    if (memory slot).isReference then throw .fault else pure (.to pc (memory slot :: stack) memory)
  | .aload, stack =>
    if (memory slot).isReference then pure (.to pc (memory slot :: stack) memory) else throw .fault
  | .istore, v :: stack =>
    if v.isReference then throw .fault else pure (.to pc stack (Function.update memory slot v))
  | .astore, v :: stack =>
    if v.isReference then pure (.to pc stack (Function.update memory slot v)) else throw .fault
  | _, [] => throw .fault

/-- A call pops its operands, the last of them first. -/
def CallOp.exec (pc : Nat) (memory : Int → Value) (op : CallOp) (owner name descriptor : String)
    (stack : List Value) : Act W Move :=
  match readDescriptor descriptor with
  | none => throw .fault
  | some (params, givesValue) => do
    let count := if op = .static then params else params + 1
    if stack.length < count then throw .fault
    let value ← ask (.invoke op owner name descriptor (stack.take count).reverse)
    let rest := stack.drop count
    return .to pc (if givesValue then value :: rest else rest) memory

/-- What a line does. The line behind it is the line `pc`. -/
def Line.exec (pc : Nat) (stack : List Value) (memory : Int → Value) : Line → Act W Move
  | .label _ => pure (.to pc stack memory)
  | .const n =>
    match readConst (Line.const n).body with
    | some n => pure (.to pc (.int n :: stack) memory)
    | none => throw .fault
  | .slot op n =>
    match readSlot op (Line.slot op n).body with
    | some n => op.exec pc memory n stack
    | none => throw .fault
  | .increment k amount =>
    match memory k with
    | .int n => pure (.to pc stack (Function.update memory k (.int (wrap (n + amount)))))
    | _ => throw .fault
  | .plain op => op.exec ask pc memory stack
  | .goto name => goTo code name stack memory
  | .jump .zero op name =>
    match stack with
    | .int a :: rest => if op.holds a 0 then goTo code name rest memory else pure (.to pc rest memory)
    | _ => throw .fault
  | .jump .ints op name =>
    match stack with
    | .int b :: .int a :: rest =>
      if op.holds a b then goTo code name rest memory else pure (.to pc rest memory)
    | _ => throw .fault
  | .jump .refs op name =>
    match stack with
    | b :: a :: rest =>
      if a.isReference && b.isReference && !op.isOrdering then
        if (a = b) = (op = .eq) then goTo code name rest memory else pure (.to pc rest memory)
      else throw .fault
    | _ => throw .fault
  | .new className => do return .to pc ((← ask (.new className)) :: stack) memory
  | .newArray element =>
    match stack with
    | .int n :: rest => do return .to pc ((← ask (.newArray element n)) :: rest) memory
    | _ => throw .fault
  | .field .get owner name descriptor =>
    match stack with
    | object :: rest => do
      return .to pc ((← ask (.getField owner name descriptor object)) :: rest) memory
    | _ => throw .fault
  | .field .put owner name descriptor =>
    match stack with
    | value :: object :: rest => do
      let _ ← ask (.putField owner name descriptor object value)
      return .to pc rest memory
    | _ => throw .fault
  | .invoke op owner name descriptor => op.exec ask pc memory owner name descriptor stack

/-- Where a move leads. -/
def Move.stage (r : Except Trap Move × W) : Stage W :=
  match r with
  | (.ok (.to pc stack memory), w) => .running ⟨pc, stack, memory, w⟩
  | (.ok (.stop value), w) => .halted (some (.returned value)) w
  | (.error trap, w) => .halted (some (.trapped trap)) w

def step : Stage W → Stage W
  | .halted outcome w => .halted outcome w
  | .running f =>
    match code[f.pc]? with
    | none => .halted none f.world
    | some l => Move.stage (runOn (l.exec code ask (f.pc + 1) f.stack f.memory) f.world)

def run (n : Nat) (s : Stage W) : Stage W := (step code ask)^[n] s

/-- Nothing is said of a truth value that is neither 0 nor 1. -/
def machine : Machine (Stage W) W where
  next := step code ask
  trapped trap w := .halted (some (.trapped trap)) w
  next_trapped _ _ := rfl
  Told trap := trap ≠ .notBoolean

/-- A run of at least `n` steps leads from one stage to another. -/
abbrev Reaches (n : Nat) (s t : Stage W) : Prop := (machine code ask).Reaches n s t

/-- The machine gets in at least `n` steps to where a computation leads. -/
def Delivers {α : Type} (n : Nat) (s : Stage W) (r : Except Trap α × W) (next : α → W → Stage W) : Prop :=
  (machine code ask).Delivers n s r fun a w t => t = next a w

end

section
variable {W : Type} {code : List Line} {ask : Demand → Act W Value} {α β : Type} {s : Stage W} {m n : Nat}

theorem Reaches.line {f : Frame W} {l : Line} (h : code[f.pc]? = some l) :
    Reaches code ask 1 (.running f)
      (Move.stage (runOn (l.exec code ask (f.pc + 1) f.stack f.memory) f.world)) := by
  have hstep : step code ask (.running f) =
      Move.stage (runOn (l.exec code ask (f.pc + 1) f.stack f.memory) f.world) := by
    simp only [Jasmin.step, h]
  exact hstep ▸ Machine.Reaches.step _

/-- A run that has ended can be taken to be as long as one likes. -/
theorem Reaches.halted {s : Stage W} {outcome : Option Outcome} {w : W}
    (h : Reaches code ask m s (.halted outcome w)) (n : Nat) :
    Reaches code ask n s (.halted outcome w) :=
  h.rest rfl n

theorem delivers_ok {a : α} {w : W} {next : α → W → Stage W} :
    Delivers code ask n s (.ok a, w) next ↔ Reaches code ask n s (next a w) := by
  simp [Delivers, Machine.Delivers]

theorem Delivers.bind {x : Act W α} {g : α → Act W β} {w : W} {next : α → W → Stage W}
    {next' : β → W → Stage W} (hx : Delivers code ask m s (runOn x w) next)
    (hg : ∀ a w', runOn x w = (.ok a, w') → Delivers code ask n (next a w') (runOn (g a) w') next') :
    Delivers code ask n s (runOn (x >>= g) w) next' := by
  refine (Machine.Delivers.bind hx ?_).weaken (Nat.le_add_left n m)
  rintro a w' _ hr rfl
  exact hg a w' hr

/-- The first computation may take the steps as well. -/
theorem Delivers.bind_left {x : Act W α} {g : α → Act W β} {w : W} {next : α → W → Stage W}
    {next' : β → W → Stage W} (hx : Delivers code ask m s (runOn x w) next)
    (hg : ∀ a w', runOn x w = (.ok a, w') → Delivers code ask 0 (next a w') (runOn (g a) w') next') :
    Delivers code ask m s (runOn (x >>= g) w) next' := by
  refine (Machine.Delivers.bind (n := 0) hx ?_).weaken (Nat.le_add_right m 0)
  rintro a w' _ hr rfl
  exact hg a w' hr

theorem Delivers.pure (a : α) {next : α → W → Stage W} {w : W} (h : next a w = s) :
    Delivers code ask 0 s (runOn (Pure.pure a : Act W α) w) next :=
  Machine.Delivers.pure a h.symm

/-- A line delivers the computation that it consists of. -/
theorem Delivers.line {f : Frame W} {l : Line} (hl : code[f.pc]? = some l) {x : Act W α} {move : α → Move}
    (hexec : l.exec code ask (f.pc + 1) f.stack f.memory = (do
      let a ← x
      Pure.pure (move a))) :
    Delivers code ask 1 (.running f) (runOn x f.world) fun a w => Move.stage (.ok (move a), w) := by
  have hstep : Reaches code ask 1 _ _ := Reaches.line hl
  rw [hexec, runOn_bind] at hstep
  rcases hr : runOn x f.world with ⟨trap | a, w⟩
  · rw [hr] at hstep
    exact fun _ => hstep
  · rw [hr] at hstep
    exact delivers_ok.2 hstep

end
end JmmCompiler.Jasmin

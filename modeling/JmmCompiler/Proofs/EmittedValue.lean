import JmmCompiler.Proofs.Emission
import JmmCompiler.Proofs.Encoding
import JmmCompiler.Proofs.Meaning
/-! Emitted lines compute the values of instructions. The statements hold on every stack, so that they
can be chained, and for lines that are followed by anything. -/
namespace JmmCompiler

namespace Element

def typeOrVoid (e : Element) : Ty := e.type.toOption.getD .void

def nameOrEmpty (e : Element) : String := e.name.toOption.getD ""

theorem exists_of_isItem {e : Element} (h : e.isItem = true) : ∃ array type index, e = .item array type index := by
  cases e with
  | item array type index => exact ⟨array, type, index, rfl⟩
  | _ => cases h

/-- An element that can be loaded as a value: literals are numbers of 32 bits, elements of arrays are no
arrays, and classes are no values. -/
def Operand : Element → Prop
  | literal n type => Jasmin.fitsWord n = true ∧ type.isIntLike = true
  | var .. => True
  | item _ type index => type.isArray = false ∧ index.Operand
  | classRef .. | absent => False

end Element

/-- The values of the types that the machine holds as integers are integers, those of all other types
references. -/
def Ty.fits (type : Ty) (value : Value) : Bool := value.isReference != type.isIntLike

namespace Jasmin.Scope

/-- The types of the parameters and of the result of a declared method, or else those of the arguments
and of the call. -/
def typesOf (declared : Option CodeMethod) (args : List Element) (type : Ty) : List Ty × Ty :=
  match declared with
  | some m => (m.params.map (·.type), m.returnType)
  | none => (args.map Element.typeOrVoid, type)

/-- The types of the parameters and of the result of the method that a call reaches: the declared ones
for a method of the class, and for others those of the arguments and of the call. -/
def signature (s : Scope) (receiver : Element) (method : Option String) (args : List Element)
    (type : Ty) : List Ty × Ty :=
  if method = some "<init>" then (args.map Element.typeOrVoid, .void)
  else
    let isOwn := receiver ≠ .absent && receiver.typeOrVoid.name = s.program.className
    typesOf (s.program.methods.find? fun m => isOwn && some m.name = method) args type

/-- An allocation and a length give a value. A call has operands to load, passes as many arguments as the
method that it reaches has parameters, and gives a value if that method does. The names of the classes
in its descriptor end where the descriptor says so. -/
def CallFits (s : Scope) (invocation : Invocation) (receiver : Element) (method : Option String)
    (args : List Element) (type : Ty) : Prop :=
  match invocation with
  | .new => type ≠ .void ∧ ∀ a ∈ args, a.Operand
  | .arrayLength => type ≠ .void ∧ receiver.Operand
  | .static | .virtual | .special =>
    let signature := s.signature receiver method args type
    (∀ a ∈ args, a.Operand) ∧ (invocation = .static ∨ receiver.Operand) ∧
      signature.1.length = args.length ∧ (signature.2 = .void ↔ type = .void) ∧
      ∀ t ∈ signature.1, ';' ∉ (s.internalName t.name).toList

/-- An object whose fields are accessed: `this`, in the first slot. -/
def IsThis (s : Scope) (object : Element) : Prop :=
  ∃ type, object = .var "this" type ∧ type.isIntLike = false ∧ s.method.slots.find? "this" = some 0

/-- The operands of an instruction can be loaded, those of an addition or a subtraction are integers, calls
fit what they reach and fields are those of `this`. -/
def ValueFits (s : Scope) : Instruction → Prop
  | .single e | .unary _ e _ => e.Operand
  | .binary op left right _ =>
    left.Operand ∧ right.Operand ∧ (op = "+" ∨ op = "-" → left.typeOrVoid.isIntLike = true)
  | .call invocation receiver method args type => s.CallFits invocation receiver method args type
  | .getField object _ => s.IsThis object
  | _ => True

/-- Not a call that gives no value. -/
def GivesValue : Instruction → Prop
  | .call _ _ _ _ type => type ≠ .void
  | _ => True

/-- What the machine asks where an instruction asks something. -/
def demand (s : Scope) : Request → Demand
  | .call invocation receiver method args type values =>
    let owner :=
      if invocation = .static then receiver.nameOrEmpty else receiver.typeOrVoid.name
    let op := match invocation with
      | .static => CallOp.static
      | .special => .special
      | _ => .virtual
    let signature := s.signature receiver method args type
    .invoke op (s.internalName owner) (method.getD "None")
      (s.methodDescriptor signature.1 signature.2) values
  | .new type => .new (s.internalName type.name)
  | .newArray type size =>
    .newArray (if type.name = "int" ∨ type.name = "boolean" then type.name
      else s.internalName type.name) size
  | .length array => .length array
  | .load element array index => .load (arrayLoad element) array index
  | .store element array index value => .store (arrayStore element) array index value
  | .getField field object =>
    .getField s.program.className field.nameOrEmpty (s.descriptor field.typeOrVoid) object
  | .putField field object value =>
    .putField s.program.className field.nameOrEmpty (s.descriptor field.typeOrVoid) object value

/-- Instructions run in the surroundings of the machine, on values that fit their types. -/
def setting {W : Type} (s : Scope) (ask : Demand → Act W Value) : Setting W where
  ask request := ask (s.demand request)
  fits := Ty.fits

end Jasmin.Scope

namespace Jasmin
variable {W : Type} {s : Scope} {code : List Line} {ask : Demand → Act W Value} {b b' : Body}
  {stack : List Value} {memory : Int → Value} {w : W}

theorem getElem?_of_append {lines added : List Line} (h : lines ++ added <+: code) {i : Nat} {l : Line}
    (hl : added[i]? = some l) : code[lines.length + i]? = some l := by
  obtain ⟨rest, rfl⟩ := h
  have hi : i < added.length := (List.getElem?_eq_some_iff.1 hl).1
  rw [List.append_assoc, List.getElem?_append_right (by omega), Nat.add_sub_cancel_left,
    List.getElem?_append_left hi, hl]

theorem fits_iff {type : Ty} {v : Value} : type.fits v = true ↔ v.isReference = !type.isIntLike := by
  unfold Ty.fits
  cases v.isReference <;> cases type.isIntLike <;> decide

/-- The stage at which the machine has come to the end of a body. -/
def Body.stage (b : Body) (stack : List Value) (memory : Int → Value) (w : W) : Stage W :=
  .running ⟨b.lines.length, stack, memory, w⟩

/-- A line at the end of a body delivers the computation that it consists of, at the end of the body
with that line. -/
theorem delivers_line {α : Type} {l : Line} {n : Nat} (hcode : b.lines ++ [l] <+: code) {x : Act W α}
    {stack' : α → List Value} {memory' : α → Int → Value}
    (hexec : l.exec code ask (b.lines.length + 1) stack memory =
      (do let a ← x; pure (Move.to (b.lines.length + 1) (stack' a) (memory' a)))) :
    Delivers code ask 1 (b.stage stack memory w) (runOn x w) fun a w' =>
      Body.stage ⟨b.lines ++ [l], n⟩ (stack' a) (memory' a) w' := by
  have hl : code[b.lines.length]? = some l := getElem?_of_append (i := 0) hcode rfl
  have h := Delivers.line (f := ⟨b.lines.length, stack, memory, w⟩) hl hexec
  simpa only [Body.stage, Move.stage, List.length_append, List.length_singleton] using h

theorem slot_eq_ok {m : CodeMethod} {name : String} {n : Int} :
    m.slot name = .ok n ↔ m.slots.find? name = some n := by
  unfold CodeMethod.slot
  cases m.slots.find? name <;> simp

theorem runOn_scopeSlot_eq_ok {op : SlotOp} {name : String} :
    runOn (s.slot op name) b = (.ok (), b') ↔
      ∃ n, s.method.slots.find? name = some n ∧ 0 ≤ n ∧
        b' = ⟨b.lines ++ [.slot op n], b.nextLabel⟩ := by
  simp only [Scope.slot, runOn_bind_eq_ok, Emit.runOn_ofExcept, Prod.mk.injEq, slot_eq_ok]
  constructor
  · rintro ⟨n, _, ⟨hn, rfl⟩, h⟩
    exact ⟨n, hn, Emit.runOn_slot_eq_ok.1 h⟩
  · rintro ⟨n, hn, h⟩
    exact ⟨n, b, ⟨hn, rfl⟩, Emit.runOn_slot_eq_ok.2 h⟩

theorem lookup_of_slot {name : String} {n : Int} (hn : s.method.slots.find? name = some n)
    (type : Ty) :
    (s.setting ask).lookup (s.method.read memory) name type = (s.setting ask).held type (memory n) := by
  simp only [Setting.lookup, CodeMethod.read, hn, Option.map_some]

theorem exec_slotLoad (type : Ty) (n : Int) (pc : Nat) :
    (if type.isIntLike then SlotOp.iload else .aload).exec pc memory n stack = (do
      let v ← (s.setting ask).held type (memory n)
      pure (Move.to pc (v :: stack) memory)) := by
  simp only [Setting.held, Scope.setting, Ty.fits]
  by_cases ht : type.isIntLike = true <;> by_cases hv : (memory n).isReference = true <;>
    simp [SlotOp.exec, ht, hv]

/-- Loading the slot of a variable gives its value if that fits its type. -/
theorem delivers_slot {op : SlotOp} {name : String} {type : Ty}
    (hop : op = if type.isIntLike then .iload else .aload)
    (h : runOn (s.slot op name) b = (.ok (), b')) (hcode : b'.lines <+: code) :
    Delivers code ask 1 (b.stage stack memory w)
      (runOn ((s.setting ask).lookup (s.method.read memory) name type) w)
      fun v w' => b'.stage (v :: stack) memory w' := by
  obtain ⟨n, hn, hnonneg, rfl⟩ := runOn_scopeSlot_eq_ok.1 h
  rw [lookup_of_slot hn]
  refine delivers_line hcode ?_
  simp only [Line.exec, readSlot_body hnonneg, hop]
  exact exec_slotLoad type n _

theorem fits_of_held {type : Ty} {v v' : Value} {w w' : W}
    (h : runOn ((s.setting ask).held type v) w = (.ok v', w')) :
    v' = v ∧ v.isReference = !type.isIntLike := by
  unfold Setting.held at h
  split at h
  · rename_i hfits
    simp only [runOn_pure, Prod.mk.injEq, Except.ok.injEq] at h
    exact ⟨h.1.symm, fits_iff.1 hfits⟩
  · simp at h

theorem fits_of_lookup {read : String → Option Value} {name : String} {type : Ty} {v : Value} {w w' : W}
    (h : runOn ((s.setting ask).lookup read name type) w = (.ok v, w')) :
    v.isReference = !type.isIntLike := by
  unfold Setting.lookup at h
  split at h
  · obtain ⟨rfl, hv⟩ := fits_of_held h
    exact hv
  · simp at h

/-- The three kinds of elements, and which of them are integers. -/
theorem arrayOps_cases {type : Ty} (htype : type.isArray = false) :
    (Scope.arrayLoad type = .iaload ∧ Scope.arrayStore type = .iastore ∧ type.isIntLike = true) ∨
    (Scope.arrayLoad type = .baload ∧ Scope.arrayStore type = .bastore ∧ type.isIntLike = true) ∨
    (Scope.arrayLoad type = .aaload ∧ Scope.arrayStore type = .aastore ∧ type.isIntLike = false) := by
  unfold Scope.arrayLoad Scope.arrayStore Ty.isIntLike
  by_cases hint : type.name = "int"
  · simp [hint, htype]
  · by_cases hbool : type.name = "boolean"
    · simp [hbool, htype]
    · simp [hint, hbool]

/-- An element that the surroundings answer with fits if it is a reference where references are held. -/
theorem exec_load (s : Scope) {op : Plain} {type : Ty} (hop : Scope.arrayLoad type = op) {a : Value}
    (ha : a.isReference = true) (i : Int) (pc : Nat) :
    Plain.exec.load ask pc memory op (!type.isIntLike) a i stack = (do
      let v ← (do (s.setting ask).held type (← (s.setting ask).ask (.load type a i)))
      pure (Move.to pc (v :: stack) memory)) := by
  simp only [Plain.exec.load, ha, if_true, Setting.held, Scope.setting, Scope.demand, fits_iff, hop,
    bind_assoc]
  congr 1
  funext v
  split <;> simp

/-- The load of an element of an array gives what the surroundings answer if that fits the type. -/
theorem exec_arrayLoad (s : Scope) {type : Ty} (htype : type.isArray = false) {a : Value} (ha : a.isReference = true)
    (i : Value) (pc : Nat) :
    (Scope.arrayLoad type).exec ask pc memory (i :: a :: stack) = (do
      let v ← (do
        let index ← Act.number i
        (s.setting ask).held type (← (s.setting ask).ask (.load type a index)))
      pure (Move.to pc (v :: stack) memory)) := by
  rcases arrayOps_cases htype with ⟨hop, -, hkind⟩ | ⟨hop, -, hkind⟩ | ⟨hop, -, hkind⟩
  all_goals
    cases i with
    | int k =>
      have h : Plain.exec.load ask pc memory _ (!type.isIntLike) a k stack = (do
          let v ← (do (s.setting ask).held type (← (s.setting ask).ask (.load type a k)))
          pure (Move.to pc (v :: stack) memory)) := exec_load s hop ha k pc
      simp only [hkind] at h
      simp only [hop, Act.number, pure_bind]
      exact h
    | null => simp [hop, Plain.exec, Act.number]
    | ref k => simp [hop, Plain.exec, Act.number]

/-- Loading an operand gives its value. -/
theorem delivers_load {e : Element} (he : e.Operand) (h : runOn (s.load e) b = (.ok (), b'))
    (hcode : b'.lines <+: code) :
    Delivers code ask 1 (b.stage stack memory w)
      (runOn ((s.setting ask).operand (s.method.read memory) e) w)
      fun v w' => b'.stage (v :: stack) memory w' := by
  induction e generalizing b b' stack w with
  | literal n type =>
    obtain rfl : ⟨b.lines ++ [.const n], b.nextLabel⟩ = b' := by
      simpa [Scope.load] using h
    refine delivers_line hcode ?_
    simp only [Line.exec, readConst_body he.1, Setting.operand, pure_bind]
  | var name type => exact delivers_slot rfl h hcode
  | classRef name type => exact he.elim
  | absent => exact he.elim
  | item array type index ih =>
    simp only [Scope.load, runOn_bind_eq_ok] at h
    obtain ⟨_, b₁, harray, _, b₂, hindex, hline⟩ := h
    obtain rfl : ⟨b₂.lines ++ [.plain (Scope.arrayLoad type)], b₂.nextLabel⟩ = b' := by
      simpa using hline
    have hcode₂ : b₂.lines <+: code := (List.prefix_append _ _).trans hcode
    have hcode₁ : b₁.lines <+: code := (s.adds_load index b₁ _ b₂ hindex).lines_le.trans hcode₂
    have harrayOf : type.arrayOf.isIntLike = false := by simp [Ty.isIntLike, Ty.arrayOf]
    refine (delivers_slot (by simp [harrayOf]) harray hcode₁).bind fun a w₁ ha => ?_
    have ha : a.isReference = true := by simpa [harrayOf] using fits_of_lookup ha
    have hi : Delivers code ask 1 (b₁.stage (a :: stack) memory w₁) _ _ := ih he.2 hindex hcode₂
    have hvalue : Delivers code ask 1 _ _ _ := hi.bind fun i w₂ _ =>
      delivers_line (n := b₂.nextLabel) hcode (exec_arrayLoad s he.1 ha i _)
    simpa only [bind_assoc] using hvalue

theorem fits_of_operand {read : String → Option Value} {e : Element} (he : e.Operand) {v : Value}
    {w w' : W} (h : runOn ((s.setting ask).operand read e) w = (.ok v, w')) :
    v.isReference = !e.typeOrVoid.isIntLike := by
  cases e with
  | literal n type =>
    simp only [Setting.operand, runOn_pure, Prod.mk.injEq, Except.ok.injEq] at h
    obtain ⟨rfl, -⟩ := h
    simp [Value.isReference, Element.typeOrVoid, Element.type, Except.toOption, he.2]
  | var name type => exact fits_of_lookup h
  | classRef name type => exact he.elim
  | absent => exact he.elim
  | item array type index =>
    simp only [Setting.operand, runOn_bind_eq_ok] at h
    obtain ⟨_, _, _, _, _, _, _, _, _, _, _, _, hheld⟩ := h
    obtain ⟨rfl, hv⟩ := fits_of_held hheld
    exact hv

theorem delivers_loadAll {es : List Element} (hes : ∀ e ∈ es, e.Operand)
    (h : runOn (s.loadAll es) b = (.ok (), b')) (hcode : b'.lines <+: code) :
    Delivers code ask 0 (b.stage stack memory w)
      (runOn ((s.setting ask).operands (s.method.read memory) es) w)
      fun vs w' => b'.stage (vs.reverse ++ stack) memory w' := by
  induction es generalizing b stack w with
  | nil =>
    obtain rfl : b = b' := by simpa [Scope.loadAll] using h
    exact .pure [] rfl
  | cons e es ih =>
    simp only [Scope.loadAll, runOn_bind_eq_ok] at h
    obtain ⟨_, b₁, he, hrest⟩ := h
    have hcode₁ : b₁.lines <+: code := (s.adds_loadAll es b₁ _ b' hrest).lines_le.trans hcode
    refine (delivers_load (hes e (by simp)) he hcode₁).bind fun v w₁ _ => ?_
    have hvs : Delivers code ask 0 (b₁.stage (v :: stack) memory w₁) _ _ :=
      ih (fun x hx => hes x (by simp [hx])) hrest
    exact hvs.bind fun vs w₂ _ => .pure _ (by simp)

theorem length_of_operands {read : String → Option Value} {es : List Element} {vs : List Value}
    {w w' : W} (h : runOn ((s.setting ask).operands read es) w = (.ok vs, w')) :
    vs.length = es.length := by
  induction es generalizing vs w w' with
  | nil =>
    simp only [Setting.operands, runOn_pure, Prod.mk.injEq, Except.ok.injEq] at h
    simp [← h.1]
  | cons e es ih =>
    simp only [Setting.operands, runOn_bind_eq_ok, runOn_pure, Prod.mk.injEq, Except.ok.injEq] at h
    obtain ⟨_, _, _, _, _, hrest, rfl, -⟩ := h
    simp [ih hrest]

/-- A step to a line that does nothing but go on with other values. -/
theorem reaches_line {l : Line} {pc pc' : Nat} {stack' : List Value} {memory' : Int → Value}
    (hl : code[pc]? = some l)
    (hexec : l.exec code ask (pc + 1) stack memory = pure (.to pc' stack' memory')) :
    Reaches code ask 1 (.running ⟨pc, stack, memory, w⟩) (.running ⟨pc', stack', memory', w⟩) := by
  have h : Reaches code ask 1 _ _ := Reaches.line (f := ⟨pc, stack, memory, w⟩) hl
  rwa [hexec] at h

/-- Behind a jump to a fresh label, 1 is pushed where the jump was taken and 0 where it was not. -/
theorem reaches_boolean {taken done : Nat} (hlabels : (labelNames code).Nodup)
    (hcode : b.lines ++ booleanLines taken done <+: code) (holds : Bool) :
    Reaches code ask 0
      (.running ⟨if holds then b.lines.length + 2 else b.lines.length, stack, memory, w⟩)
      (.running ⟨b.lines.length + 5, .ofBool holds :: stack, memory, w⟩) := by
  have hend : target code ("j_end_" ++ toString done) = some (b.lines.length + 4) :=
    target_of_getElem? hlabels (getElem?_of_append hcode (i := 4) rfl)
  have hlast : Reaches code ask 1 (.running ⟨b.lines.length + 4, .ofBool holds :: stack, memory, w⟩)
      (.running ⟨b.lines.length + 5, .ofBool holds :: stack, memory, w⟩) :=
    reaches_line (getElem?_of_append hcode (i := 4) rfl) rfl
  cases holds with
  | false =>
    have hpush : Reaches code ask 1 (.running ⟨b.lines.length, stack, memory, w⟩)
        (.running ⟨b.lines.length + 1, .int 0 :: stack, memory, w⟩) :=
      reaches_line (getElem?_of_append hcode (i := 0) rfl)
        (by simp only [Line.exec, readConst_body (n := 0) (by decide)])
    have hgoto : Reaches code ask 1 (.running ⟨b.lines.length + 1, .int 0 :: stack, memory, w⟩)
        (.running ⟨b.lines.length + 4, .int 0 :: stack, memory, w⟩) :=
      reaches_line (getElem?_of_append hcode (i := 1) rfl) (by simp only [Line.exec, goTo, hend])
    exact ((hpush.trans hgoto).trans hlast).weaken (Nat.zero_le _)
  | true =>
    have hlabel : Reaches code ask 1 (.running ⟨b.lines.length + 2, stack, memory, w⟩)
        (.running ⟨b.lines.length + 3, stack, memory, w⟩) :=
      reaches_line (getElem?_of_append hcode (i := 2) rfl) rfl
    have hpush : Reaches code ask 1 (.running ⟨b.lines.length + 3, stack, memory, w⟩)
        (.running ⟨b.lines.length + 4, .int 1 :: stack, memory, w⟩) :=
      reaches_line (getElem?_of_append hcode (i := 3) rfl)
        (by simp only [Line.exec, readConst_body (n := 1) (by decide)])
    exact ((hlabel.trans hpush).trans hlast).weaken (Nat.zero_le _)

/-- A truth value is computed and a jump to a line taken if it holds, with nothing left on the stack. -/
def Jumps (code : List Line) (ask : Demand → Act W Value) (s : Stage W) (r : Except Trap Value × W)
    (taken : Nat) (b : Body) (stack : List Value) (memory : Int → Value) : Prop :=
  Delivers code ask 1 s r fun v w' =>
    .running ⟨if v = .ofBool true then taken else b.lines.length, stack, memory, w'⟩

section
variable {label : String} {taken : Nat} (htaken : target code label = some taken)
include htaken

theorem exec_jump_zero (c : Comparison) (n : Int) (pc : Nat) :
    (Line.jump .zero c label).exec code ask pc (.int n :: stack) memory = (do
      let v ← (Operator.comparison c).apply (.int n) (.int 0)
      pure (.to (if v = .ofBool true then taken else pc) stack memory)) := by
  cases hc : c.holds n 0 <;> simp [Line.exec, goTo, htaken, Operator.apply, hc]

theorem exec_jump_ints (c : Comparison) (n : Int) (b : Value) (pc : Nat) :
    (Line.jump .ints c label).exec code ask pc (b :: .int n :: stack) memory = (do
      let v ← (Operator.comparison c).apply (.int n) b
      pure (.to (if v = .ofBool true then taken else pc) stack memory)) := by
  cases b with
  | int k => cases hc : c.holds n k <;> simp [Line.exec, goTo, htaken, Operator.apply, hc]
  | null => cases c <;> simp [Line.exec, Operator.apply, Value.isReference]
  | ref k => cases c <;> simp [Line.exec, Operator.apply, Value.isReference]

theorem exec_jump_refs {c : Comparison} (hc : c.isOrdering = false) {a : Value}
    (ha : a.isReference = true) (b : Value) (pc : Nat) :
    (Line.jump .refs c label).exec code ask pc (b :: a :: stack) memory = (do
      let v ← (Operator.comparison c).apply a b
      pure (.to (if v = .ofBool true then taken else pc) stack memory)) := by
  have happly : (Operator.comparison c).apply (W := W) a b =
      if b.isReference then pure (.ofBool (decide (a = b) = decide (c = .eq))) else throw .fault := by
    cases a with
    | int n => simp [Value.isReference] at ha
    | null => cases c <;> cases b <;> simp [Comparison.isOrdering] at hc <;> simp [Operator.apply, Value.isReference]
    | ref n => cases c <;> cases b <;> simp [Comparison.isOrdering] at hc <;> simp [Operator.apply, Value.isReference]
  rw [happly]
  cases hb : b.isReference with
  | false => simp [Line.exec, ha, hb]
  | true =>
    cases c <;> simp [Comparison.isOrdering] at hc <;> by_cases heq : a = b <;>
      simp [Line.exec, goTo, htaken, ha, hb, heq, Comparison.isOrdering]

end

theorem runOn_numberJump {compared : Compared} {op label : String} {c : Comparison}
    (hop : Comparison.ofSymbol? op = some c)
    (h : runOn (Emit.numberJump compared op label) b = (.ok (), b')) :
    b' = ⟨b.lines ++ [.jump compared c label], b.nextLabel⟩ := by
  simp only [Emit.numberJump, hop, Emit.runOn_line, Prod.mk.injEq, true_and] at h
  exact h.symm

theorem runOn_referenceJump {op label : String} {c : Comparison} (hop : Comparison.ofSymbol? op = some c)
    (h : runOn (Emit.referenceJump op label) b = (.ok (), b')) :
    c.isOrdering = false ∧ b' = ⟨b.lines ++ [.jump .refs c label], b.nextLabel⟩ := by
  cases c with
  | eq =>
    simp only [Emit.referenceJump, hop, Emit.runOn_line, Prod.mk.injEq, true_and] at h
    exact ⟨rfl, h.symm⟩
  | ne =>
    simp only [Emit.referenceJump, hop, Emit.runOn_line, Prod.mk.injEq, true_and] at h
    exact ⟨rfl, h.symm⟩
  | _ => simp [Emit.referenceJump, hop] at h

theorem exists_int {v : Value} (h : v.isReference = false) : ∃ n, v = .int n := by
  cases v with
  | int n => exact ⟨n, rfl⟩
  | null => simp [Value.isReference] at h
  | ref n => simp [Value.isReference] at h

/-- The line of a jump at the end of a body. -/
theorem jumps_line {l : Line} {n taken : Nat} {x : Act W Value} {before : List Value}
    (hcode : b.lines ++ [l] <+: code)
    (hexec : l.exec code ask (b.lines.length + 1) before memory = (do
      let v ← x
      pure (.to (if v = .ofBool true then taken else b.lines.length + 1) stack memory))) :
    Jumps code ask (b.stage before memory w) (runOn x w) taken ⟨b.lines ++ [l], n⟩ stack memory := by
  have hl : code[b.lines.length]? = some l := getElem?_of_append (i := 0) hcode rfl
  have h := Delivers.line (f := ⟨b.lines.length, before, memory, w⟩) hl hexec
  simpa only [Jumps, Body.stage, Move.stage, List.length_append, List.length_singleton] using h

/-- Two values are compared and a jump is taken if the comparison holds. -/
theorem jumps_compareJump {op label : String} {c : Comparison} (hop : Comparison.ofSymbol? op = some c)
    {left right : Element} (hleft : left.Operand) (hright : right.Operand)
    (h : runOn (s.compareJump op left right label) b = (.ok (), b')) (hcode : b'.lines <+: code)
    {taken : Nat} (htaken : target code label = some taken) :
    Jumps code ask (b.stage stack memory w)
      (runOn (do
        let a ← (s.setting ask).operand (s.method.read memory) left
        let b ← (s.setting ask).operand (s.method.read memory) right
        (Operator.comparison c).apply a b) w) taken b' stack memory := by
  simp only [Scope.compareJump, runOn_bind_eq_ok, Emit.runOn_ofExcept, Prod.mk.injEq] at h
  obtain ⟨_, b₁, hl, type, _, ⟨htype, rfl⟩, h⟩ := h
  have htype : left.typeOrVoid = type := by simp [Element.typeOrVoid, htype, Except.toOption]
  by_cases hint : type.isIntLike = true
  · simp only [hint, Bool.not_true, Bool.false_eq_true, if_false] at h
    by_cases hzero : Scope.isZero right = true
    · -- Zero on the right is not loaded.
      simp only [hzero, if_true] at h
      obtain rfl := runOn_numberJump hop h
      refine (delivers_load hleft hl ((List.prefix_append _ _).trans hcode)).bind fun a w₁ ha => ?_
      obtain ⟨n, rfl⟩ := exists_int (by simpa [htype, hint] using fits_of_operand hleft ha)
      have hright : (s.setting ask).operand (s.method.read memory) right = pure (.int 0) := by
        cases right with
        | literal k type =>
          obtain rfl : k = 0 := by simpa [Scope.isZero] using hzero
          rfl
        | _ => simp [Scope.isZero] at hzero
      simp only [hright, pure_bind]
      exact jumps_line (n := b₁.nextLabel) hcode (exec_jump_zero htaken c n _)
    · simp only [hzero, Bool.false_eq_true, if_false, runOn_bind_eq_ok] at h
      obtain ⟨_, b₂, hr, h⟩ := h
      obtain rfl := runOn_numberJump hop h
      have hcode₂ : b₂.lines <+: code := (List.prefix_append _ _).trans hcode
      have hcode₁ : b₁.lines <+: code := (s.adds_load right b₁ _ b₂ hr).lines_le.trans hcode₂
      refine (delivers_load hleft hl hcode₁).bind fun a w₁ ha => ?_
      obtain ⟨n, rfl⟩ := exists_int (by simpa [htype, hint] using fits_of_operand hleft ha)
      refine (delivers_load hright hr hcode₂).bind fun v w₂ _ => ?_
      exact jumps_line (n := b₂.nextLabel) hcode (exec_jump_ints htaken c n v _)
  · simp only [hint, Bool.not_false, if_true, runOn_bind_eq_ok] at h
    obtain ⟨_, b₂, hr, h⟩ := h
    obtain ⟨hc, rfl⟩ := runOn_referenceJump hop h
    have hcode₂ : b₂.lines <+: code := (List.prefix_append _ _).trans hcode
    have hcode₁ : b₁.lines <+: code := (s.adds_load right b₁ _ b₂ hr).lines_le.trans hcode₂
    refine (delivers_load hleft hl hcode₁).bind fun a w₁ ha => ?_
    have ha : a.isReference = true := by simpa [htype, hint] using fits_of_operand hleft ha
    refine (delivers_load hright hr hcode₂).bind fun v w₂ _ => ?_
    exact jumps_line (n := b₂.nextLabel) hcode (exec_jump_refs htaken hc ha v _)

theorem delivers_arithmetic {op : Arithmetic} {p : Plain} (hop : Scope.opcode (.arithmetic op) = some p)
    {n : Nat} (hcode : b.lines ++ [.plain p] <+: code) (x y : Value) :
    Delivers code ask 1 (b.stage (y :: x :: stack) memory w)
      (runOn ((Operator.arithmetic op).apply x y) w)
      fun v w' => Body.stage ⟨b.lines ++ [.plain p], n⟩ (v :: stack) memory w' := by
  refine delivers_line hcode ?_
  cases op <;> obtain rfl := Option.some.inj hop
  all_goals
    cases x with
    | int i =>
      cases y with
      | int j =>
        by_cases hj : j = 0 <;>
          simp [Line.exec, Plain.exec, combine, Operator.apply, Arithmetic.evaluate?, hj]
      | _ => simp [Line.exec, Plain.exec, Operator.apply]
    | _ => cases y <;> simp [Line.exec, Plain.exec, Operator.apply]

theorem truth_cases (v : Value) :
    v = .int 0 ∨ v = .int 1 ∨ (v.isReference = true ∧ (Act.truth v : Act W Bool) = throw .fault) ∨
      (Act.truth v : Act W Bool) = throw .notBoolean := by
  cases v with
  | int n =>
    by_cases h0 : n = 0
    · simp [h0]
    · by_cases h1 : n = 1
      · simp [h1]
      · simp [Act.truth, h0, h1]
  | null => simp [Act.truth, Value.isReference]
  | ref n => simp [Act.truth, Value.isReference]

/-- The bits of truth values are combined as the truth values are. -/
theorem delivers_logical {op : Logical} {p : Plain} (hop : Scope.opcode (.logical op) = some p)
    {n : Nat} (hcode : b.lines ++ [.plain p] <+: code) (x y : Value) :
    Delivers code ask 1 (b.stage (y :: x :: stack) memory w)
      (runOn ((Operator.logical op).apply x y) w)
      fun v w' => Body.stage ⟨b.lines ++ [.plain p], n⟩ (v :: stack) memory w' := by
  by_cases htruth : runOn ((Operator.logical op).apply x y) w = (.error .notBoolean, w)
  · rw [htruth]
    exact fun h => absurd rfl h
  · refine delivers_line hcode ?_
    have hright (i : Int) (hx : x = .int i) (hi : i = 0 ∨ i = 1) :
        (Line.plain p).exec code ask (b.lines.length + 1) (y :: x :: stack) memory = (do
          let v ← (Operator.logical op).apply x y
          pure (Move.to (b.lines.length + 1) (v :: stack) memory)) := by
      subst hx
      rcases truth_cases (W := W) y with hy | hy | ⟨hy, hfault⟩ | hy
      · subst hy
        rcases hi with rfl | rfl <;> cases op <;> obtain rfl := Option.some.inj hop <;> rfl
      · subst hy
        rcases hi with rfl | rfl <;> cases op <;> obtain rfl := Option.some.inj hop <;> rfl
      · rcases hi with rfl | rfl <;> cases op <;> obtain rfl := Option.some.inj hop <;> cases y <;>
          simp [Value.isReference] at hy <;> rfl
      · exfalso
        apply htruth
        rcases hi with rfl | rfl <;> cases op <;> simp [Operator.apply, hy]
    rcases truth_cases (W := W) x with hx | hx | ⟨hx, hfault⟩ | hx
    · exact hright 0 hx (Or.inl rfl)
    · exact hright 1 hx (Or.inr rfl)
    · cases op <;> obtain rfl := Option.some.inj hop <;> cases x <;>
        simp [Value.isReference] at hx <;> cases y <;> rfl
    · exact absurd (by cases op <;> simp [Operator.apply, hx]) htruth

/-- The outcome of a jump to a fresh label is pushed. -/
theorem delivers_boolean {f : String → Emit Unit} (hlabels : (labelNames code).Nodup)
    (h : runOn (do
      let label ← Emit.newLabel "j_true"
      f label
      Scope.booleanResult label) b = (.ok (), b')) (hcode : b'.lines <+: code) {x : Act W Value}
    (hbool : ∀ v w', runOn x w = (.ok v, w') → ∃ t, v = .ofBool t)
    (hjumps : ∀ (label : String) (b₁ b₂ : Body) (taken : Nat), b₁.lines = b.lines →
      runOn (f label) b₁ = (.ok (), b₂) → b₂.lines <+: code → target code label = some taken →
        Jumps code ask (b.stage stack memory w) (runOn x w) taken b₂ stack memory) :
    Delivers code ask 1 (b.stage stack memory w) (runOn x w) fun v w' =>
      b'.stage (v :: stack) memory w' := by
  obtain ⟨b₂, hjump, rfl⟩ := Scope.runOn_boolean_eq_ok.1 h
  have htaken : target code ("j_true_" ++ toString b.nextLabel) = some (b₂.lines.length + 2) :=
    target_of_getElem? hlabels (getElem?_of_append hcode (i := 2) rfl)
  have hx := hjumps _ ⟨b.lines, b.nextLabel + 1⟩ b₂ _ rfl hjump
    ((List.prefix_append _ _).trans hcode) htaken
  unfold Jumps at hx
  rcases hr : runOn x w with ⟨trap | v, w'⟩
  · rw [hr] at hx
    exact hx
  · rw [hr] at hx
    obtain ⟨t, rfl⟩ := hbool v w' hr
    have hjump := delivers_ok.1 hx
    simp only [Value.ofBool_inj] at hjump
    have hend := hjump.trans (reaches_boolean hlabels hcode t)
    exact delivers_ok.2 (by simpa [Body.stage, booleanLines] using hend)

theorem apply_comparison_bool {c : Comparison} {x y v : Value} {w' : W}
    (h : runOn ((Operator.comparison c).apply x y) w = (.ok v, w')) : ∃ t, v = .ofBool t := by
  cases c <;> cases x <;> cases y <;> simp [Operator.apply, Value.isReference] at h <;>
    exact ⟨_, h.1.symm⟩

theorem stage_congr {b₁ : Body} (h : b₁.lines = b.lines) :
    b₁.stage stack memory w = b.stage stack memory w := by
  simp only [Body.stage, h]

/-- The lines of a binary operation compute its value. -/
theorem delivers_binary {op : String} {left right : Element} (hlabels : (labelNames code).Nodup)
    (hleft : left.Operand) (hright : right.Operand)
    (h : runOn (s.binary op left right) b = (.ok (), b')) (hcode : b'.lines <+: code) (type : Ty) :
    Delivers code ask 1 (b.stage stack memory w)
      (runOn ((s.setting ask).value (s.method.read memory) (.binary op left right type)) w)
      fun v w' => b'.stage (v :: stack) memory w' := by
  unfold Scope.binary at h
  simp only [Setting.value]
  cases hop : Operator.ofSymbol? op with
  | none => simp [hop] at h
  | some o =>
    simp only [hop] at h ⊢
    cases hp : Scope.opcode o with
    | some p =>
      simp only [hp, runOn_bind_eq_ok] at h
      obtain ⟨_, b₁, hl, _, b₂, hr, hline⟩ := h
      obtain rfl : ⟨b₂.lines ++ [.plain p], b₂.nextLabel⟩ = b' := by simpa using hline
      have hcode₂ : b₂.lines <+: code := (List.prefix_append _ _).trans hcode
      have hcode₁ : b₁.lines <+: code := (s.adds_load right b₁ _ b₂ hr).lines_le.trans hcode₂
      refine (delivers_load hleft hl hcode₁).bind fun x w₁ _ => ?_
      refine (delivers_load hright hr hcode₂).bind fun y w₂ _ => ?_
      cases o with
      | arithmetic op => exact delivers_arithmetic hp hcode x y
      | logical op => exact delivers_logical hp hcode x y
      | comparison c => simp [Scope.opcode] at hp
    | none =>
      cases o with
      | arithmetic op => cases op <;> simp [Scope.opcode] at hp
      | logical op => cases op <;> simp [Scope.opcode] at hp
      | comparison c =>
        simp only [hp] at h
        refine delivers_boolean hlabels h hcode ?_ ?_
        · intro v w' hv
          simp only [runOn_bind_eq_ok] at hv
          obtain ⟨_, _, _, _, _, _, happly⟩ := hv
          exact apply_comparison_bool happly
        · intro label b₁ b₂ taken hlines hjump hcode₂ htaken
          rw [← stage_congr hlines]
          exact jumps_compareJump (Operator.comparison_ofSymbol hop) hleft hright hjump hcode₂ htaken

/-- A truth value is loaded and a jump taken if it is 0. -/
theorem jumps_not {label : String} {e : Element} (he : e.Operand)
    (h : runOn (do s.load e; Emit.line (.jump .zero .eq label)) b = (.ok (), b'))
    (hcode : b'.lines <+: code) {taken : Nat} (htaken : target code label = some taken) (type : Ty) :
    Jumps code ask (b.stage stack memory w)
      (runOn ((s.setting ask).value (s.method.read memory) (.unary "!" e type)) w) taken b' stack
      memory := by
  simp only [runOn_bind_eq_ok] at h
  obtain ⟨_, b₁, hload, hline⟩ := h
  obtain rfl : ⟨b₁.lines ++ [.jump .zero .eq label], b₁.nextLabel⟩ = b' := by simpa using hline
  refine (delivers_load he hload ((List.prefix_append _ _).trans hcode)).bind fun v w₁ _ => ?_
  simp only [if_true]
  have hline (hexec : (Line.jump .zero .eq label).exec code ask (b₁.lines.length + 1) (v :: stack) memory =
      (do
        let v ← (do return Value.ofBool (!(← Act.truth v)))
        pure (.to (if v = .ofBool true then taken else b₁.lines.length + 1) stack memory))) :=
    jumps_line (w := w₁) (n := b₁.nextLabel) hcode hexec
  rcases truth_cases (W := W) v with hv | hv | ⟨hv, hfault⟩ | hv
  · subst hv
    exact hline (by simp [Line.exec, Comparison.holds, goTo, htaken])
  · subst hv
    exact hline (by simp [Line.exec, Comparison.holds])
  · refine hline ?_
    rw [hfault]
    cases v <;> simp [Value.isReference] at hv <;> rfl
  · rw [hv]
    exact fun h => absurd rfl h

/-- The lines of a unary operation compute its value. -/
theorem delivers_unary {op : String} {e : Element} (hlabels : (labelNames code).Nodup) (he : e.Operand)
    (h : runOn (s.unary op e) b = (.ok (), b')) (hcode : b'.lines <+: code) (type : Ty) :
    Delivers code ask 1 (b.stage stack memory w)
      (runOn ((s.setting ask).value (s.method.read memory) (.unary op e type)) w)
      fun v w' => b'.stage (v :: stack) memory w' := by
  by_cases hop : op = "!"
  · subst hop
    rw [Scope.unary_not] at h
    refine delivers_boolean hlabels h hcode ?_ ?_
    · intro v w' hv
      simp only [Setting.value, if_true, runOn_bind_eq_ok, runOn_pure, Prod.mk.injEq,
        Except.ok.injEq] at hv
      obtain ⟨_, _, _, t, _, _, rfl, _⟩ := hv
      exact ⟨!t, rfl⟩
    · intro label b₁ b₂ taken hlines hjump hcode₂ htaken
      rw [← stage_congr hlines]
      exact jumps_not he hjump hcode₂ htaken type
  · simp [Scope.unary, hop] at h

theorem types_of_mapM {es : List Element} {ts : List Ty} (h : es.mapM Element.type = .ok ts) :
    ts = es.map Element.typeOrVoid := by
  have hall := mapM_eq_ok_iff.1 h
  clear h
  induction hall with
  | nil => rfl
  | cons he _ ih => simp [← ih, Element.typeOrVoid, he, Except.toOption]

theorem callDescriptor_eq {receiver : Element} {method : Option String} {args : List Element} {type : Ty}
    {d : String} (h : s.callDescriptor receiver method args type = .ok d) :
    d = s.methodDescriptor (s.signature receiver method args type).1
      (s.signature receiver method args type).2 := by
  unfold Scope.callDescriptor at h
  unfold Scope.signature
  by_cases hinit : method = some "<init>"
  · simp only [hinit, if_true, bind_eq_ok, pure_eq_ok] at h
    obtain ⟨ts, hts, rfl⟩ := h
    simp [hinit, types_of_mapM hts]
  · simp only [hinit, if_false] at h ⊢
    generalize hown : (decide (receiver ≠ .absent) &&
      decide (receiver.typeOrVoid.name = s.program.className)) = isOwn
    have hdeclared (m : CodeMethod) (hd : pure (s.methodDescriptor (m.params.map (·.type)) m.returnType) =
        (Except.ok d : Except Failure String)) :
        d = s.methodDescriptor (Scope.typesOf (some m) args type).1 (Scope.typesOf (some m) args type).2 :=
      (pure_eq_ok.1 hd).symm
    have hother (hd : (do return s.methodDescriptor (← args.mapM Element.type) type) = Except.ok d) :
        d = s.methodDescriptor (Scope.typesOf none args type).1 (Scope.typesOf none args type).2 := by
      obtain ⟨ts, hts, hd⟩ := bind_eq_ok.1 hd
      simp only [Scope.typesOf, ← types_of_mapM hts]
      exact (pure_eq_ok.1 hd).symm
    by_cases habsent : receiver = .absent
    · obtain rfl : false = isOwn := by simpa [habsent] using hown
      simp only [habsent, if_true, pure_bind] at h
      split at h
      · rename_i hm
        exact hm ▸ hdeclared _ h
      · rename_i hm
        exact hm ▸ hother h
    · rw [if_neg habsent] at h
      obtain ⟨t, ht, h⟩ := bind_eq_ok.1 h
      obtain rfl : decide (t.name = s.program.className) = isOwn := by
        simpa [habsent, Element.typeOrVoid, ht, Except.toOption] using hown
      simp only [pure_bind] at h
      split at h
      · rename_i hm
        exact hm ▸ hdeclared _ h
      · rename_i hm
        exact hm ▸ hother h

/-- A call pops its operands and pushes its value, if it gives one. -/
theorem exec_invoke {op : CallOp} {owner name : String} {params : List Ty} {returnType : Ty}
    (hnames : ∀ t ∈ params, ';' ∉ (s.internalName t.name).toList) {values : List Value}
    (hcount : values.length = if op = .static then params.length else params.length + 1) (pc : Nat) :
    (Line.invoke op owner name (s.methodDescriptor params returnType)).exec code ask pc
        (values.reverse ++ stack) memory = (do
      let v ← ask (.invoke op owner name (s.methodDescriptor params returnType) values)
      pure (.to pc (if returnType = .void then stack else v :: stack) memory)) := by
  have hdescriptor : readDescriptor (s.methodDescriptor params returnType) = _ :=
    readDescriptor_methodDescriptor hnames
  simp only [Line.exec, CallOp.exec, hdescriptor, ← hcount]
  have hlength : ¬(values.reverse ++ stack).length < values.length := by simp
  have htake : (values.reverse ++ stack).take values.length = values.reverse := by
    rw [List.take_append_of_le_length (by simp), ← List.length_reverse, List.take_length]
  have hdrop : (values.reverse ++ stack).drop values.length = stack := by
    rw [← List.length_reverse, List.drop_left]
  simp only [hlength, if_false, htake, hdrop, List.reverse_reverse]
  by_cases hvoid : returnType = .void <;> simp [hvoid]

/-- The line of a call at the end of a body. -/
theorem delivers_invoke {op : CallOp} {invocation : Invocation} {owner : String} {receiver : Element}
    {method : Option String} {args : List Element} {type : Ty} {values : List Value}
    (hdemand : s.demand (.call invocation receiver method args type values) =
      .invoke op (s.internalName owner) (method.getD "None")
        (s.methodDescriptor (s.signature receiver method args type).1
          (s.signature receiver method args type).2) values)
    (hnames : ∀ t ∈ (s.signature receiver method args type).1, ';' ∉ (s.internalName t.name).toList)
    (hcount : values.length = if op = .static then (s.signature receiver method args type).1.length
      else (s.signature receiver method args type).1.length + 1)
    (hvoid : (s.signature receiver method args type).2 = .void ↔ type = .void)
    (h : runOn (s.invoke op owner receiver method args type) b = (.ok (), b'))
    (hcode : b'.lines <+: code) :
    Delivers code ask 1 (b.stage (values.reverse ++ stack) memory w)
      (runOn ((s.setting ask).ask (.call invocation receiver method args type values)) w)
      fun v w' => b'.stage (if type = .void then stack else v :: stack) memory w' := by
  simp only [Scope.invoke, runOn_bind_eq_ok, Emit.runOn_ofExcept, Prod.mk.injEq] at h
  obtain ⟨d, _, ⟨hd, rfl⟩, hline⟩ := h
  obtain rfl := callDescriptor_eq hd
  obtain rfl : _ = b' := by simpa using hline
  simp only [Scope.setting, hdemand, ← hvoid]
  exact delivers_line hcode (exec_invoke hnames hcount _)

theorem typeOrVoid_of_type {e : Element} {t : Ty} (h : e.type = .ok t) : e.typeOrVoid = t := by
  simp [Element.typeOrVoid, h, Except.toOption]

theorem nameOrEmpty_of_name {e : Element} {name : String} (h : e.name = .ok name) :
    e.nameOrEmpty = name := by
  simp [Element.nameOrEmpty, h, Except.toOption]

/-- The lines of a call on an object. -/
theorem delivers_method (op : CallOp) {invocation : Invocation} (owner : String) {receiver : Element}
    {method : Option String} {args : List Element} {type : Ty} (hop : op ≠ .static)
    (hdemand : ∀ values, s.demand (.call invocation receiver method args type values) =
      .invoke op (s.internalName owner) (method.getD "None")
        (s.methodDescriptor (s.signature receiver method args type).1
          (s.signature receiver method args type).2) values)
    (hreceiver : receiver.Operand) (hargs : ∀ a ∈ args, a.Operand)
    (hlength : (s.signature receiver method args type).1.length = args.length)
    (hvoid : (s.signature receiver method args type).2 = .void ↔ type = .void)
    (hnames : ∀ t ∈ (s.signature receiver method args type).1, ';' ∉ (s.internalName t.name).toList)
    (h : runOn (do
      s.load receiver
      s.loadAll args
      s.invoke op owner receiver method args type) b = (.ok (), b')) (hcode : b'.lines <+: code) :
    Delivers code ask 1 (b.stage stack memory w)
      (runOn (do
        let object ← (s.setting ask).operand (s.method.read memory) receiver
        let values ← (s.setting ask).operands (s.method.read memory) args
        (s.setting ask).ask (.call invocation receiver method args type (object :: values))) w)
      fun v w' => b'.stage (if type = .void then stack else v :: stack) memory w' := by
  simp only [runOn_bind_eq_ok] at h
  obtain ⟨_, b₁, hobject, _, b₂, hload, hinvoke⟩ := h
  have hcode₂ : b₂.lines <+: code :=
    (s.adds_invoke _ _ _ _ _ _ b₂ _ b' hinvoke).lines_le.trans hcode
  have hcode₁ : b₁.lines <+: code := (s.adds_loadAll args b₁ _ b₂ hload).lines_le.trans hcode₂
  refine (delivers_load hreceiver hobject hcode₁).bind fun o w₁ _ => ?_
  refine (delivers_loadAll hargs hload hcode₂).bind fun vs w₂ hvs => ?_
  have hvalues : vs.reverse ++ o :: stack = (o :: vs).reverse ++ stack := by simp
  rw [hvalues]
  refine delivers_invoke (hdemand _) hnames ?_ hvoid hinvoke hcode
  simp [hop, hlength, length_of_operands hvs]

/-- The lines of a call, an allocation or a length push its value if it gives one. -/
theorem delivers_call {invocation : Invocation} {receiver : Element} {method : Option String}
    {args : List Element} {type : Ty} (hfits : s.CallFits invocation receiver method args type)
    (h : runOn (s.call invocation receiver method args type) b = (.ok (), b'))
    (hcode : b'.lines <+: code) :
    Delivers code ask 1 (b.stage stack memory w)
      (runOn ((s.setting ask).call (s.method.read memory) invocation receiver method args type) w)
      fun v w' => b'.stage (if type = .void then stack else v :: stack) memory w' := by
  cases invocation with
  | new =>
    obtain ⟨hvoid, hargs⟩ := hfits
    simp only [Scope.call, Setting.call] at h ⊢
    by_cases harray : type.isArray = true
    · simp only [harray, if_true] at h ⊢
      split at h
      · rename_i size
        simp only [runOn_bind_eq_ok] at h
        obtain ⟨_, b₁, hload, hline⟩ := h
        obtain rfl : _ = b' := by simpa using hline
        refine (delivers_load (hargs size (by simp)) hload ((List.prefix_append _ _).trans hcode)).bind
          fun v w₁ _ => ?_
        simp only [if_neg hvoid]
        refine delivers_line hcode ?_
        cases v <;> simp [Line.exec, Act.number, Scope.setting, Scope.demand]
      · simp at h
    · simp only [harray, Bool.false_eq_true, if_false] at h ⊢
      obtain rfl : _ = b' := by simpa using h
      simp only [if_neg hvoid]
      refine delivers_line hcode ?_
      simp [Line.exec, Scope.setting, Scope.demand]
  | arrayLength =>
    obtain ⟨hvoid, hreceiver⟩ := hfits
    simp only [Scope.call, runOn_bind_eq_ok] at h
    obtain ⟨_, b₁, hload, hline⟩ := h
    obtain rfl : _ = b' := by simpa using hline
    refine (delivers_load hreceiver hload ((List.prefix_append _ _).trans hcode)).bind fun v w₁ _ => ?_
    simp only [if_neg hvoid]
    refine delivers_line hcode ?_
    cases v <;> simp [Line.exec, Plain.exec, Setting.held, Scope.setting, Scope.demand, Ty.fits,
      Value.isReference, Ty.isIntLike, Ty.intArray]
  | static =>
    obtain ⟨hargs, -, hlength, hvoid, hnames⟩ := hfits
    simp only [Scope.call, runOn_bind_eq_ok, Emit.runOn_ofExcept, Prod.mk.injEq] at h
    obtain ⟨_, b₁, hload, owner, _, ⟨howner, rfl⟩, hinvoke⟩ := h
    have hcode₁ : b₁.lines <+: code :=
      (s.adds_invoke _ _ _ _ _ _ b₁ _ b' hinvoke).lines_le.trans hcode
    refine (delivers_loadAll hargs hload hcode₁).bind fun vs w₁ hvs => ?_
    refine delivers_invoke ?_ hnames ?_ hvoid hinvoke hcode
    · simp [Scope.demand, nameOrEmpty_of_name howner]
    · simp [hlength, length_of_operands hvs]
  | virtual =>
    obtain ⟨hargs, hreceiver, hlength, hvoid, hnames⟩ := hfits
    cases htype : receiver.type with
    | error e => simp [Scope.call, htype, runOn_bind_eq_ok] at h
    | ok t =>
      refine delivers_method .virtual t.name (by simp) ?_ (by simpa using hreceiver)
        hargs hlength hvoid hnames ?_ hcode
      · simp [Scope.demand, typeOrVoid_of_type htype]
      · simpa [Scope.call, htype, runOn_bind_eq_ok] using h
  | special =>
    obtain ⟨hargs, hreceiver, hlength, hvoid, hnames⟩ := hfits
    cases htype : receiver.type with
    | error e => simp [Scope.call, htype, runOn_bind_eq_ok] at h
    | ok t =>
      refine delivers_method .special t.name (by simp) ?_ (by simpa using hreceiver)
        hargs hlength hvoid hnames ?_ hcode
      · simp [Scope.demand, typeOrVoid_of_type htype]
      · simpa [Scope.call, htype, runOn_bind_eq_ok] using h

/-- Loading the first slot gives `this`. -/
theorem delivers_this {object : Element} (hthis : s.IsThis object)
    (h : runOn (Emit.slot .aload 0) b = (.ok (), b')) (hcode : b'.lines <+: code) :
    Delivers code ask 1 (b.stage stack memory w)
      (runOn ((s.setting ask).operand (s.method.read memory) object) w)
      fun v w' => b'.stage (v :: stack) memory w' := by
  obtain ⟨type, rfl, htype, hslot⟩ := hthis
  have hload : runOn (s.slot .aload "this") b = (.ok (), b') :=
    runOn_scopeSlot_eq_ok.2 ⟨0, hslot, Emit.runOn_slot_eq_ok.1 h⟩
  exact delivers_slot (by simp [htype]) hload hcode

theorem field_eq_ok {op : FieldOp} {f : Element} (h : runOn (s.field op f) b = (.ok (), b')) :
    b' = ⟨b.lines ++ [.field op s.program.className f.nameOrEmpty (s.descriptor f.typeOrVoid)],
      b.nextLabel⟩ := by
  simp only [Scope.field, runOn_bind_eq_ok, Emit.runOn_ofExcept, Prod.mk.injEq] at h
  obtain ⟨name, _, ⟨hname, rfl⟩, type, _, ⟨htype, rfl⟩, hline⟩ := h
  rw [nameOrEmpty_of_name hname, typeOrVoid_of_type htype]
  simpa [eq_comm] using hline

/-- The lines of an instruction compute its value, if it gives one. -/
theorem delivers_value {i : Instruction} (hlabels : (labelNames code).Nodup) (hfits : s.ValueFits i)
    (hvalue : Scope.GivesValue i) (h : runOn (s.value i) b = (.ok (), b')) (hcode : b'.lines <+: code) :
    Delivers code ask 1 (b.stage stack memory w)
      (runOn ((s.setting ask).value (s.method.read memory) i) w)
      fun v w' => b'.stage (v :: stack) memory w' := by
  cases i with
  | single e => exact delivers_load hfits h hcode
  | binary op left right type => exact delivers_binary hlabels hfits.1 hfits.2.1 h hcode type
  | unary op e type => exact delivers_unary hlabels hfits h hcode type
  | call invocation receiver method args type =>
    have hcall : Delivers code ask 1 (b.stage stack memory w) _ _ := delivers_call hfits h hcode
    have hvoid : type ≠ .void := hvalue
    simp only [if_neg hvoid] at hcall
    exact hcall
  | getField object f =>
    simp only [Scope.value, Scope.getField, runOn_bind_eq_ok] at h
    obtain ⟨_, b₁, hthis, hfield⟩ := h
    obtain rfl := field_eq_ok hfield
    refine (delivers_this hfits hthis ((List.prefix_append _ _).trans hcode)).bind fun o w₁ _ => ?_
    exact delivers_line hcode (by simp [Line.exec, Scope.setting, Scope.demand])
  | _ => simp [Scope.value] at h

end Jasmin
end JmmCompiler

import JmmCompiler.Proofs.AllocatedRun
import JmmCompiler.Proofs.Evaluation
import JmmCompiler.Proofs.Steps
/-! Three-address code as a machine. A finished method contains the sequence of instructions that it was
made from, labels included, and each instruction in it has one lemma that says where it leads. -/
namespace JmmCompiler

/-- The query that a request amounts to. Types are no part of it. -/
def Request.query : Request → Query
  | call .static (.classRef className _) method _ _ values => .invokeStatic className method values
  | call .static _ method _ _ values => .invokeStatic "" method values
  | call .special _ _ _ _ values => .construct (values.headD .null)
  | call _ _ method _ _ values => .invoke method (values.headD .null) values.tail
  | new type => .new type.name
  | newArray type size => .newArray type.name size
  | length array => .length array
  | load _ array index => .load array index
  | store _ array index value => .store array index value
  | getField field object => .getField (field.name.toOption.getD "") object
  | putField field object value => .putField (field.name.toOption.getD "") object value

/-- The setting in which requests are answered like queries. -/
def Query.setting {W : Type} (ask : Query → Act W Value) : Setting W where
  ask request := ask request.query

/-- The number of instructions of a sequence. Labels take no place in a method. -/
def size : List Instruction → Nat
  | [] => 0
  | .label _ :: is => size is
  | _ :: is => size is + 1

@[simp] theorem size_append (is js : List Instruction) : size (is ++ js) = size is + size js := by
  induction is with
  | nil => simp [size]
  | cons i is ih =>
    cases i with
    | label name => exact ih
    | _ => simp only [List.cons_append, size, ih]; omega

namespace CodeMethod
variable {W : Type} (m : CodeMethod) (ask : Query → Act W Value)

def next : Status Value W Outcome → Status Value W Outcome
  | .running c => m.step (Query.setting ask).meaning c
  | .halted result w => .halted result w

/-- The code of a method as a machine. -/
def machine : Machine (Status Value W Outcome) W where
  next := m.next ask
  trapped trap w := .halted (some (.trapped trap)) w
  next_trapped _ _ := rfl

/-- Before an instruction of the method, or behind the last one. -/
def place (pc : Nat) (memory : Int → Value) (w : W) : Status Value W Outcome :=
  if pc < m.code.length then .running ⟨pc, memory, w⟩ else .halted none w

/-- A sequence of instructions stands in a method from some place on. -/
def Contains (pc : Nat) : List Instruction → Prop
  | [] => True
  | .label name :: is => (m.labels.find? name = some pc ∧ pc < m.code.length) ∧ Contains pc is
  | i :: is => m.code[pc]? = some i ∧ Contains (pc + 1) is

theorem next_iterate (n : Nat) (c : MachineState Value W) :
    (m.next ask)^[n] (.running c) = (m.run (Query.setting ask).meaning n c).2 := by
  induction n generalizing c with
  | zero => rfl
  | succ n ih =>
    rw [Function.iterate_succ_apply, run]
    change (m.next ask)^[n] (m.step (Query.setting ask).meaning c) = _
    cases m.step (Query.setting ask).meaning c with
    | running c' => exact ih c'
    | halted result w => exact Function.iterate_fixed rfl n

section
variable {m} {pc : Nat} {is js : List Instruction} {i : Instruction}

theorem contains_append : m.Contains pc (is ++ js) ↔ m.Contains pc is ∧ m.Contains (pc + size is) js := by
  induction is generalizing pc with
  | nil => simp [Contains, size]
  | cons i is ih =>
    cases i with
    | label name => simp only [List.cons_append, Contains, size, ih, and_assoc]
    | _ =>
      simp only [List.cons_append, Contains, size, ih, and_assoc]
      rw [Nat.add_right_comm, Nat.add_assoc]

end

/-! ## How a method is made -/

/-- A method that is being made becomes a finished one: its instructions and labels stay, and the labels
that wait go to the next instruction. -/
structure Becomes (m₀ m : CodeMethod) : Prop where
  code : m₀.code <+: m.code
  labels : ∀ name pc, m₀.labels.find? name = some pc → m.labels.find? name = some pc
  pending : ∀ name ∈ m₀.pending,
    m.labels.find? name = some m₀.code.length ∧ m₀.code.length < m.code.length

/-- No label that waits has a place already. -/
def Waiting : Prop := ∀ name ∈ m.pending, m.labels.find? name = none

section
variable {m} {m₀ m₁ : CodeMethod} {i : Instruction}

theorem find?_foldl_insert (labels : Assoc Nat) (names : List String) (pc : Nat) (name : String) :
    (names.foldl (fun labels l => labels.insert l pc) labels).find? name =
      if name ∈ names then some pc else labels.find? name := by
  induction names generalizing labels with
  | nil => simp
  | cons x xs ih =>
    rw [List.foldl_cons, ih, Assoc.find?_insert]
    by_cases hx : x = name
    · simp [hx]
    · simp [hx, Ne.symm hx]

theorem becomes_of_addInstruction (hwaiting : m₀.Waiting) (h : (m₀.addInstruction i).Becomes m) :
    m₀.Becomes m ∧ m.code[m₀.code.length]? = some i := by
  have hi : m.code[m₀.code.length]? = some i := by
    obtain ⟨rest, hrest⟩ := h.code
    simp [← hrest, addInstruction]
  have hlabels : ∀ name, (m₀.addInstruction i).labels.find? name =
      if name ∈ m₀.pending then some m₀.code.length else m₀.labels.find? name :=
    find?_foldl_insert m₀.labels m₀.pending m₀.code.length
  refine ⟨⟨(List.prefix_append _ _).trans h.code, fun name pc hname => ?_, fun name hname => ?_⟩, hi⟩
  · refine h.labels name pc ?_
    rw [hlabels, if_neg]
    · exact hname
    · intro hpending
      simp [hwaiting name hpending] at hname
  · refine ⟨h.labels name _ ?_, (List.getElem?_eq_some_iff.1 hi).1⟩
    rw [hlabels, if_pos hname]

/-- A sequence of instructions that was added to a method is contained in what becomes of it. -/
theorem contains_of_extend {is : List Instruction} (hwaiting : m₀.Waiting)
    (hextend : m₀.extend is = .ok m₁) (h : m₁.Waiting → m₁.Becomes m) :
    m₀.Becomes m ∧ m.Contains m₀.code.length is := by
  induction is generalizing m₀ with
  | nil =>
    obtain rfl : m₀ = m₁ := by simpa [extend] using hextend
    exact ⟨h hwaiting, trivial⟩
  | cons i is ih =>
    simp only [extend, List.foldlM_cons, bind_eq_ok] at hextend
    obtain ⟨m₂, hadd, hrest⟩ := hextend
    by_cases hlabel : ∃ name, i = .label name
    · obtain ⟨name, rfl⟩ := hlabel
      simp only [add, addLabel] at hadd
      split at hadd
      · simp at hadd
      rename_i hnew
      simp only [Bool.or_eq_true, not_or] at hnew
      obtain rfl : { m₀ with pending := m₀.pending ++ [name] } = m₂ := by simpa using hadd
      have hwaiting₂ : ({ m₀ with pending := m₀.pending ++ [name] } : CodeMethod).Waiting := by
        intro x hx
        rcases List.mem_append.1 hx with hx | hx
        · exact hwaiting x hx
        · obtain rfl := List.mem_singleton.1 hx
          exact Assoc.not_contains_iff.1 hnew.1
      obtain ⟨hbecomes, hcontains⟩ := ih hwaiting₂ hrest
      refine ⟨⟨hbecomes.code, hbecomes.labels, fun x hx => hbecomes.pending x (by simp [hx])⟩, ?_, hcontains⟩
      exact hbecomes.pending name (by simp)
    · have hadd' : m₀.add i = .ok (m₀.addInstruction i) := by
        cases i with
        | label name => exact absurd ⟨name, rfl⟩ hlabel
        | _ => rfl
      obtain rfl : m₀.addInstruction i = m₂ := by simpa [hadd'] using hadd
      have hwaiting₂ : (m₀.addInstruction i).Waiting := by simp [Waiting, addInstruction]
      obtain ⟨hbecomes, hcontains⟩ := ih hwaiting₂ hrest
      obtain ⟨hbecomes₀, hi⟩ := becomes_of_addInstruction hwaiting hbecomes
      have hlength : (m₀.addInstruction i).code.length = m₀.code.length + 1 := by simp [addInstruction]
      rw [hlength] at hcontains
      refine ⟨hbecomes₀, ?_⟩
      cases i with
      | label name => exact absurd ⟨name, rfl⟩ hlabel
      | _ => exact ⟨hi, hcontains⟩

theorem becomes_of_finish (hwaiting : m₀.Waiting) (h : m₀.finish = .ok m) : m₀.Becomes m := by
  unfold finish assignSlots at h
  simp only [bind_eq_ok, pure_eq_ok] at h
  obtain ⟨names, -, rfl⟩ := h
  by_cases hpending : m₀.pending = []
  · simp only [hpending, List.isEmpty_nil, if_true]
    exact ⟨List.prefix_refl _, fun _ _ h => h, by simp [hpending]⟩
  · simp only [List.isEmpty_iff, hpending, if_false]
    refine (becomes_of_addInstruction (i := .nop) hwaiting ?_).1
    exact ⟨List.prefix_refl _, fun _ _ h => h, by simp [addInstruction]⟩

end

/-! ## Steps -/

/-- Where an instruction leads, given the choice among its exits. -/
def follow (pc choice : Nat) (memory : Int → Value) (w : W) : Status Value W Outcome :=
  match m.successors pc with
  | .ok successors =>
    match successors[choice]? with
    | some pc => .running ⟨pc, memory, w⟩
    | none => .halted none w
  | .error _ => .halted none w

def after (pc : Nat) (memory : Int → Value) : Value × Exit Outcome → W → Status Value W Outcome
  | (value, .follow choice), w =>
    m.follow pc choice (m.writeAll memory (m.namesAt Instruction.defs pc) value) w
  | (_, .stop outcome), w => .halted (some outcome) w

section
variable {m ask} {α : Type} {pc target : Nat} {memory : Int → Value} {w : W} {i : Instruction}

theorem place_of_getElem? (hi : m.code[pc]? = some i) : m.place pc memory w = .running ⟨pc, memory, w⟩ :=
  if_pos (List.getElem?_eq_some_iff.1 hi).1

theorem follow_next (hi : m.code[pc]? = some i) (hexits : m.exits i = .ok ([], true)) :
    m.follow pc 0 memory w = m.place (pc + 1) memory w := by
  have hsuccessors : m.successors pc = .ok (if pc + 1 < m.code.length then [pc + 1] else []) := by
    simp [successors, hi, hexits]
  unfold follow place
  rw [hsuccessors]
  by_cases hnext : pc + 1 < m.code.length
  · simp [hnext]
  · simp [hnext]

theorem follow_goto {label : String} (hi : m.code[pc]? = some (.goto label))
    (hlabel : m.labels.find? label = some target) (htarget : target < m.code.length) :
    m.follow pc 0 memory w = m.place target memory w := by
  have hsuccessors : m.successors pc = .ok [target] := by
    simp [successors, hi, exits, labelIndex, hlabel]
  simp [follow, hsuccessors, place, htarget]

theorem follow_branch {condition : Instruction} {label : String}
    (hi : m.code[pc]? = some (.branch condition label)) (hlabel : m.labels.find? label = some target)
    (htarget : target < m.code.length) (taken : Bool) :
    m.follow pc (if taken then 0 else 1) memory w = m.place (if taken then target else pc + 1) memory w := by
  have hsuccessors : m.successors pc =
      .ok (target :: if pc + 1 < m.code.length then [pc + 1] else []) := by
    simp [successors, hi, exits, labelIndex, hlabel]
  unfold follow place
  rw [hsuccessors]
  cases taken with
  | true => simp [htarget]
  | false =>
    by_cases hnext : pc + 1 < m.code.length
    · simp [hnext]
    · simp [hnext]

/-- An instruction delivers the computation that it consists of. -/
theorem delivers_act {x : Act W α} {exit : α → Value × Exit Outcome} (hi : m.code[pc]? = some i)
    (hact : (Query.setting ask).act (m.read memory) i = (do
      let a ← x
      pure (exit a))) :
    (m.machine ask).Delivers 1 (m.place pc memory w) (runOn x w) fun a w' s =>
      s = m.after pc memory (exit a) w' := by
  have hstep : (m.machine ask).Reaches 1 _ (m.step (Query.setting ask).meaning ⟨pc, memory, w⟩) :=
    Machine.Reaches.step (Status.running ⟨pc, memory, w⟩)
  rw [place_of_getElem? hi]
  simp only [step, hi, Setting.meaning, hact, runOn_bind] at hstep
  rcases hr : runOn x w with ⟨trap | a, w'⟩
  · rw [hr] at hstep
    exact fun _ => hstep
  · rw [hr] at hstep
    refine ⟨_, hstep, ?_⟩
    rcases hexit : exit a with ⟨v, choice | outcome⟩
    · simp only [runOn_pure, Setting.effect, hexit, after, follow]
      cases m.successors pc <;> rfl
    · simp only [runOn_pure, Setting.effect, hexit, after]

/-- An assignment to a variable. -/
theorem delivers_assign {name : String} {type : Ty} (hi : m.code[pc]? = some (.assign (.var name type) i)) :
    (m.machine ask).Delivers 1 (m.place pc memory w)
      (runOn ((Query.setting ask).value (m.read memory) i) w) fun v w' s =>
        s = m.place (pc + 1) (m.write memory name v) w' := by
  have hnames : m.namesAt Instruction.defs pc = [name] := by
    simp [namesAt, hi, Instruction.defs, Element.name, pure, Except.pure, bind, Except.bind]
  have hact : (Query.setting ask).act (m.read memory) (.assign (.var name type) i) = (do
      let v ← (Query.setting ask).value (m.read memory) i
      pure (v, .follow 0)) := by
    simp [Setting.act, Setting.held, Query.setting]
  have h : (m.machine ask).Delivers 1 (m.place pc memory w) (runOn _ w) _ := delivers_act hi hact
  simpa only [after, follow_next hi rfl, hnames, writeAll, List.foldl_cons, List.foldl_nil] using h

/-- An instruction that defines no variable and does not jump. -/
theorem delivers_effect {x : Act W α} {value : α → Value} (hi : m.code[pc]? = some i)
    (hexits : m.exits i = .ok ([], true)) (hdefs : i.defs = .ok [])
    (hact : (Query.setting ask).act (m.read memory) i = (do
      let a ← x
      pure (value a, .follow 0))) :
    (m.machine ask).Delivers 1 (m.place pc memory w) (runOn x w) fun _ w' s =>
      s = m.place (pc + 1) memory w' := by
  have hnames : m.namesAt Instruction.defs pc = [] := by simp [namesAt, hi, hdefs]
  have h : (m.machine ask).Delivers 1 (m.place pc memory w) (runOn _ w) _ := delivers_act hi hact
  simpa only [after, follow_next hi hexits, hnames, writeAll, List.foldl_nil] using h

theorem reaches_goto {label : String} (hi : m.code[pc]? = some (.goto label))
    (hlabel : m.labels.find? label = some target) (htarget : target < m.code.length) :
    (m.machine ask).Reaches 1 (m.place pc memory w) (m.place target memory w) := by
  have h : (m.machine ask).Delivers 1 (m.place pc memory w) (runOn (pure () : Act W Unit) w) fun _ w' s =>
      s = m.after pc memory (.null, .follow 0) w' := delivers_act hi rfl
  obtain ⟨s, hreaches, rfl⟩ := h
  have hnames : m.namesAt Instruction.defs pc = [] := by simp [namesAt, hi, Instruction.defs]
  simpa only [after, follow_goto hi hlabel htarget, hnames, writeAll, List.foldl_nil] using hreaches

/-- A conditional jump goes to its label when its condition is true. -/
theorem delivers_branch {condition : Instruction} {label : String}
    (hi : m.code[pc]? = some (.branch condition label)) (hlabel : m.labels.find? label = some target)
    (htarget : target < m.code.length) :
    (m.machine ask).Delivers 1 (m.place pc memory w)
      (runOn (do Act.truth (← (Query.setting ask).value (m.read memory) condition)) w) fun taken w' s =>
        s = m.place (if taken then target else pc + 1) memory w' := by
  have hnames : m.namesAt Instruction.defs pc = [] := by simp [namesAt, hi, Instruction.defs]
  have hact : (Query.setting ask).act (m.read memory) (.branch condition label) = (do
      let r ← (do
        let v ← (Query.setting ask).value (m.read memory) condition
        let taken ← Act.truth v
        pure (v, taken))
      pure (r.1, .follow (if r.2 then 0 else 1))) := by
    simp [Setting.act]
  have h : (m.machine ask).Delivers 1 (m.place pc memory w) (runOn _ w) _ := delivers_act hi hact
  simp only [after, follow_branch hi hlabel htarget, hnames, writeAll, List.foldl_nil] at h
  have hpair : ∀ x : Act W Value, (do Act.truth (← x)) = (do
      let r ← (do
        let v ← x
        let taken ← Act.truth v
        pure (v, taken))
      pure r.2) := fun x => by simp
  rw [hpair]
  refine (Machine.Delivers.bind h ?_).weaken (Nat.le_add_right 1 0)
  rintro r w' _ _ rfl
  exact Machine.Delivers.pure r.2 rfl

/-- A return of a value, which in a void method returns none. -/
theorem delivers_ret {e : Element} {type : Ty} (hi : m.code[pc]? = some (.ret e type)) (he : e ≠ .absent) :
    (m.machine ask).Delivers 1 (m.place pc memory w)
      (runOn (if type = .void then pure .null else (Query.setting ask).operand (m.read memory) e) w) fun v w' s =>
        s = .halted (some (.returned (if type = .void then none else some v))) w' := by
  have hact : (Query.setting ask).act (m.read memory) (.ret e type) = (do
      let v ← (if type = .void then pure .null else (Query.setting ask).operand (m.read memory) e)
      pure (v, .stop (.returned (if type = .void then none else some v)))) := by
    by_cases htype : type = .void
    · simp [Setting.act, htype]
    · simp [Setting.act, htype, he, Setting.held, Query.setting]
  exact delivers_act hi hact

end
end CodeMethod
end JmmCompiler

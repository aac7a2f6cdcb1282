import JmmCompiler.Jasmin.Limits
import JmmCompiler.Proofs.EmittedReturns
import JmmCompiler.Proofs.WrittenLines
/-! How deep the operand stack is. Every line takes values from the stack and puts values there, so that each path to a
line gives a depth. In emitted code the depth does not depend on the path: between instructions the stack is empty, and
it is empty at every label but the one behind a truth value. -/
namespace JmmCompiler.Jasmin

/-- How many values an instruction takes from the stack and how many it puts there, if it is a known one. -/
def Plain.effect? : Plain → Option (Nat × Nat)
  | .iadd | .isub | .imul | .idiv | .iand | .ior | .iaload | .baload | .aaload => some (2, 1)
  | .iastore | .bastore | .aastore => some (3, 0)
  | .arrayLength => some (1, 1)
  | .pop | .iret | .aret => some (1, 0)
  | .nop | .ret => some (0, 0)
  | .other _ => none

namespace Line

/-- How many values a line takes from the stack and how many it puts there. A call takes its receiver and one value for
each parameter of its descriptor, and gives one unless that returns none. -/
def effect? : Line → Option (Nat × Nat)
  | label _ | increment .. | goto _ => some (0, 0)
  | const _ | new _ | slot .iload _ | slot .aload _ => some (0, 1)
  | slot .istore _ | slot .astore _ | jump .zero _ _ => some (1, 0)
  | jump .ints _ _ | jump .refs _ _ | field .put .. => some (2, 0)
  | newArray _ | field .get .. => some (1, 1)
  | plain op => op.effect?
  | invoke op _ _ descriptor => (readDescriptor descriptor).map fun r =>
      (if op = .static then r.1 else r.1 + 1, if r.2 then 1 else 0)

end Line

/-- The depths of the stack with which paths through a body get to a line. -/
inductive Depths (code : List Line) : Nat → Int → Prop
  | start : Depths code 0 0
  | next {pc pops pushes : Nat} {d : Int} {l : Line} (h : Depths code pc d) (hl : code[pc]? = some l)
      (heffect : l.effect? = some (pops, pushes)) (hnext : l.continues = true) : Depths code (pc + 1) (d - pops + pushes)
  | jump {pc pc' pops pushes : Nat} {d : Int} {l : Line} {name : String} (h : Depths code pc d)
      (hl : code[pc]? = some l) (heffect : l.effect? = some (pops, pushes)) (hname : l.target? = some name)
      (hplace : target code name = some pc') : Depths code pc' (d - pops + pushes)

/-- The depth at a label: one behind a truth value, and none elsewhere. -/
inductive RestsAt : String → Nat → Prop
  | value (i : Nat) : RestsAt ("j_end_" ++ toString i) 1
  | empty {name : String} (h : ∀ i : Nat, name ≠ "j_end_" ++ toString i) : RestsAt name 0

theorem RestsAt.unique {name : String} {d d' : Nat} (h : RestsAt name d) (h' : RestsAt name d') : d = d' := by
  cases h with
  | value i =>
    generalize hname : "j_end_" ++ toString i = name at h'
    cases h' with
    | value j => rfl
    | empty hne => exact absurd hname.symm (hne i)
  | empty hne =>
    cases h' with
    | value i => exact absurd rfl (hne i)
    | empty hne' => rfl

/-- A label that is not made up. -/
theorem RestsAt.of_apart {name : String} (h : ∀ i, name ∉ madeUp i) : RestsAt name 0 := by
  refine .empty fun i hname => h i ?_
  simp [hname, madeUp]

namespace Line

/-- The depth behind a line, which is none where control does not get there. -/
def settle (d : Nat) (l : Line) : Nat :=
  if l.continues then d - (l.effect?.getD (0, 0)).1 + (l.effect?.getD (0, 0)).2 else 0

/-- A line that can run at a depth within the limits of a method: it finds the values that it takes, and labels and jumps
agree with the depths at labels. -/
structure Runs (m : CodeMethod) (d : Nat) (l : Line) : Prop where
  effect : ∃ pops pushes, l.effect? = some (pops, pushes) ∧ pops ≤ d ∧ d - pops + pushes ≤ m.stackLimit ∧
    ∀ name, l.target? = some name → RestsAt name (d - pops + pushes)
  label : ∀ name, l = .label name → RestsAt name d
  slot : ∀ n, l.slot? = some n → n < m.localsLimit

end Line

/-- Lines that run one after the other from a depth to another. -/
inductive Levels (m : CodeMethod) : Nat → List Line → Nat → Prop
  | nil (d : Nat) : Levels m d [] d
  | cons {d d' : Nat} {l : Line} {lines : List Line} (h : l.Runs m d) (hrest : Levels m (l.settle d) lines d') :
      Levels m d (l :: lines) d'

/-- The depth at a line when the lines before it run one after the other. -/
def depthAt (lines : List Line) (pc : Nat) : Nat := (lines.take pc).foldl Line.settle 0

namespace Levels
variable {m : CodeMethod} {d d' d'' : Nat} {l : Line} {lines lines' : List Line}

theorem append (h : Levels m d lines d') (h' : Levels m d' lines' d'') : Levels m d (lines ++ lines') d'' := by
  induction h with
  | nil d => exact h'
  | cons hl hrest ih => exact .cons hl (ih h')

theorem single (h : l.Runs m d) : Levels m d [l] (l.settle d) := .cons h (.nil _)

theorem foldl_eq (h : Levels m d lines d') : lines.foldl Line.settle d = d' := by
  induction h with
  | nil d => rfl
  | cons hl hrest ih => exact ih

theorem runs (h : Levels m d lines d') {pc : Nat} (hl : lines[pc]? = some l) :
    l.Runs m ((lines.take pc).foldl Line.settle d) := by
  induction h generalizing pc with
  | nil d => simp at hl
  | cons hfirst hrest ih =>
    cases pc with
    | zero =>
      obtain rfl := Option.some.inj hl
      exact hfirst
    | succ pc => exact ih hl

theorem depth_le (h : Levels m d lines d') (hd : d ≤ m.stackLimit) (pc : Nat) :
    (lines.take pc).foldl Line.settle d ≤ m.stackLimit := by
  induction h generalizing pc with
  | nil d => simpa using hd
  | cons hfirst hrest ih =>
    cases pc with
    | zero => exact hd
    | succ pc =>
      refine ih ?_ pc
      obtain ⟨pops, pushes, heffect, -, hle, -⟩ := hfirst.effect
      unfold Line.settle
      split
      · simpa [heffect] using hle
      · exact Nat.zero_le _

/-- Every path gets to a line with the depth there. -/
theorem depth_eq (h : Levels m 0 lines d') {pc : Nat} {depth : Int} (hpath : Depths lines pc depth) :
    depth = depthAt lines pc := by
  induction hpath with
  | start => rfl
  | @next pc pops pushes depth l _ hl heffect hnext ih =>
    subst ih
    obtain ⟨pops', pushes', heffect', hle, -⟩ := (h.runs hl).effect
    obtain ⟨rfl, rfl⟩ := Prod.mk.inj (Option.some.inj (heffect.symm.trans heffect'))
    have hsettle : depthAt lines (pc + 1) = depthAt lines pc - pops + pushes := by
      rw [depthAt, List.take_add_one, hl, Option.toList_some, List.foldl_append]
      simp [Line.settle, hnext, heffect, depthAt]
    have hfound : pops ≤ depthAt lines pc := hle
    omega
  | @jump pc pc' pops pushes depth l name _ hl heffect hname hplace ih =>
    subst ih
    obtain ⟨pops', pushes', heffect', hle, -, hjump⟩ := (h.runs hl).effect
    obtain ⟨rfl, rfl⟩ := Prod.mk.inj (Option.some.inj (heffect.symm.trans heffect'))
    obtain ⟨hlt, hget, -⟩ := List.idxOf?_eq_some_iff.1 hplace
    have hrests := (h.runs (List.getElem?_eq_some_iff.2 ⟨hlt, hget⟩)).label name rfl
    have hsame : depthAt lines pc - pops + pushes = depthAt lines pc' := (hjump name hname).unique hrests
    have hfound : pops ≤ depthAt lines pc := hle
    omega

end Levels

/-! ## Emission -/

namespace Emit
variable {α β : Type} {m : CodeMethod} {d d' d'' : Nat} {f : Emit α} {g : α → Emit β} {l : Line}

/-- What an emission that succeeds adds to a body runs from a depth to another. -/
def Lifts (m : CodeMethod) (d d' : Nat) (f : Emit α) : Prop :=
  ∀ b a b', runOn f b = (.ok a, b') → ∃ added, b'.lines = b.lines ++ added ∧ Levels m d added d'

theorem lifts_pure (a : α) : Lifts m d d (pure a : Emit α) := by
  intro b a' b' h
  simp only [runOn_pure, Prod.mk.injEq] at h
  obtain ⟨-, rfl⟩ := h
  exact ⟨[], by simp, .nil d⟩

theorem lifts_throw (e : Failure) : Lifts m d d' (throw e : Emit α) := by
  intro b a b' h
  simp at h

theorem Lifts.bind (hf : Lifts m d d' f) (hg : ∀ a, Lifts m d' d'' (g a)) : Lifts m d d'' (f >>= g) := by
  intro b c b'' h
  obtain ⟨a, b', hfa, hga⟩ := runOn_bind_eq_ok.1 h
  obtain ⟨added, hlines, hlevels⟩ := hf b a b' hfa
  obtain ⟨added', hlines', hlevels'⟩ := hg a b' c b'' hga
  exact ⟨added ++ added', by rw [hlines', hlines, List.append_assoc], hlevels.append hlevels'⟩

/-- A result that does not touch the body is known afterwards. -/
theorem Lifts.known {x : Except Failure α} (h : ∀ a, x = .ok a → Lifts m d d' (g a)) :
    Lifts m d d' (ofExcept x >>= g) := by
  intro b c b' hrun
  obtain ⟨a, b₁, hx, hrest⟩ := runOn_bind_eq_ok.1 hrun
  simp only [runOn_ofExcept, Prod.mk.injEq] at hx
  obtain ⟨rfl, rfl⟩ := hx
  exact h a rfl b c b' hrest

theorem lifts_line (h : l.Runs m d) (hd : l.settle d = d') : Lifts m d d' (line l) := by
  intro b a b' hrun
  simp only [runOn_line, Prod.mk.injEq] at hrun
  obtain ⟨-, rfl⟩ := hrun
  exact ⟨[l], rfl, hd ▸ .single h⟩

/-- A line that is neither a label nor a jump and names no slot. -/
theorem lifts_step {pops pushes : Nat} (heffect : l.effect? = some (pops, pushes)) (hcontinues : l.continues = true)
    (hlabel : ∀ name, l ≠ .label name) (htarget : l.target? = none) (hslot : l.slot? = none) (hpops : pops ≤ d)
    (hd : d - pops + pushes = d') (hlimit : d' ≤ m.stackLimit) : Lifts m d d' (line l) := by
  refine lifts_line ⟨⟨pops, pushes, heffect, hpops, hd ▸ hlimit, by simp [htarget]⟩, fun name hname => ?_, by simp [hslot]⟩ ?_
  · exact absurd hname (hlabel name)
  · simp [Line.settle, hcontinues, heffect, hd]

theorem lifts_const (n : Int) (hlimit : d + 1 ≤ m.stackLimit) : Lifts m d (d + 1) (line (.const n)) :=
  lifts_step rfl rfl (by simp) rfl rfl (Nat.zero_le d) rfl hlimit

theorem lifts_plain {op : Plain} {pops pushes : Nat} (heffect : op.effect? = some (pops, pushes))
    (hcontinues : (Line.plain op).continues = true) (hpops : pops ≤ d) (hd : d - pops + pushes = d')
    (hlimit : d' ≤ m.stackLimit) : Lifts m d d' (plain op) :=
  lifts_step heffect hcontinues (by simp) rfl rfl hpops hd hlimit

/-- A load pushes the value of a slot. -/
theorem lifts_slot_load {op : SlotOp} (hop : op = .iload ∨ op = .aload) {n : Int} (hn : n < m.localsLimit)
    (hlimit : d + 1 ≤ m.stackLimit) : Lifts m d (d + 1) (slot op n) := by
  have heffect : (Line.slot op n).effect? = some (0, 1) := by rcases hop with rfl | rfl <;> rfl
  unfold slot
  split
  · exact lifts_throw _
  · refine lifts_line ⟨⟨0, 1, heffect, Nat.zero_le d, hlimit, by simp [Line.target?]⟩, by simp, ?_⟩ ?_
    · rintro k hk
      exact Option.some.inj hk ▸ hn
    · simp [Line.settle, heffect, Line.continues, Line.isReturn]

theorem lifts_slot_store {op : SlotOp} (hop : op = .istore ∨ op = .astore) {n : Int} (hn : n < m.localsLimit)
    (hlimit : d ≤ m.stackLimit) : Lifts m (d + 1) d (slot op n) := by
  have heffect : (Line.slot op n).effect? = some (1, 0) := by rcases hop with rfl | rfl <;> rfl
  unfold slot
  split
  · exact lifts_throw _
  · refine lifts_line ⟨⟨1, 0, heffect, by omega, by omega, by simp [Line.target?]⟩, by simp, ?_⟩ ?_
    · rintro k hk
      exact Option.some.inj hk ▸ hn
    · simp [Line.settle, heffect, Line.continues, Line.isReturn]

theorem lifts_increment {n : Int} (hn : n < m.localsLimit) (amount : Int) (hd : d ≤ m.stackLimit) :
    Lifts m d d (increment n amount) := by
  unfold increment
  split
  · refine lifts_line ⟨⟨0, 0, rfl, Nat.zero_le d, hd, by simp [Line.target?]⟩, by simp, ?_⟩ rfl
    rintro k hk
    exact Option.some.inj hk ▸ hn
  · exact lifts_throw _

/-- A jump takes what it compares. -/
theorem lifts_jump (compared : Compared) (op : Comparison) {label : String} (hlabel : RestsAt label 0)
    (hd : d = if compared = .zero then 1 else 2) : Lifts m d 0 (line (.jump compared op label)) := by
  have heffect : (Line.jump compared op label).effect? = some (d, 0) := by cases compared <;> (subst hd; rfl)
  refine lifts_line ⟨⟨d, 0, heffect, Nat.le_refl d, by simp, ?_⟩, by simp, by simp [Line.slot?]⟩ ?_
  · rintro name hname
    obtain rfl := Option.some.inj hname
    simpa using hlabel
  · simp [Line.settle, heffect]

theorem lifts_numberJump (compared : Compared) (op : String) {label : String} (hlabel : RestsAt label 0)
    (hd : d = if compared = .zero then 1 else 2) : Lifts m d 0 (numberJump compared op label) := by
  unfold numberJump
  split
  · exact lifts_jump compared _ hlabel hd
  · exact lifts_throw _

theorem lifts_referenceJump (op : String) {label : String} (hlabel : RestsAt label 0) :
    Lifts m 2 0 (referenceJump op label) := by
  unfold referenceJump
  split
  · exact lifts_jump _ _ hlabel rfl
  · exact lifts_jump _ _ hlabel rfl
  · exact lifts_throw _

end Emit

end JmmCompiler.Jasmin

/-! ## Values -/

namespace JmmCompiler

/-- An element whose index, if it has one, is no element of an array. -/
def Element.IsFlat : Element → Prop
  | .item _ _ index => index.isItem = false
  | _ => True

namespace Jasmin.Scope
open Emit
variable (s : Scope)

/-- A call whose descriptor has a parameter for each argument, and gives a value exactly if its type says so. -/
def CallAgrees (invocation : Invocation) (receiver : Element) (method : Option String) (args : List Element)
    (type : Ty) : Prop :=
  if invocation = .new ∨ invocation = .arrayLength then type ≠ .void
  else ∀ descriptor, s.callDescriptor receiver method args type = .ok descriptor →
    readDescriptor descriptor = some (args.length, decide (type ≠ .void))

/-- A value whose operands are flat. Fields are those of `this`, which a static method lacks. -/
def IsFlat : Instruction → Prop
  | .single e | .unary _ e _ => e.IsFlat
  | .binary _ left right _ => left.IsFlat ∧ right.IsFlat
  | .call invocation receiver method args type =>
    receiver.IsFlat ∧ (∀ a ∈ args, a.IsFlat) ∧ s.CallAgrees invocation receiver method args type
  | .getField _ _ => s.method.isStatic = false
  | _ => True

/-- A value that is pushed, which a void call is not. -/
def IsPushed : Instruction → Prop
  | .call _ _ _ _ type => type ≠ .void
  | _ => True

/-- An instruction whose operands are flat. What is stored into an array is an element as it is. -/
def InstructionIsFlat : Instruction → Prop
  | .assign (.item _ _ index) i => index.isItem = false ∧ ∃ e, i = .single e ∧ e.IsFlat
  | .assign _ i | .branch i _ => s.IsFlat i ∧ IsPushed i
  | .putField _ _ e => e.IsFlat ∧ s.method.isStatic = false
  | .ret e _ => e.IsFlat
  | i => s.IsFlat i

variable {s} {d : Nat}

theorem find?_lt_localsLimit {m : CodeMethod} {name : String} {n : Int} (h : m.slots.find? name = some n) :
    n < m.localsLimit := by
  have hle := Slots.le_highest h
  unfold CodeMethod.localsLimit
  omega

theorem lifts_slot_load {op : SlotOp} (hop : op = .iload ∨ op = .aload) (name : String)
    (hlimit : d + 1 ≤ s.method.stackLimit) : Lifts s.method d (d + 1) (s.slot op name) :=
  .known fun _ hn => Emit.lifts_slot_load hop (find?_lt_localsLimit (slot_eq_ok.1 hn)) hlimit

theorem arrayLoad_effect (type : Ty) :
    (arrayLoad type).effect? = some (2, 1) ∧ (Line.plain (arrayLoad type)).continues = true := by
  unfold arrayLoad
  split
  · exact ⟨rfl, rfl⟩
  · split <;> exact ⟨rfl, rfl⟩

theorem lifts_load {e : Element} (he : e.IsFlat) (hlimit : d + Instruction.loadDepth e ≤ s.method.stackLimit) :
    Lifts s.method d (d + 1) (s.load e) := by
  have hshallow {e : Element} (hitem : e.isItem = false) {d : Nat} (hlimit : d + 1 ≤ s.method.stackLimit) :
      Lifts s.method d (d + 1) (s.load e) := by
    cases e with
    | literal _ _ => exact lifts_const _ hlimit
    | var name type => exact lifts_slot_load (by split <;> simp) name hlimit
    | classRef name type => exact lifts_throw _
    | item array type index => cases hitem
    | absent => exact lifts_throw _
  by_cases hitem : e.isItem = true
  · cases e with
    | item array type index =>
      obtain ⟨heffect, hcontinues⟩ := arrayLoad_effect type
      simp only [Instruction.loadDepth, Element.isItem, if_true] at hlimit
      refine (lifts_slot_load (.inr rfl) array (by omega)).bind fun _ => (hshallow he (by omega)).bind fun _ => ?_
      exact lifts_plain heffect hcontinues (by omega) (by omega) (by omega)
    | _ => cases hitem
  · rw [Bool.not_eq_true] at hitem
    simp only [Instruction.loadDepth, hitem, Bool.false_eq_true, if_false] at hlimit
    exact hshallow hitem hlimit

theorem loadDepth_le (e : Element) : Instruction.loadDepth e ≤ 2 := by
  unfold Instruction.loadDepth
  split <;> omega

theorem lifts_loadAll {es : List Element} (hes : ∀ e ∈ es, e.IsFlat) (hlimit : d + es.length + 1 ≤ s.method.stackLimit) :
    Lifts s.method d (d + es.length) (s.loadAll es) := by
  induction es generalizing d with
  | nil => exact lifts_pure _
  | cons e es ih =>
    obtain ⟨he, hrest⟩ := List.forall_mem_cons.1 hes
    have hdepth := loadDepth_le e
    simp only [List.length_cons] at hlimit ⊢
    rw [show d + (es.length + 1) = d + 1 + es.length by omega]
    exact (lifts_load he (by omega)).bind fun _ => ih hrest (by omega)

theorem lifts_store (dest : Element) (hlimit : d ≤ s.method.stackLimit) : Lifts s.method (d + 1) d (s.store dest) :=
  .known fun _ _ => .known fun n hn => .known fun _ _ =>
    lifts_slot_store (by split <;> simp) (find?_lt_localsLimit (slot_eq_ok.1 hn)) hlimit

theorem lifts_compareJump (op : String) {left right : Element} (hleft : left.IsFlat) (hright : right.IsFlat)
    (hlimit : max (Instruction.loadDepth left) (1 + Instruction.loadDepth right) ≤ s.method.stackLimit) {label : String}
    (hlabel : RestsAt label 0) : Lifts s.method 0 0 (s.compareJump op left right label) := by
  unfold compareJump
  refine (lifts_load hleft (by omega)).bind fun _ => .known fun type _ => ?_
  split
  · exact (lifts_load hright (by omega)).bind fun _ => lifts_referenceJump op hlabel
  · split
    · exact lifts_numberJump _ op hlabel rfl
    · exact (lifts_load hright (by omega)).bind fun _ => lifts_numberJump _ op hlabel rfl

/-- Pushing the outcome of a jump leaves one value behind. -/
theorem lifts_boolean {f : String → Emit Unit} (hlimit : 1 ≤ s.method.stackLimit)
    (hf : ∀ label, RestsAt label 0 → Lifts s.method 0 0 (f label)) :
    Lifts s.method 0 1 (do
      let label ← newLabel "j_true"
      f label
      booleanResult label) := by
  intro b a b' h
  obtain ⟨b₂, hjump, rfl⟩ := runOn_boolean_eq_ok.1 h
  have htaken : RestsAt ("j_true_" ++ toString b.nextLabel) 0 := .empty fun i => true_ne_end _ i
  obtain ⟨added, hlines, hlevels⟩ := hf _ htaken _ _ _ hjump
  refine ⟨added ++ booleanLines b.nextLabel b₂.nextLabel, by simp only [hlines, List.append_assoc], hlevels.append ?_⟩
  -- one value is pushed before control goes to the end, and one behind the label of the jump
  refine .cons (d := 0) ⟨⟨0, 1, rfl, by simp, by simpa using hlimit, by simp [Line.target?]⟩, by simp, by simp [Line.slot?]⟩ ?_
  refine .cons (d := 1) ⟨⟨0, 0, rfl, by simp, by simpa using hlimit, ?_⟩, by simp, by simp [Line.slot?]⟩ ?_
  · rintro name hname
    obtain rfl := Option.some.inj hname
    exact .value _
  refine .cons (d := 0) ⟨⟨0, 0, rfl, by simp, by simp, by simp [Line.target?]⟩, ?_, by simp [Line.slot?]⟩ ?_
  · rintro name hname
    obtain rfl := Line.label.inj hname
    exact htaken
  refine .cons (d := 0) ⟨⟨0, 1, rfl, by simp, by simpa using hlimit, by simp [Line.target?]⟩, by simp, by simp [Line.slot?]⟩ ?_
  refine .cons (d := 1) ⟨⟨0, 0, rfl, by simp, by simpa using hlimit, by simp [Line.target?]⟩, ?_, by simp [Line.slot?]⟩ (.nil 1)
  rintro name hname
  obtain rfl := Line.label.inj hname
  exact .value _

theorem opcode_effect {o : Operator} {p : Plain} (h : opcode o = some p) :
    p.effect? = some (2, 1) ∧ (Line.plain p).continues = true := by
  cases o with
  | arithmetic a => cases a <;> (obtain rfl := Option.some.inj h; exact ⟨rfl, rfl⟩)
  | logical l => cases l <;> (obtain rfl := Option.some.inj h; exact ⟨rfl, rfl⟩)
  | comparison c => cases h

theorem lifts_binary (op : String) {left right : Element} (hleft : left.IsFlat) (hright : right.IsFlat)
    (hlimit : max (Instruction.loadDepth left) (1 + Instruction.loadDepth right) ≤ s.method.stackLimit) :
    Lifts s.method 0 1 (s.binary op left right) := by
  have hone : 1 ≤ s.method.stackLimit := by omega
  unfold binary
  split
  · exact lifts_throw _
  · split
    · rename_i hp
      obtain ⟨heffect, hcontinues⟩ := opcode_effect hp
      exact (lifts_load hleft (by omega)).bind fun _ => (lifts_load hright (by omega)).bind fun _ =>
        lifts_plain heffect hcontinues (by omega) (by omega) (by omega)
    · exact lifts_boolean hone fun label hlabel => lifts_compareJump op hleft hright hlimit hlabel

theorem lifts_unary (op : String) {e : Element} (he : e.IsFlat) (hlimit : Instruction.loadDepth e ≤ s.method.stackLimit)
    (hone : 1 ≤ s.method.stackLimit) : Lifts s.method 0 1 (s.unary op e) := by
  by_cases hop : op = "!"
  · subst hop
    rw [unary_not]
    exact lifts_boolean hone fun label hlabel => (lifts_load he (by omega)).bind fun _ => lifts_jump _ _ hlabel rfl
  · intro b a b' h
    simp [unary, hop] at h

/-- A call takes its operands and gives a value unless it is void. -/
theorem lifts_invoke (op : CallOp) (owner : String) {receiver : Element} {method : Option String} {args : List Element}
    {type : Ty} (hcall : ∀ descriptor, s.callDescriptor receiver method args type = .ok descriptor →
      readDescriptor descriptor = some (args.length, decide (type ≠ .void)))
    (hd : d = if op = .static then args.length else args.length + 1) (hlimit : 1 ≤ s.method.stackLimit) :
    Lifts s.method d (if type = .void then 0 else 1) (s.invoke op owner receiver method args type) := by
  refine .known fun descriptor hdescriptor => ?_
  have heffect : (Line.invoke op (s.internalName owner) (method.getD "None") descriptor).effect? =
      some (d, if type = .void then 0 else 1) := by
    simp only [Line.effect?, hcall descriptor hdescriptor, Option.map_some, hd]
    by_cases hvoid : type = .void <;> simp [hvoid]
  have hpushes : (if type = .void then 0 else 1) ≤ s.method.stackLimit := by split <;> omega
  exact lifts_step heffect rfl (by simp) rfl rfl (Nat.le_refl d) (by simp) hpushes

theorem lifts_call {invocation : Invocation} {receiver : Element} {method : Option String} {args : List Element} {type : Ty}
    (h : s.IsFlat (.call invocation receiver method args type))
    (hlimit : Instruction.valueDepth (.call invocation receiver method args type) ≤ s.method.stackLimit) :
    Lifts s.method 0 (if type = .void then 0 else 1) (s.call invocation receiver method args type) := by
  obtain ⟨hreceiver, hargs, hcall⟩ := h
  have hreceiverDepth := loadDepth_le receiver
  unfold Instruction.valueDepth at hlimit
  unfold CallAgrees at hcall
  cases invocation with
  | new =>
    have hvalue : type ≠ .void := by simpa using hcall
    simp only [operandCount] at hlimit
    simp only [call, hvalue, if_false]
    split
    · split
      · rename_i size
        have hsize := loadDepth_le size
        exact (lifts_load (hargs size (by simp)) (by omega)).bind fun _ =>
          lifts_step rfl rfl (by simp) rfl rfl (by omega) (by omega) (by omega)
      · exact lifts_throw _
    · exact lifts_step rfl rfl (by simp) rfl rfl (by omega) (by omega) (by omega)
  | arrayLength =>
    have hvalue : type ≠ .void := by simpa using hcall
    simp only [operandCount] at hlimit
    simp only [call, hvalue, if_false]
    exact (lifts_load hreceiver (by omega)).bind fun _ => lifts_plain rfl rfl (by omega) (by omega) (by omega)
  | static =>
    simp only [reduceCtorEq, or_self, if_false] at hcall
    simp only [operandCount] at hlimit
    refine (lifts_loadAll hargs (by omega)).bind fun _ => .known fun owner _ => ?_
    exact lifts_invoke .static owner hcall (by simp) (by omega)
  | virtual =>
    simp only [reduceCtorEq, or_self, if_false] at hcall
    simp only [operandCount] at hlimit
    refine (lifts_load hreceiver (by omega)).bind fun _ => (lifts_loadAll hargs (by omega)).bind fun _ =>
      .known fun owner _ => ?_
    exact lifts_invoke .virtual owner.name hcall (by simp; omega) (by omega)
  | special =>
    simp only [reduceCtorEq, or_self, if_false] at hcall
    simp only [operandCount] at hlimit
    refine (lifts_load hreceiver (by omega)).bind fun _ => (lifts_loadAll hargs (by omega)).bind fun _ =>
      .known fun owner _ => ?_
    exact lifts_invoke .special owner.name hcall (by simp; omega) (by omega)

theorem lifts_this (hstatic : s.method.isStatic = false) (hlimit : d + 1 ≤ s.method.stackLimit) :
    Lifts s.method d (d + 1) (Emit.slot .aload 0) := by
  refine Emit.lifts_slot_load (.inr rfl) ?_ hlimit
  simp only [CodeMethod.localsLimit, CodeMethod.reserved, hstatic, Bool.false_eq_true, if_false]
  omega

theorem lifts_field (op : FieldOp) (f : Element) {d' : Nat} (hd : d = match op with | .get => 1 | .put => 2)
    (hd' : d' = match op with | .get => 1 | .put => 0) (hlimit : 1 ≤ s.method.stackLimit) :
    Lifts s.method d d' (s.field op f) := by
  refine .known fun name _ => .known fun type _ => ?_
  cases op with
  | get => exact lifts_step rfl rfl (by simp) rfl rfl (by simp [hd]) (by simp [hd, hd']) (by simpa [hd'] using hlimit)
  | put => exact lifts_step rfl rfl (by simp) rfl rfl (by simp [hd]) (by simp [hd, hd']) (by simp [hd'])

/-- A value is pushed within the stack that it is counted for. -/
theorem lifts_value {i : Instruction} (h : s.IsFlat i) (hpushed : IsPushed i)
    (hlimit : i.valueDepth ≤ s.method.stackLimit) (hone : 1 ≤ s.method.stackLimit) : Lifts s.method 0 1 (s.value i) := by
  cases i with
  | single e => exact lifts_load h (by simpa [Instruction.valueDepth] using hlimit)
  | binary op left right type => exact lifts_binary op h.1 h.2 hlimit
  | unary op e type => exact lifts_unary op h hlimit hone
  | call invocation receiver method args type =>
    have hcall := lifts_call h hlimit
    rwa [if_neg hpushed] at hcall
  | getField object f => exact (lifts_this h hone).bind fun _ => lifts_field .get f rfl rfl hone
  | _ => exact lifts_throw _

/-! ## Instructions and bodies -/

theorem lifts_assign {dest : Element} {i : Instruction} (h : s.InstructionIsFlat (.assign dest i))
    (hlimit : Instruction.depth (.assign dest i) ≤ s.method.stackLimit) (htwo : 2 ≤ s.method.stackLimit) :
    Lifts s.method 0 0 (s.assign dest i) := by
  by_cases hitem : dest.isItem = true
  · cases dest with
    | item array type index =>
      obtain ⟨hindex, e, rfl, he⟩ := h
      have hflat : index.IsFlat := by
        cases index with
        | item array type index => cases hindex
        | _ => trivial
      simp only [Instruction.depth, Element.isItem, if_true, Instruction.valueDepth] at hlimit
      have hone : Instruction.loadDepth index = 1 := by simp [Instruction.loadDepth, hindex]
      refine (lifts_slot_load (.inr rfl) array (by omega)).bind fun _ => (lifts_load hflat (by omega)).bind fun _ =>
        (lifts_load he (by omega)).bind fun _ => ?_
      have hstore : (arrayStore type).effect? = some (3, 0) ∧ (Line.plain (arrayStore type)).continues = true := by
        unfold arrayStore
        split
        · exact ⟨rfl, rfl⟩
        · split <;> exact ⟨rfl, rfl⟩
      exact lifts_plain hstore.1 hstore.2 (by omega) (by omega) (by omega)
    | _ => cases hitem
  · rw [Bool.not_eq_true] at hitem
    obtain ⟨hflat, hpushed⟩ : s.IsFlat i ∧ IsPushed i := by
      cases dest with
      | item array type index => cases hitem
      | _ => exact h
    simp only [Instruction.depth, hitem, Bool.false_eq_true, if_false] at hlimit
    rw [s.assign_of_not_isItem hitem]
    refine .known fun amount _ => ?_
    cases amount with
    | some amount =>
      exact .known fun name _ => .known fun n hn =>
        lifts_increment (find?_lt_localsLimit (slot_eq_ok.1 hn)) amount (by omega)
    | none => exact (lifts_value hflat hpushed hlimit (by omega)).bind fun _ => lifts_store dest (by omega)

theorem lifts_branch {condition : Instruction} (hflat : s.IsFlat condition) (hpushed : IsPushed condition)
    (hlimit : condition.valueDepth ≤ s.method.stackLimit) (hone : 1 ≤ s.method.stackLimit) {label : String}
    (hlabel : RestsAt label 0) : Lifts s.method 0 0 (s.branch condition label) := by
  have hvalue : Lifts s.method 0 0 (do
      s.value condition
      Emit.line (.jump .zero .ne label)) :=
    (lifts_value hflat hpushed hlimit hone).bind fun _ => lifts_jump _ _ hlabel rfl
  unfold branch
  split
  · split
    · exact lifts_compareJump _ hflat.1 hflat.2 hlimit hlabel
    · exact hvalue
  · exact (lifts_load hflat (by simpa [Instruction.valueDepth] using hlimit)).bind fun _ => lifts_jump _ _ hlabel rfl
  · exact hvalue

theorem lifts_ret {e : Element} (type : Ty) (he : e.IsFlat)
    (hlimit : Instruction.depth (.ret e type) ≤ s.method.stackLimit) : Lifts s.method 0 0 (s.ret e type) := by
  have hreturn (op : Plain) {d : Nat} (heffect : op.effect? = some (d, 0)) (hreturns : (Line.plain op).continues = false) :
      Lifts s.method d 0 (Emit.plain op) := by
    refine lifts_line ⟨⟨d, 0, heffect, Nat.le_refl d, by simp, by simp [Line.target?]⟩, by simp, by simp [Line.slot?]⟩ ?_
    simp [Line.settle, hreturns]
  unfold ret
  split
  · exact hreturn .ret rfl rfl
  · rename_i hvalue
    have hdepth : 0 + Instruction.loadDepth e ≤ s.method.stackLimit := by
      cases e with
      | absent => exact absurd (.inl rfl) hvalue
      | _ => simpa [Instruction.depth] using hlimit
    refine (lifts_load he hdepth).bind fun _ => ?_
    split
    · exact hreturn .iret rfl rfl
    · exact hreturn .aret rfl rfl

/-- The lines of an instruction start with an empty stack and end with one. -/
theorem lifts_instruction {i : Instruction} (h : s.InstructionIsFlat i) (hlimit : i.depth ≤ s.method.stackLimit)
    (htwo : 2 ≤ s.method.stackLimit) (hlabel : ∀ label, i.target? = some label → RestsAt label 0) :
    Lifts s.method 0 0 (s.instruction i) := by
  have hpopped {i : Instruction} (hflat : s.IsFlat i) (hpushed : IsPushed i) (hlimit : i.valueDepth ≤ s.method.stackLimit) :
      Lifts s.method 0 0 (do
        s.value i
        Emit.plain .pop) :=
    (lifts_value hflat hpushed hlimit (by omega)).bind fun _ => lifts_plain rfl rfl (by omega) rfl (by omega)
  cases i with
  | assign dest i => exact lifts_assign h hlimit htwo
  | call invocation receiver method args type =>
    refine (lifts_call h hlimit).bind fun _ => ?_
    by_cases hvoid : type = .void
    · simp only [hvoid, ne_eq, not_true, if_false, if_true]
      exact lifts_pure _
    · simp only [hvoid, ne_eq, not_false_iff, if_false, if_true]
      exact lifts_plain rfl rfl (by omega) rfl (by omega)
  | putField object f e =>
    simp only [Instruction.depth] at hlimit
    exact (lifts_this h.2 (by omega)).bind fun _ => (lifts_load h.1 (by omega)).bind fun _ =>
      lifts_field .put f rfl rfl (by omega)
  | ret e type => exact lifts_ret type h hlimit
  | branch condition label => exact lifts_branch h.1 h.2 hlimit (by omega) (hlabel label rfl)
  | goto label =>
    refine lifts_line ⟨⟨0, 0, rfl, by simp, by simp, ?_⟩, by simp, by simp [Line.slot?]⟩ rfl
    rintro name hname
    exact hlabel name hname
  | nop => exact lifts_plain rfl rfl (by omega) rfl (by omega)
  | label name => exact lifts_throw _
  | single e => exact hpopped h trivial hlimit
  | binary op left right type => exact hpopped h trivial hlimit
  | unary op e type => exact hpopped h trivial hlimit
  | getField object f => exact hpopped h trivial hlimit

theorem two_le_stackLimit (m : CodeMethod) : 2 ≤ m.stackLimit ∧ ∀ i ∈ m.code, i.depth ≤ m.stackLimit := by
  obtain ⟨htwo, hdepths⟩ := le_foldl_max (m.code.map Instruction.depth) 2
  exact ⟨htwo, fun i hi => hdepths _ (List.mem_map_of_mem hi)⟩

/-- Labels on an empty stack. -/
theorem levels_labels {m : CodeMethod} {names : List String} (h : ∀ name ∈ names, RestsAt name 0) :
    Levels m 0 (names.map .label) 0 := by
  induction names with
  | nil => exact .nil 0
  | cons name names ih =>
    obtain ⟨hname, hrest⟩ := List.forall_mem_cons.1 h
    refine .cons ⟨⟨0, 0, rfl, by simp, by simp, by simp [Line.target?]⟩, ?_, by simp [Line.slot?]⟩ (ih hrest)
    rintro other hother
    exact Line.label.inj hother ▸ hname

/-- All instructions of a method are flat. -/
def CodeIsFlat (s : Scope) : Prop := ∀ i ∈ s.method.code, s.InstructionIsFlat i

theorem LabelsFit.restsAt (hs : s.LabelsFit) {name : String} (h : name ∈ s.method.labels.keys) : RestsAt name 0 :=
  .of_apart (hs.apart name h)

theorem lifts_instructions (hs : s.LabelsFit) (htargets : s.TargetsFit) (hflat : s.CodeIsFlat) {index : Nat}
    {is : List Instruction} (his : ∀ i ∈ is, i ∈ s.method.code) :
    Lifts s.method 0 0 (s.instructions index is) := by
  obtain ⟨htwo, hdepths⟩ := two_le_stackLimit s.method
  induction is generalizing index with
  | nil => exact lifts_pure _
  | cons i is ih =>
    obtain ⟨hi, hrest⟩ := List.forall_mem_cons.1 his
    intro b a b' h
    obtain ⟨b₁, hfirst, hlast⟩ := runOn_instructions_cons.1 h
    have htarget : ∀ label, i.target? = some label → RestsAt label 0 := fun label hlabel => by
      obtain ⟨k, -, hk⟩ := htargets i hi label hlabel
      exact hs.restsAt (List.mem_map.2 ⟨_, Assoc.mem_of_findEntry hk, rfl⟩)
    obtain ⟨added, hadded, hlevels⟩ := lifts_instruction (hflat i hi) (hdepths i hi) htwo htarget _ _ _ hfirst
    obtain ⟨added', hadded', hlevels'⟩ := ih hrest _ _ _ hlast
    refine ⟨(s.method.labelsAt index).map .label ++ added ++ added', by simp [hadded', hadded], ?_⟩
    refine ((levels_labels fun name hname => ?_).append hlevels).append hlevels'
    exact hs.restsAt (List.mem_map.2 ⟨_, mem_labelsAt.1 hname, rfl⟩)

/-- The lines of a body keep within the limits. -/
structure KeepsLimits (s : Scope) (lines : List Line) : Prop where
  /-- On every path a line finds the values that it takes, and the stack is no deeper than declared, before and behind it. -/
  depth : ∀ pc d, Depths lines pc d → 0 ≤ d ∧ d ≤ s.method.stackLimit ∧ ∀ l, lines[pc]? = some l →
    ∃ pops pushes, l.effect? = some (pops, pushes) ∧ (pops : Int) ≤ d ∧ d - pops + pushes ≤ s.method.stackLimit
  /-- All paths to a line get there with the same depth. -/
  same : ∀ pc d d', Depths lines pc d → Depths lines pc d' → d = d'
  /-- Where an instruction starts, at the labels on it and behind them, the stack is empty. -/
  empty : ∀ k < s.method.code.length, ∀ pc, s.first k ≤ pc → pc ≤ s.first k + (s.method.labelsAt k).length →
    ∀ d, Depths lines pc d → d = 0
  slot : ∀ l ∈ lines, ∀ n, l.slot? = some n → n < s.method.localsLimit

theorem foldl_labels (names : List String) : (names.map Line.label).foldl Line.settle 0 = 0 := by
  induction names with
  | nil => rfl
  | cons name names ih => exact ih

/-- The limits of a method whose instructions are flat are kept by the lines of its body. -/
theorem keepsLimits (hs : s.LabelsFit) (htargets : s.TargetsFit) (hflat : s.CodeIsFlat) {lines : List Line}
    (hlines : s.bodyLines = .ok lines) : s.KeepsLimits lines := by
  obtain ⟨b', h, rfl⟩ := runOn_body_of_bodyLines hlines
  obtain ⟨_, all, hall, hlast⟩ := runOn_bind_eq_ok.1 h
  obtain ⟨added, hadded, hlevels⟩ := lifts_instructions hs htargets hflat (fun i hi => hi) _ _ _ hall
  obtain ⟨last, hbody, hend⟩ : ∃ last, b'.lines = added ++ last ∧ Levels s.method 0 last 0 := by
    split at hlast
    · simp only [Emit.runOn_plain, Prod.mk.injEq, true_and] at hlast
      refine ⟨[.plain .ret], by simp [← hlast, hadded], ?_⟩
      exact .cons ⟨⟨0, 0, rfl, by simp, by simp, by simp [Line.target?]⟩, by simp, by simp [Line.slot?]⟩ (.nil 0)
    · simp only [runOn_pure, Prod.mk.injEq, true_and] at hlast
      exact ⟨[], by simp [← hlast, hadded], .nil 0⟩
  have hwhole : Levels s.method 0 b'.lines 0 := hbody ▸ hlevels.append hend
  refine ⟨fun pc d hd => ?_, fun pc d d' hd hd' => (hwhole.depth_eq hd).trans (hwhole.depth_eq hd').symm,
    fun k hk pc hle hle' d hd => ?_, fun l hl n hn => ?_⟩
  · obtain rfl := hwhole.depth_eq hd
    refine ⟨by simp, by exact_mod_cast hwhole.depth_le (Nat.zero_le _) pc, fun l hl => ?_⟩
    obtain ⟨pops, pushes, heffect, hfound, hlimit, -⟩ := (hwhole.runs hl).effect
    have hfound : pops ≤ depthAt b'.lines pc := hfound
    have hlimit : depthAt b'.lines pc - pops + pushes ≤ s.method.stackLimit := hlimit
    exact ⟨pops, pushes, heffect, by omega, by omega⟩
  · -- the lines before are those of the instructions before, and behind them there are only labels
    obtain rfl := hwhole.depth_eq hd
    obtain ⟨before, after, hbefore, hinstruction, -, hle_lines⟩ := exists_bodies h (List.getElem?_eq_getElem hk)
    obtain ⟨lines, hadds, hlevels'⟩ := lifts_instructions hs htargets hflat (fun i hi => List.mem_of_mem_take hi) _ _ _ hbefore
    obtain rfl : before.lines = lines := by simpa using hadds
    obtain ⟨rest, hrest⟩ := (s.adds_instruction _ _ _ _ hinstruction).lines_le.trans hle_lines
    have hfirst : s.first k = before.lines.length := by simp [first, hbefore]
    obtain ⟨j, rfl⟩ := Nat.exists_eq_add_of_le hle
    have hj : j ≤ (s.method.labelsAt k).length := by omega
    have htake : b'.lines.take (s.first k + j) = before.lines ++ ((s.method.labelsAt k).take j).map .label := by
      rw [← hrest, List.append_assoc, hfirst, List.take_length_add_append,
        List.take_append_of_le_length (by simpa using hj), List.map_take]
    rw [depthAt, htake, List.foldl_append, hlevels'.foldl_eq, foldl_labels]
    rfl
  · obtain ⟨pc, hpc⟩ := List.getElem?_of_mem hl
    exact (hwhole.runs hpc).slot n hn

end Jasmin.Scope
end JmmCompiler

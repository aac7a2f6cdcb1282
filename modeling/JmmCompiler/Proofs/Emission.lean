import JmmCompiler.Jasmin.Assembly
import JmmCompiler.Proofs.StackMachine
import Mathlib.Data.List.Nodup
import Std.Data.String.ToNat
/-! What emission adds to a method body: lines behind those that are there, with labels of its own that
it has not given out before. -/
namespace JmmCompiler.Jasmin

/-- The labels that stand among lines. -/
def labelNames (lines : List Line) : List String :=
  lines.filterMap fun
    | .label name => some name
    | _ => none

@[simp] theorem labelNames_nil : labelNames [] = [] := rfl

@[simp] theorem labelNames_append (xs ys : List Line) :
    labelNames (xs ++ ys) = labelNames xs ++ labelNames ys :=
  List.filterMap_append

theorem mem_labelNames {lines : List Line} {name : String} :
    name ∈ labelNames lines ↔ .label name ∈ lines := by
  simp only [labelNames, List.mem_filterMap]
  constructor
  · rintro ⟨l, hl, hname⟩
    cases l with
    | label n =>
      obtain rfl : n = name := by simpa using hname
      exact hl
    | _ => simp at hname
  · exact fun h => ⟨.label name, h, rfl⟩

/-- Where labels are distinct, the place of a label is where it stands. -/
theorem target_of_getElem? {code : List Line} {name : String} (hcode : (labelNames code).Nodup) {i : Nat}
    (h : code[i]? = some (.label name)) : target code name = some i := by
  obtain ⟨hi, hget⟩ := List.getElem?_eq_some_iff.1 h
  have hsplit : code = code.take i ++ .label name :: code.drop (i + 1) := by
    rw [← hget, ← List.drop_eq_getElem_cons hi, List.take_append_drop]
  have hbefore : Line.label name ∉ code.take i := by
    intro hmem
    rw [hsplit, labelNames_append] at hcode
    exact (List.nodup_append.1 hcode).2.2 name (mem_labelNames.2 hmem) name
      (mem_labelNames.2 (by simp)) rfl
  refine List.idxOf?_eq_some_iff.2 ⟨hi, hget, fun j hj heq => hbefore ?_⟩
  exact List.mem_take_iff_getElem.2 ⟨j, by omega, heq⟩

/-- Labels that emission makes up. -/
def madeUp (i : Nat) : List String := ["j_true_" ++ toString i, "j_end_" ++ toString i]

/-- The second body continues the first one. Its new labels are made up, with numbers that the first had
not given out. -/
def Extends (b b' : Body) : Prop :=
  b.nextLabel ≤ b'.nextLabel ∧ ∃ added, b'.lines = b.lines ++ added ∧ (labelNames added).Nodup ∧
    ∀ name ∈ labelNames added, ∃ i, b.nextLabel ≤ i ∧ i < b'.nextLabel ∧ name ∈ madeUp i

theorem Extends.refl (b : Body) : Extends b b := ⟨Nat.le_refl _, [], by simp, by simp, by simp⟩

/-- The stems of the labels that are made up differ in their third letter. -/
theorem true_ne_end (k l : Nat) : "j_true_" ++ toString k ≠ "j_end_" ++ toString l := by
  intro h
  have hchars := congrArg String.toList h
  simp [String.toList_append] at hchars

theorem eq_of_mem_madeUp {i j : Nat} {name : String} (hi : name ∈ madeUp i) (hj : name ∈ madeUp j) :
    i = j := by
  simp only [madeUp, List.mem_cons, List.not_mem_nil, or_false] at hi hj
  -- the numbers of labels with one stem are read off the labels
  rcases hi with rfl | rfl
  · rcases hj with hj | hj
    · exact Nat.repr_injective ((String.append_right_inj _).1 hj)
    · exact absurd hj (true_ne_end i j)
  · rcases hj with hj | hj
    · exact absurd hj.symm (true_ne_end j i)
    · exact Nat.repr_injective ((String.append_right_inj _).1 hj)

theorem Extends.trans {b b' b'' : Body} (h : Extends b b') (h' : Extends b' b'') : Extends b b'' := by
  obtain ⟨hle, added, hlines, hnodup, hnames⟩ := h
  obtain ⟨hle', added', hlines', hnodup', hnames'⟩ := h'
  refine ⟨Nat.le_trans hle hle', added ++ added', by rw [hlines', hlines, List.append_assoc], ?_, ?_⟩
  · rw [labelNames_append]
    refine hnodup.append hnodup' fun name hname hname' => ?_
    obtain ⟨i, hi, hilt, hmem⟩ := hnames name hname
    obtain ⟨j, hj, hjlt, hmem'⟩ := hnames' name hname'
    have := eq_of_mem_madeUp hmem hmem'
    omega
  · intro name hname
    rw [labelNames_append, List.mem_append] at hname
    rcases hname with hname | hname
    · obtain ⟨i, hi, hilt, hmem⟩ := hnames name hname
      exact ⟨i, hi, by omega, hmem⟩
    · obtain ⟨i, hi, hilt, hmem⟩ := hnames' name hname
      exact ⟨i, by omega, hilt, hmem⟩

theorem Extends.lines_le {b b' : Body} (h : Extends b b') : b.lines <+: b'.lines := by
  obtain ⟨-, added, hlines, -⟩ := h
  exact ⟨added, hlines.symm⟩

namespace Emit

@[simp] theorem runOn_line (l : Line) (b : Body) :
    runOn (line l) b = (.ok (), { b with lines := b.lines ++ [l] }) := rfl

@[simp] theorem runOn_plain (op : Plain) (b : Body) :
    runOn (plain op) b = (.ok (), { b with lines := b.lines ++ [.plain op] }) := rfl

@[simp] theorem runOn_newLabel_true (b : Body) :
    runOn (newLabel "j_true") b =
      (.ok ("j_true_" ++ toString b.nextLabel), { b with nextLabel := b.nextLabel + 1 }) := rfl

@[simp] theorem runOn_newLabel_end (b : Body) :
    runOn (newLabel "j_end") b =
      (.ok ("j_end_" ++ toString b.nextLabel), { b with nextLabel := b.nextLabel + 1 }) := rfl

@[simp] theorem runOn_ofExcept {α : Type} (x : Except Failure α) (b : Body) :
    runOn (ofExcept x) b = (x, b) := by
  cases x <;> rfl

theorem runOn_slot_eq_ok {op : SlotOp} {n : Int} {b b' : Body} :
    runOn (slot op n) b = (.ok (), b') ↔ 0 ≤ n ∧ b' = ⟨b.lines ++ [.slot op n], b.nextLabel⟩ := by
  unfold slot
  split
  · simp only [runOn_throw, Prod.mk.injEq, reduceCtorEq, false_and, false_iff]
    omega
  · simp only [runOn_line, Prod.mk.injEq, true_and, eq_comm (a := b')]
    constructor
    · exact fun h => ⟨by omega, h⟩
    · exact fun h => h.2

/-- What an emission that succeeds adds to the body is an extension. -/
def Adds {α : Type} (f : Emit α) : Prop := ∀ b a b', runOn f b = (.ok a, b') → Extends b b'

theorem adds_pure {α : Type} (a : α) : Adds (pure a) := by
  intro b a' b' h
  simp only [runOn_pure, Prod.mk.injEq] at h
  obtain ⟨-, rfl⟩ := h
  exact .refl b

theorem adds_throw {α : Type} (e : Failure) : Adds (throw e : Emit α) := by
  intro b a b' h
  simp at h

theorem Adds.bind {α β : Type} {f : Emit α} {g : α → Emit β} (hf : Adds f) (hg : ∀ a, Adds (g a)) :
    Adds (f >>= g) := by
  intro b c b'' h
  obtain ⟨a, b', hfa, hgb⟩ := runOn_bind_eq_ok.1 h
  exact (hf b a b' hfa).trans (hg a b' c b'' hgb)

theorem adds_ofExcept {α : Type} (x : Except Failure α) : Adds (ofExcept x) := by
  intro b a b' h
  simp only [runOn_ofExcept, Prod.mk.injEq] at h
  obtain ⟨-, rfl⟩ := h
  exact .refl b

theorem adds_line {l : Line} (h : labelNames [l] = []) : Adds (line l) := by
  intro b a b' hrun
  simp only [runOn_line, Prod.mk.injEq] at hrun
  obtain ⟨-, rfl⟩ := hrun
  exact ⟨Nat.le_refl _, [l], rfl, by simp [h], by simp [h]⟩

theorem adds_slot (op : SlotOp) (n : Int) : Adds (slot op n) := by
  unfold slot
  split
  · exact adds_throw _
  · exact adds_line rfl

theorem adds_increment (n amount : Int) : Adds (increment n amount) := by
  unfold increment
  split
  · exact adds_line rfl
  · exact adds_throw _

theorem adds_numberJump (compared : Compared) (op label : String) :
    Adds (numberJump compared op label) := by
  unfold numberJump
  split
  · exact adds_line rfl
  · exact adds_throw _

theorem adds_referenceJump (op label : String) : Adds (referenceJump op label) := by
  unfold referenceJump
  split
  · exact adds_line rfl
  · exact adds_line rfl
  · exact adds_throw _

end Emit

namespace Scope
open Emit
variable (s : Scope)

theorem adds_slot (op : SlotOp) (name : String) : Adds (s.slot op name) :=
  (adds_ofExcept _).bind fun n => Emit.adds_slot op n

theorem adds_load (e : Element) : Adds (s.load e) := by
  induction e with
  | literal n type => exact adds_line rfl
  | var name type => exact s.adds_slot _ name
  | classRef name type => exact adds_throw _
  | item array type index ih => exact (s.adds_slot _ array).bind fun _ => ih.bind fun _ => adds_line rfl
  | absent => exact adds_throw _

theorem adds_loadAll (es : List Element) : Adds (s.loadAll es) := by
  induction es with
  | nil => exact adds_pure _
  | cons e es ih => exact (s.adds_load e).bind fun _ => ih

theorem adds_store (dest : Element) : Adds (s.store dest) :=
  (adds_ofExcept _).bind fun _ => (adds_ofExcept _).bind fun n => (adds_ofExcept _).bind fun _ =>
    Emit.adds_slot _ n

theorem adds_compareJump (op : String) (left right : Element) (label : String) :
    Adds (s.compareJump op left right label) := by
  unfold compareJump
  refine (s.adds_load left).bind fun _ => (adds_ofExcept _).bind fun type => ?_
  split
  · exact (s.adds_load right).bind fun _ => adds_referenceJump op label
  · split
    · exact adds_numberJump _ op label
    · exact (s.adds_load right).bind fun _ => adds_numberJump _ op label

end Scope

/-- What pushes 1 behind a jump to the label of one number that was taken and 0 behind one that was not.
The label behind all has another number. -/
def booleanLines (taken done : Nat) : List Line :=
  [.const 0, .goto ("j_end_" ++ toString done), .label ("j_true_" ++ toString taken), .const 1,
    .label ("j_end_" ++ toString done)]

@[simp] theorem labelNames_booleanLines (taken done : Nat) :
    labelNames (booleanLines taken done) = ["j_true_" ++ toString taken, "j_end_" ++ toString done] :=
  rfl

theorem Scope.runOn_booleanResult (taken : Nat) (b : Body) :
    runOn (booleanResult ("j_true_" ++ toString taken)) b =
      (.ok (), ⟨b.lines ++ booleanLines taken b.nextLabel, b.nextLabel + 1⟩) := by
  simp [booleanResult, runOn_bind, booleanLines]

theorem Extends.boolean {b b' : Body} (h : Extends { b with nextLabel := b.nextLabel + 1 } b') :
    Extends b ⟨b'.lines ++ booleanLines b.nextLabel b'.nextLabel, b'.nextLabel + 1⟩ := by
  obtain ⟨hle, added, hlines, hnodup, hnames⟩ := h
  simp only at hle hlines hnames
  have htrue : "j_true_" ++ toString b.nextLabel ∈ madeUp b.nextLabel := by simp [madeUp]
  have hend : "j_end_" ++ toString b'.nextLabel ∈ madeUp b'.nextLabel := by simp [madeUp]
  -- The two labels have the number that came before those of `added` and the one that comes after.
  have hfresh (i : Nat) (name : String) (hname : name ∈ madeUp i)
      (hi : i < b.nextLabel + 1 ∨ b'.nextLabel ≤ i) : name ∉ labelNames added := by
    intro hmem
    obtain ⟨j, hj, hjlt, hmadeUp⟩ := hnames name hmem
    have := eq_of_mem_madeUp hname hmadeUp
    omega
  refine ⟨by simp only; omega, added ++ booleanLines b.nextLabel b'.nextLabel,
    by simp only [hlines, List.append_assoc], ?_, ?_⟩
  · rw [labelNames_append, labelNames_booleanLines]
    refine hnodup.append ?_ ?_
    · refine List.nodup_cons.2 ⟨?_, List.nodup_singleton _⟩
      rw [List.mem_singleton]
      intro heq
      have := eq_of_mem_madeUp htrue (heq ▸ hend)
      omega
    · intro name hname hnew
      simp only [List.mem_cons, List.not_mem_nil, or_false] at hnew
      rcases hnew with rfl | rfl
      · exact hfresh _ _ htrue (by omega) hname
      · exact hfresh _ _ hend (by omega) hname
  · intro name hname
    rw [labelNames_append, labelNames_booleanLines, List.mem_append] at hname
    rcases hname with hname | hname
    · obtain ⟨i, hi, hilt, hmem⟩ := hnames name hname
      exact ⟨i, by omega, by simp only; omega, hmem⟩
    · simp only [List.mem_cons, List.not_mem_nil, or_false] at hname
      rcases hname with rfl | rfl
      · exact ⟨_, Nat.le_refl _, by simp only; omega, htrue⟩
      · exact ⟨_, by omega, Nat.lt_succ_self _, hend⟩

namespace Scope
open Emit
variable (s : Scope)

/-- What a jump to a fresh label adds if its outcome is pushed. -/
theorem runOn_boolean_eq_ok {f : String → Emit Unit} {b b' : Body} :
    runOn (do
      let label ← newLabel "j_true"
      f label
      booleanResult label) b = (.ok (), b') ↔
    ∃ b₂, runOn (f ("j_true_" ++ toString b.nextLabel)) ⟨b.lines, b.nextLabel + 1⟩ = (.ok (), b₂) ∧
      b' = ⟨b₂.lines ++ booleanLines b.nextLabel b₂.nextLabel, b₂.nextLabel + 1⟩ := by
  simp only [runOn_bind_eq_ok, runOn_newLabel_true, Prod.mk.injEq, Except.ok.injEq]
  constructor
  · rintro ⟨_, _, ⟨rfl, rfl⟩, _, b₂, hjump, hresult⟩
    rw [runOn_booleanResult, Prod.mk.injEq] at hresult
    exact ⟨b₂, hjump, hresult.2.symm⟩
  · rintro ⟨b₂, hjump, rfl⟩
    exact ⟨_, _, ⟨rfl, rfl⟩, (), b₂, hjump, runOn_booleanResult _ _⟩

theorem adds_boolean {f : String → Emit Unit} (hf : ∀ label, Adds (f label)) :
    Adds (do
      let label ← newLabel "j_true"
      f label
      booleanResult label) := by
  intro b a b' h
  obtain ⟨b₂, hjump, rfl⟩ := runOn_boolean_eq_ok.1 h
  exact (hf _ _ _ _ hjump).boolean

/-- The negation of an operand is a jump that is taken on zero. -/
theorem unary_not (e : Element) :
    s.unary "!" e = (do
      let label ← newLabel "j_true"
      (do s.load e; line (.jump .zero .eq label))
      booleanResult label) := by
  simp [unary]

theorem adds_binary (op : String) (left right : Element) : Adds (s.binary op left right) := by
  unfold binary
  split
  · exact adds_throw _
  · split
    · exact (s.adds_load left).bind fun _ => (s.adds_load right).bind fun _ => adds_line rfl
    · exact adds_boolean fun label => s.adds_compareJump op left right label

theorem adds_unary (op : String) (e : Element) : Adds (s.unary op e) := by
  unfold unary
  split
  · intro b a b' h
    simp at h
  · rename_i hop
    obtain rfl : op = "!" := by simpa using hop
    have h := adds_boolean (f := fun label => do
      s.load e
      line (.jump .zero .eq label)) fun label => (s.adds_load e).bind fun _ => adds_line rfl
    simpa only [bind_assoc] using h

theorem adds_invoke (op : CallOp) (owner : String) (receiver : Element) (method : Option String)
    (args : List Element) (type : Ty) : Adds (s.invoke op owner receiver method args type) :=
  (adds_ofExcept _).bind fun _ => adds_line rfl

theorem adds_call (invocation : Invocation) (receiver : Element) (method : Option String)
    (args : List Element) (type : Ty) : Adds (s.call invocation receiver method args type) := by
  cases invocation with
  | new =>
    simp only [call]
    split
    · split
      · exact (s.adds_load _).bind fun _ => adds_line rfl
      · exact adds_throw _
    · exact adds_line rfl
  | arrayLength => exact (s.adds_load receiver).bind fun _ => adds_line rfl
  | static =>
    exact (s.adds_loadAll args).bind fun _ => (adds_ofExcept _).bind fun _ => s.adds_invoke _ _ _ _ _ _
  | virtual =>
    exact (s.adds_load receiver).bind fun _ => (s.adds_loadAll args).bind fun _ =>
      (adds_ofExcept _).bind fun _ => s.adds_invoke _ _ _ _ _ _
  | special =>
    exact (s.adds_load receiver).bind fun _ => (s.adds_loadAll args).bind fun _ =>
      (adds_ofExcept _).bind fun _ => s.adds_invoke _ _ _ _ _ _

theorem adds_field (op : FieldOp) (f : Element) : Adds (s.field op f) :=
  (adds_ofExcept _).bind fun _ => (adds_ofExcept _).bind fun _ => adds_line rfl

theorem adds_value (i : Instruction) : Adds (s.value i) := by
  cases i with
  | single e => exact s.adds_load e
  | binary op left right type => exact s.adds_binary op left right
  | unary op e type => exact s.adds_unary op e
  | call invocation receiver method args type => exact s.adds_call invocation receiver method args type
  | getField object f => exact (Emit.adds_slot _ _).bind fun _ => s.adds_field _ f
  | _ => exact adds_throw _

/-- The lines that assign to a variable. -/
def assignVariable (dest : Element) (i : Instruction) : Emit Unit := do
  match ← Emit.ofExcept (increment? dest i) with
  | some amount =>
    let name ← Emit.ofExcept dest.name
    Emit.increment (← Emit.ofExcept (s.method.slot name)) amount
  | none =>
    s.value i
    s.store dest

theorem assign_of_not_isItem {dest : Element} (hitem : dest.isItem = false) (i : Instruction) :
    s.assign dest i = s.assignVariable dest i := by
  cases dest with
  | item array type index => simp [Element.isItem] at hitem
  | _ => rfl

theorem adds_assign (dest : Element) (i : Instruction) : Adds (s.assign dest i) := by
  have hplain : Adds (s.assignVariable dest i) := by
    refine (adds_ofExcept _).bind fun amount => ?_
    cases amount with
    | some amount =>
      exact (adds_ofExcept _).bind fun _ => (adds_ofExcept _).bind fun _ => adds_increment _ _
    | none => exact (s.adds_value i).bind fun _ => s.adds_store dest
  cases dest with
  | item array type index =>
    exact (s.adds_slot _ array).bind fun _ => (s.adds_load index).bind fun _ =>
      (s.adds_value i).bind fun _ => adds_line rfl
  | _ => exact hplain

theorem adds_branch (condition : Instruction) (label : String) : Adds (s.branch condition label) := by
  have hvalue : Adds (do
      s.value condition
      Emit.line (.jump .zero .ne label)) := (s.adds_value condition).bind fun _ => adds_line rfl
  unfold branch
  split
  · split
    · exact s.adds_compareJump _ _ _ _
    · exact hvalue
  · exact (s.adds_load _).bind fun _ => adds_line rfl
  · exact hvalue

theorem adds_instruction (i : Instruction) : Adds (s.instruction i) := by
  have hpopped (i : Instruction) : Adds (do
      s.value i
      Emit.plain .pop) := (s.adds_value i).bind fun _ => adds_line rfl
  cases i with
  | assign dest i => exact s.adds_assign dest i
  | call invocation receiver method args type =>
    refine (s.adds_call invocation receiver method args type).bind fun _ => ?_
    split
    · exact adds_line rfl
    · exact adds_pure _
  | putField object f e =>
    exact (Emit.adds_slot _ _).bind fun _ => (s.adds_load e).bind fun _ => s.adds_field _ f
  | ret e type =>
    simp only [instruction, ret]
    split
    · exact adds_line rfl
    · refine (s.adds_load e).bind fun _ => adds_line ?_
      split <;> rfl
  | branch condition label => exact s.adds_branch condition label
  | goto label => exact adds_line rfl
  | nop => exact adds_line rfl
  | label name => exact adds_throw _
  | single e => exact hpopped _
  | binary op left right type => exact hpopped _
  | unary op e type => exact hpopped _
  | getField object f => exact hpopped _

end Scope

end JmmCompiler.Jasmin

import JmmCompiler.Proofs.EmittedRun
import JmmCompiler.Proofs.Labels
/-! Where the jumps of an emitted body go. The lines of an instruction are left at their end and through the
target of the instruction only: every other jump stays among them. -/
namespace JmmCompiler.Jasmin

namespace Line

/-- The label that a line may jump to. -/
def target? : Line → Option String
  | goto target | jump _ _ target => some target
  | _ => none

/-- Lines that end a method. -/
def isReturn : Line → Bool
  | plain .ret | plain .iret | plain .aret => true
  | _ => false

end Line

/-- Lines that do not return, and that jump to labels among them or outside only. -/
def Confined (outside : List String) (lines : List Line) : Prop :=
  ∀ l ∈ lines, l.isReturn = false ∧ ∀ name, l.target? = some name → name ∈ labelNames lines ∨ name ∈ outside

namespace Confined
variable {outside : List String} {lines lines' : List Line}

theorem nil (outside : List String) : Confined outside [] := by simp [Confined]

theorem single {l : Line} (hreturn : l.isReturn = false) (htarget : l.target? = none) : Confined outside [l] := by
  simp [Confined, hreturn, htarget]

theorem append (h : Confined outside lines) (h' : Confined outside lines') :
    Confined outside (lines ++ lines') := by
  intro l hl
  simp only [labelNames_append, List.mem_append]
  rcases List.mem_append.1 hl with hl | hl
  · exact ⟨(h l hl).1, fun name hname => ((h l hl).2 name hname).imp_left .inl⟩
  · exact ⟨(h' l hl).1, fun name hname => ((h' l hl).2 name hname).imp_left .inr⟩

/-- What pushes the outcome of a jump is confined with the lines that make the jump. -/
theorem boolean {taken done : Nat} (h : Confined ["j_true_" ++ toString taken] lines) :
    Confined [] (lines ++ booleanLines taken done) := by
  intro l hl
  simp only [labelNames_append, labelNames_booleanLines, List.mem_append, List.mem_cons, List.not_mem_nil, or_false]
  rcases List.mem_append.1 hl with hl | hl
  · refine ⟨(h l hl).1, fun name hname => ?_⟩
    exact ((h l hl).2 name hname).imp_right fun hmem => .inl (List.mem_singleton.1 hmem)
  · simp only [booleanLines, List.mem_cons, List.not_mem_nil, or_false] at hl
    rcases hl with rfl | rfl | rfl | rfl | rfl <;> simp [Line.isReturn, Line.target?]

end Confined

namespace Emit
variable {α β : Type} {outside : List String} {f : Emit α} {g : α → Emit β}

/-- What an emission that succeeds adds to a body is confined. -/
def Confines (outside : List String) (f : Emit α) : Prop :=
  ∀ b a b', runOn f b = (.ok a, b') → ∃ added, b'.lines = b.lines ++ added ∧ Confined outside added

theorem confines_ofExcept (x : Except Failure α) : Confines outside (ofExcept x) := by
  intro b a b' h
  simp only [runOn_ofExcept, Prod.mk.injEq] at h
  obtain ⟨-, rfl⟩ := h
  exact ⟨[], by simp, .nil _⟩

theorem confines_throw (e : Failure) : Confines outside (throw e : Emit α) := by
  intro b a b' h
  simp at h

theorem confines_pure (a : α) : Confines outside (pure a : Emit α) := by
  intro b a' b' h
  simp only [runOn_pure, Prod.mk.injEq] at h
  obtain ⟨-, rfl⟩ := h
  exact ⟨[], by simp, .nil _⟩

theorem Confines.bind (hf : Confines outside f) (hg : ∀ a, Confines outside (g a)) : Confines outside (f >>= g) := by
  intro b c b'' h
  obtain ⟨a, b', hfa, hga⟩ := runOn_bind_eq_ok.1 h
  obtain ⟨added, hlines, hconfined⟩ := hf b a b' hfa
  obtain ⟨added', hlines', hconfined'⟩ := hg a b' c b'' hga
  exact ⟨added ++ added', by rw [hlines', hlines, List.append_assoc], hconfined.append hconfined'⟩

theorem confines_line {l : Line} (h : Confined outside [l]) : Confines outside (line l) := by
  intro b a b' hrun
  simp only [runOn_line, Prod.mk.injEq] at hrun
  obtain ⟨-, rfl⟩ := hrun
  exact ⟨[l], rfl, h⟩

/-- A line that neither returns nor jumps. -/
theorem confines_step {l : Line} (hreturn : l.isReturn = false) (htarget : l.target? = none) :
    Confines outside (line l) := confines_line (.single hreturn htarget)

theorem confines_jump (compared : Compared) (op : Comparison) {label : String} (h : label ∈ outside) :
    Confines outside (line (.jump compared op label)) :=
  confines_line (by simpa [Confined, Line.isReturn, Line.target?] using .inr h)

theorem confines_slot (op : SlotOp) (n : Int) : Confines outside (slot op n) := by
  unfold slot
  split
  · exact confines_throw _
  · exact confines_step rfl rfl

theorem confines_increment (n amount : Int) : Confines outside (increment n amount) := by
  unfold increment
  split
  · exact confines_step rfl rfl
  · exact confines_throw _

theorem confines_numberJump (compared : Compared) (op : String) {label : String} (h : label ∈ outside) :
    Confines outside (numberJump compared op label) := by
  unfold numberJump
  split
  · exact confines_jump _ _ h
  · exact confines_throw _

theorem confines_referenceJump (op : String) {label : String} (h : label ∈ outside) :
    Confines outside (referenceJump op label) := by
  unfold referenceJump
  split
  · exact confines_jump _ _ h
  · exact confines_jump _ _ h
  · exact confines_throw _

end Emit

namespace Scope
open Emit
variable (s : Scope) {outside : List String}

theorem confines_slot (op : SlotOp) (name : String) : Confines outside (s.slot op name) :=
  (confines_ofExcept _).bind fun n => Emit.confines_slot op n

theorem confines_load (e : Element) : Confines outside (s.load e) := by
  induction e with
  | literal n type => exact confines_step rfl rfl
  | var name type => exact s.confines_slot _ name
  | classRef name type => exact confines_throw _
  | item array type index ih =>
    refine (s.confines_slot _ array).bind fun _ => ih.bind fun _ => confines_step ?_ rfl
    unfold arrayLoad
    split
    · rfl
    · split <;> rfl
  | absent => exact confines_throw _

theorem confines_loadAll (es : List Element) : Confines outside (s.loadAll es) := by
  induction es with
  | nil => exact confines_pure _
  | cons e es ih => exact (s.confines_load e).bind fun _ => ih

theorem confines_store (dest : Element) : Confines outside (s.store dest) :=
  (confines_ofExcept _).bind fun _ => (confines_ofExcept _).bind fun n => (confines_ofExcept _).bind fun _ =>
    Emit.confines_slot _ n

theorem confines_compareJump (op : String) (left right : Element) {label : String} (h : label ∈ outside) :
    Confines outside (s.compareJump op left right label) := by
  unfold compareJump
  refine (s.confines_load left).bind fun _ => (confines_ofExcept _).bind fun type => ?_
  split
  · exact (s.confines_load right).bind fun _ => confines_referenceJump op h
  · split
    · exact confines_numberJump _ op h
    · exact (s.confines_load right).bind fun _ => confines_numberJump _ op h

/-- The lines that push the outcome of a jump do not leave them. -/
theorem confines_boolean {f : String → Emit Unit} (hf : ∀ label, Confines [label] (f label)) :
    Confines outside (do
      let label ← newLabel "j_true"
      f label
      booleanResult label) := by
  intro b a b' h
  obtain ⟨b₂, hjump, rfl⟩ := runOn_boolean_eq_ok.1 h
  obtain ⟨added, hlines, hconfined⟩ := hf _ _ _ _ hjump
  refine ⟨added ++ booleanLines b.nextLabel b₂.nextLabel, ?_, fun l hl => ?_⟩
  · simp only [hlines, List.append_assoc]
  · obtain ⟨hreturn, htarget⟩ := hconfined.boolean l hl
    exact ⟨hreturn, fun name hname => .inl ((htarget name hname).resolve_right (by simp))⟩

theorem isReturn_of_opcode {o : Operator} {p : Plain} (h : opcode o = some p) : (Line.plain p).isReturn = false := by
  cases o with
  | arithmetic a => cases a <;> (obtain rfl := Option.some.inj h; rfl)
  | logical l => cases l <;> (obtain rfl := Option.some.inj h; rfl)
  | comparison c => cases h

theorem confines_binary (op : String) (left right : Element) : Confines outside (s.binary op left right) := by
  unfold binary
  split
  · exact confines_throw _
  · split
    · rename_i hp
      exact (s.confines_load left).bind fun _ => (s.confines_load right).bind fun _ =>
        confines_step (isReturn_of_opcode hp) rfl
    · exact confines_boolean fun label => s.confines_compareJump op left right (by simp)

theorem confines_unary (op : String) (e : Element) : Confines outside (s.unary op e) := by
  by_cases hop : op = "!"
  · subst hop
    rw [unary_not]
    exact confines_boolean fun label => (s.confines_load e).bind fun _ => confines_jump _ _ (by simp)
  · intro b a b' h
    simp [unary, hop] at h

theorem confines_invoke (op : CallOp) (owner : String) (receiver : Element) (method : Option String)
    (args : List Element) (type : Ty) : Confines outside (s.invoke op owner receiver method args type) :=
  (confines_ofExcept _).bind fun _ => confines_step rfl rfl

theorem confines_call (invocation : Invocation) (receiver : Element) (method : Option String)
    (args : List Element) (type : Ty) : Confines outside (s.call invocation receiver method args type) := by
  cases invocation with
  | new =>
    simp only [call]
    split
    · split
      · exact (s.confines_load _).bind fun _ => confines_step rfl rfl
      · exact confines_throw _
    · exact confines_step rfl rfl
  | arrayLength => exact (s.confines_load receiver).bind fun _ => confines_step rfl rfl
  | static =>
    exact (s.confines_loadAll args).bind fun _ => (confines_ofExcept _).bind fun _ => s.confines_invoke _ _ _ _ _ _
  | virtual =>
    exact (s.confines_load receiver).bind fun _ => (s.confines_loadAll args).bind fun _ =>
      (confines_ofExcept _).bind fun _ => s.confines_invoke _ _ _ _ _ _
  | special =>
    exact (s.confines_load receiver).bind fun _ => (s.confines_loadAll args).bind fun _ =>
      (confines_ofExcept _).bind fun _ => s.confines_invoke _ _ _ _ _ _

theorem confines_field (op : FieldOp) (f : Element) : Confines outside (s.field op f) :=
  (confines_ofExcept _).bind fun _ => (confines_ofExcept _).bind fun _ => confines_step rfl rfl

theorem confines_value (i : Instruction) : Confines outside (s.value i) := by
  cases i with
  | single e => exact s.confines_load e
  | binary op left right type => exact s.confines_binary op left right
  | unary op e type => exact s.confines_unary op e
  | call invocation receiver method args type => exact s.confines_call invocation receiver method args type
  | getField object f => exact (Emit.confines_slot _ _).bind fun _ => s.confines_field _ f
  | _ => exact confines_throw _

theorem confines_assign (dest : Element) (i : Instruction) : Confines outside (s.assign dest i) := by
  by_cases hitem : dest.isItem = true
  · obtain ⟨array, type, index, rfl⟩ := Element.exists_of_isItem hitem
    refine (s.confines_slot _ array).bind fun _ => (s.confines_load index).bind fun _ =>
      (s.confines_value i).bind fun _ => confines_step ?_ rfl
    unfold arrayStore
    split
    · rfl
    · split <;> rfl
  · rw [s.assign_of_not_isItem (by simpa using hitem)]
    refine (confines_ofExcept _).bind fun amount => ?_
    cases amount with
    | some amount =>
      exact (confines_ofExcept _).bind fun _ => (confines_ofExcept _).bind fun _ => confines_increment _ _
    | none => exact (s.confines_value i).bind fun _ => s.confines_store dest

theorem confines_branch (condition : Instruction) (label : String) :
    Confines [label] (s.branch condition label) := by
  have hvalue : Confines [label] (do
      s.value condition
      Emit.line (.jump .zero .ne label)) :=
    (s.confines_value condition).bind fun _ => confines_jump _ _ (by simp)
  unfold branch
  split
  · split
    · exact s.confines_compareJump _ _ _ (by simp)
    · exact hvalue
  · exact (s.confines_load _).bind fun _ => confines_jump _ _ (by simp)
  · exact hvalue

/-- The lines of an instruction that does not return are left through its target only. -/
theorem confines_instruction {i : Instruction} (hret : isReturn i = false) :
    Confines i.target?.toList (s.instruction i) := by
  have hpopped (i : Instruction) : Confines [] (do
      s.value i
      Emit.plain .pop) := (s.confines_value i).bind fun _ => confines_step rfl rfl
  cases i with
  | assign dest i => exact s.confines_assign dest i
  | call invocation receiver method args type =>
    refine (s.confines_call invocation receiver method args type).bind fun _ => ?_
    split
    · exact confines_step rfl rfl
    · exact confines_pure _
  | putField object f e =>
    exact (Emit.confines_slot _ _).bind fun _ => (s.confines_load e).bind fun _ => s.confines_field _ f
  | ret e type => cases hret
  | branch condition label => exact s.confines_branch condition label
  | goto label =>
    exact confines_line (by simp [Confined, Line.isReturn, Line.target?, Instruction.target?])
  | nop => exact confines_step rfl rfl
  | label name => exact confines_throw _
  | single e => exact hpopped _
  | binary op left right type => exact hpopped _
  | unary op e type => exact hpopped _
  | getField object f => exact hpopped _

variable {s} {b b' : Body}

/-- The line that returns from a method, where `e` is what is returned. -/
def returnLine (e : Element) (type : Ty) : Plain :=
  if e = .absent ∨ type = .void then .ret else if type.isIntLike then .iret else .aret

/-- The lines of a return end in the line that returns. -/
theorem exists_ret {e : Element} {type : Ty} (h : runOn (s.instruction (.ret e type)) b = (.ok (), b')) :
    ∃ loaded, b'.lines = b.lines ++ (loaded ++ [.plain (returnLine e type)]) ∧ Confined [] loaded := by
  simp only [instruction, ret] at h
  unfold returnLine
  split at h
  · rename_i hvoid
    rw [if_pos hvoid]
    simp only [Emit.runOn_plain, Prod.mk.injEq, true_and] at h
    exact ⟨[], by simp [← h], .nil _⟩
  · rename_i hvalue
    rw [if_neg hvalue]
    obtain ⟨_, b₁, hload, hline⟩ := runOn_bind_eq_ok.1 h
    obtain ⟨loaded, hlines, hconfined⟩ := s.confines_load e _ _ _ hload
    simp only [Emit.runOn_plain, Prod.mk.injEq, true_and] at hline
    exact ⟨loaded, by simp [← hline, hlines], hconfined⟩

/-- The jumps in the lines of an instruction stay among them or go where the instruction goes. -/
theorem exists_added {i : Instruction} (h : runOn (s.instruction i) b = (.ok (), b')) :
    ∃ added, b'.lines = b.lines ++ added ∧ ∀ l ∈ added, ∀ name, l.target? = some name →
      name ∈ labelNames added ∨ i.target? = some name := by
  by_cases hret : isReturn i = true
  · obtain ⟨e, type, rfl⟩ : ∃ e type, i = .ret e type := by
      cases i with
      | ret e type => exact ⟨e, type, rfl⟩
      | _ => cases hret
    obtain ⟨loaded, hlines, hconfined⟩ := exists_ret h
    refine ⟨_, hlines, fun l hl name hname => ?_⟩
    rcases List.mem_append.1 hl with hl | hl
    · rw [labelNames_append, List.mem_append]
      exact ((hconfined l hl).2 name hname).imp .inl (by simp)
    · obtain rfl := List.mem_singleton.1 hl
      cases hname
  · obtain ⟨added, hlines, hconfined⟩ := s.confines_instruction (by simpa using hret) _ _ _ h
    exact ⟨added, hlines, fun l hl name hname =>
      ((hconfined l hl).2 name hname).imp_right fun hmem => by simpa using hmem⟩

/-- The same for a sequence of instructions. -/
theorem exists_added_instructions {index : Nat} {xs : List Instruction}
    (h : runOn (s.instructions index xs) b = (.ok (), b')) :
    ∃ added, b'.lines = b.lines ++ added ∧ ∀ l ∈ added, ∀ name, l.target? = some name →
      name ∈ labelNames added ∨ ∃ i ∈ xs, i.target? = some name := by
  induction xs generalizing index b with
  | nil =>
    obtain rfl : b = b' := by simpa [instructions] using h
    exact ⟨[], by simp, by simp⟩
  | cons i xs ih =>
    obtain ⟨b₁, hfirst, hrest⟩ := runOn_instructions_cons.1 h
    obtain ⟨added, hlines, hjumps⟩ := exists_added hfirst
    obtain ⟨added', hlines', hjumps'⟩ := ih hrest
    refine ⟨(s.method.labelsAt index).map .label ++ added ++ added', by simp [hlines', hlines], ?_⟩
    intro l hl name hname
    simp only [labelNames_append, List.mem_append] at hl ⊢
    rcases hl with (hl | hl) | hl
    · obtain ⟨label, -, rfl⟩ := List.mem_map.1 hl
      cases hname
    · exact (hjumps l hl name hname).imp (fun h => .inl (.inr h)) fun h => ⟨i, by simp, h⟩
    · rcases hjumps' l hl name hname with h | ⟨j, hj, h⟩
      · exact .inl (.inr h)
      · exact .inr ⟨j, by simp [hj], h⟩

/-- The labels of a method stand in its body. -/
theorem mem_labelNames_of_find? (hs : s.LabelsFit) (h : runOn s.body {} = (.ok (), b')) {label : String} {k : Nat}
    (hk : k < s.method.code.length) (hlabel : s.method.labels.find? label = some k) :
    label ∈ labelNames b'.lines := by
  obtain ⟨taken, htarget, -⟩ := exists_target (fun _ => (pure .null : Act Unit Value)) hs h hk hlabel
  obtain ⟨hlt, hline, -⟩ := List.idxOf?_eq_some_iff.1 htarget
  exact mem_labelNames.2 (hline ▸ List.getElem_mem hlt)

/-- Every jump in a body goes to a label in it. -/
theorem jumps_body (hs : s.LabelsFit) (htargets : s.TargetsFit) (h : runOn s.body {} = (.ok (), b')) :
    ∀ l ∈ b'.lines, ∀ name, l.target? = some name → name ∈ labelNames b'.lines := by
  obtain ⟨_, all, hall, hlast⟩ := runOn_bind_eq_ok.1 h
  obtain ⟨added, hlines, hjumps⟩ := exists_added_instructions hall
  obtain ⟨last, hbody, hend⟩ : ∃ last, b'.lines = added ++ last ∧ ∀ l ∈ last, l.target? = none := by
    split at hlast
    · simp only [Emit.runOn_plain, Prod.mk.injEq, true_and] at hlast
      exact ⟨[.plain .ret], by simp [← hlast, hlines], by simp [Line.target?]⟩
    · simp only [runOn_pure, Prod.mk.injEq, true_and] at hlast
      exact ⟨[], by simp [← hlast, hlines], by simp⟩
  intro l hl name hname
  rw [hbody, List.mem_append] at hl
  rcases hl with hl | hl
  · rcases hjumps l hl name hname with hmem | ⟨i, hi, htarget⟩
    · rw [hbody, labelNames_append, List.mem_append]
      exact .inl hmem
    · obtain ⟨k, hk, hfind⟩ := htargets i hi name htarget
      exact mem_labelNames_of_find? hs h hk hfind
  · rw [hend l hl] at hname
    cases hname

end Scope
end JmmCompiler.Jasmin

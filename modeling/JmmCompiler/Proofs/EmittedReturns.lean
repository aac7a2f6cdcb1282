import JmmCompiler.Proofs.EmittedJumps
import JmmCompiler.Proofs.ReturnPaths
/-! Where control goes in emitted lines. A run of a body stays among the lines of the instructions that a run of the
code gets to, so that the body is left where the code returns, or by the return at the end of a void method. -/
namespace JmmCompiler

namespace Jasmin

/-- Whether the line behind a line may run next. -/
def Line.continues : Line → Bool
  | goto _ => false
  | l => !l.isReturn

/-- The lines that a run of a body may get to. -/
inductive Visits (code : List Line) : Nat → Prop
  | start : Visits code 0
  | next {pc : Nat} {l : Line} (h : Visits code pc) (hl : code[pc]? = some l) (hnext : l.continues = true) :
      Visits code (pc + 1)
  | jump {pc pc' : Nat} {l : Line} {name : String} (h : Visits code pc) (hl : code[pc]? = some l)
      (hname : l.target? = some name) (hplace : target code name = some pc') : Visits code pc'

/-- The line that returns from a method of a return type. -/
def returnOf (type : Ty) : Plain := if type = .void then .ret else if type.isIntLike then .iret else .aret

namespace Emit
variable {α β : Type} {f : Emit α} {g : α → Emit β}

/-- An emission that succeeds adds a line. -/
def Grows (f : Emit α) : Prop := ∀ b a b', runOn f b = (.ok a, b') → b.lines.length < b'.lines.length

theorem grows_line (l : Line) : Grows (line l) := by
  intro b a b' h
  simp only [runOn_line, Prod.mk.injEq] at h
  simp [← h.2]

theorem grows_throw (e : Failure) : Grows (throw e : Emit α) := by
  intro b a b' h
  simp at h

theorem Grows.last (hf : Adds f) (hg : ∀ a, Grows (g a)) : Grows (f >>= g) := by
  intro b c b'' h
  obtain ⟨a, b', hfa, hga⟩ := runOn_bind_eq_ok.1 h
  exact Nat.lt_of_le_of_lt (hf b a b' hfa).lines_le.length_le (hg a b' c b'' hga)

theorem Grows.first (hf : Grows f) (hg : ∀ a, Adds (g a)) : Grows (f >>= g) := by
  intro b c b'' h
  obtain ⟨a, b', hfa, hga⟩ := runOn_bind_eq_ok.1 h
  exact Nat.lt_of_lt_of_le (hf b a b' hfa) (hg a b' c b'' hga).lines_le.length_le

theorem grows_slot (op : SlotOp) (n : Int) : Grows (slot op n) := by
  unfold slot
  split
  · exact grows_throw _
  · exact grows_line _

theorem grows_increment (n amount : Int) : Grows (increment n amount) := by
  unfold increment
  split
  · exact grows_line _
  · exact grows_throw _

theorem grows_numberJump (compared : Compared) (op label : String) : Grows (numberJump compared op label) := by
  unfold numberJump
  split
  · exact grows_line _
  · exact grows_throw _

theorem grows_referenceJump (op label : String) : Grows (referenceJump op label) := by
  unfold referenceJump
  split
  · exact grows_line _
  · exact grows_line _
  · exact grows_throw _

end Emit

namespace Scope
open Emit
variable (s : Scope)

theorem grows_store (dest : Element) : Grows (s.store dest) :=
  .last (adds_ofExcept _) fun _ => .last (adds_ofExcept _) fun n => .last (adds_ofExcept _) fun _ =>
    Emit.grows_slot _ n

theorem grows_compareJump (op : String) (left right : Element) (label : String) :
    Grows (s.compareJump op left right label) := by
  unfold compareJump
  refine .last (s.adds_load left) fun _ => .last (adds_ofExcept _) fun type => ?_
  split
  · exact .last (s.adds_load right) fun _ => grows_referenceJump op label
  · split
    · exact grows_numberJump _ op label
    · exact .last (s.adds_load right) fun _ => grows_numberJump _ op label

theorem grows_invoke (op : CallOp) (owner : String) (receiver : Element) (method : Option String)
    (args : List Element) (type : Ty) : Grows (s.invoke op owner receiver method args type) :=
  .last (adds_ofExcept _) fun _ => grows_line _

theorem grows_call (invocation : Invocation) (receiver : Element) (method : Option String)
    (args : List Element) (type : Ty) : Grows (s.call invocation receiver method args type) := by
  cases invocation with
  | new =>
    simp only [call]
    split
    · split
      · exact .last (s.adds_load _) fun _ => grows_line _
      · exact grows_throw _
    · exact grows_line _
  | arrayLength => exact .last (s.adds_load receiver) fun _ => grows_line _
  | static => exact .last (s.adds_loadAll args) fun _ => .last (adds_ofExcept _) fun _ => s.grows_invoke _ _ _ _ _ _
  | virtual =>
    exact .last (s.adds_load receiver) fun _ => .last (s.adds_loadAll args) fun _ => .last (adds_ofExcept _) fun _ =>
      s.grows_invoke _ _ _ _ _ _
  | special =>
    exact .last (s.adds_load receiver) fun _ => .last (s.adds_loadAll args) fun _ => .last (adds_ofExcept _) fun _ =>
      s.grows_invoke _ _ _ _ _ _

theorem grows_field (op : FieldOp) (f : Element) : Grows (s.field op f) :=
  .last (adds_ofExcept _) fun _ => .last (adds_ofExcept _) fun _ => grows_line _

theorem grows_assign (dest : Element) (i : Instruction) : Grows (s.assign dest i) := by
  by_cases hitem : dest.isItem = true
  · obtain ⟨array, type, index, rfl⟩ := Element.exists_of_isItem hitem
    exact .last (s.adds_slot _ array) fun _ => .last (s.adds_load index) fun _ => .last (s.adds_value i) fun _ =>
      grows_line _
  · rw [s.assign_of_not_isItem (by simpa using hitem)]
    refine .last (adds_ofExcept _) fun amount => ?_
    cases amount with
    | some amount =>
      exact .last (adds_ofExcept _) fun _ => .last (adds_ofExcept _) fun _ => grows_increment _ _
    | none => exact .last (s.adds_value i) fun _ => s.grows_store dest

theorem grows_branch (condition : Instruction) (label : String) : Grows (s.branch condition label) := by
  unfold branch
  split
  · split
    · exact s.grows_compareJump _ _ _ label
    · exact .last (s.adds_value _) fun _ => grows_line _
  · exact .last (s.adds_load _) fun _ => grows_line _
  · exact .last (s.adds_value _) fun _ => grows_line _

/-- Every instruction has a line. -/
theorem grows_instruction (i : Instruction) : Grows (s.instruction i) := by
  have hpopped (i : Instruction) : Grows (do
      s.value i
      Emit.plain .pop) := .last (s.adds_value i) fun _ => grows_line _
  cases i with
  | assign dest i => exact s.grows_assign dest i
  | call invocation receiver method args type =>
    refine .first (s.grows_call invocation receiver method args type) fun _ => ?_
    split
    · exact adds_line rfl
    · exact adds_pure _
  | putField object f e =>
    exact .last (Emit.adds_slot _ _) fun _ => .last (s.adds_load e) fun _ => s.grows_field _ f
  | ret e type =>
    simp only [instruction, ret]
    split
    · exact grows_line _
    · exact .last (s.adds_load e) fun _ => grows_line _
  | branch condition label => exact s.grows_branch condition label
  | goto label => exact grows_line _
  | nop => exact grows_line _
  | label name => exact grows_throw _
  | single e => exact hpopped _
  | binary op left right type => exact hpopped _
  | unary op e type => exact hpopped _
  | getField object f => exact hpopped _

/-! ## Instructions and their lines -/

/-- The line at which the lines of an instruction begin, the labels on it included. -/
def first (k : Nat) : Nat := (runOn (s.instructions 0 (s.method.code.take k)) {}).2.lines.length

variable {s} {b' : Body} {k : Nat} {i : Instruction}

/-- The lines of an instruction stand between its first line and that of the next instruction. -/
theorem exists_lines (h : runOn s.body {} = (.ok (), b')) (hi : s.method.code[k]? = some i) :
    ∃ b after added, runOn (s.instruction i) b = (.ok (), after) ∧ after.lines = b.lines ++ added ∧ added ≠ [] ∧
      s.first (k + 1) = s.first k + (s.method.labelsAt k).length + added.length ∧
      ∀ j < (s.method.labelsAt k).length + added.length,
        b'.lines[s.first k + j]? = ((s.method.labelsAt k).map .label ++ added)[j]? := by
  obtain ⟨before, after, hbefore, hrun, hafter, hlines_le⟩ := exists_bodies h hi
  obtain ⟨added, hadded⟩ := (s.adds_instruction i _ _ _ hrun).lines_le
  have hgrows := s.grows_instruction i _ _ _ hrun
  simp only [← hadded, List.length_append] at hgrows
  have hfirst : s.first k = before.lines.length := by simp [first, hbefore]
  refine ⟨_, after, added, hrun, hadded.symm, fun hnil => by simp [hnil] at hgrows, ?_, fun j hj => ?_⟩
  · simp [first, hafter, hbefore, ← hadded, Nat.add_assoc]
  · obtain ⟨rest, hrest⟩ := hlines_le
    rw [← hrest, ← hadded, hfirst, List.append_assoc, List.append_assoc, List.getElem?_append_right (by omega),
      Nat.add_sub_cancel_left, ← List.append_assoc, List.getElem?_append_left (by simpa using hj)]

theorem first_lt (h : runOn s.body {} = (.ok (), b')) (hi : s.method.code[k]? = some i) :
    s.first k < s.first (k + 1) := by
  obtain ⟨b, after, added, -, -, hne, hlength, -⟩ := exists_lines h hi
  have := List.length_pos_iff.2 hne
  omega

/-- A label among the lines of an instruction is found there. -/
theorem exists_target_of_mem (hs : s.LabelsFit) (h : runOn s.body {} = (.ok (), b')) (lines : List Line)
    (hlines : ∀ j < lines.length, b'.lines[s.first k + j]? = lines[j]?) (hlength : s.first (k + 1) = s.first k + lines.length)
    {label : String} (hlabel : label ∈ labelNames lines) :
    ∃ pc, target b'.lines label = some pc ∧ s.first k ≤ pc ∧ pc < s.first (k + 1) := by
  obtain ⟨j, hj, hget⟩ := List.getElem_of_mem (mem_labelNames.1 hlabel)
  have hplace : b'.lines[s.first k + j]? = some (.label label) := by
    rw [hlines j hj, List.getElem?_eq_getElem hj, hget]
  exact ⟨_, target_of_getElem? (nodup_labels hs h) hplace, by omega, by omega⟩

/-- A jump to the label of an instruction goes to one of the lines of the instruction. -/
theorem exists_target_line (hs : s.LabelsFit) (h : runOn s.body {} = (.ok (), b')) (hk : k < s.method.code.length)
    {label : String} (hlabel : s.method.labels.find? label = some k) :
    ∃ pc, target b'.lines label = some pc ∧ s.first k ≤ pc ∧ pc < s.first (k + 1) := by
  obtain ⟨b, after, added, -, -, -, hlength, hlines⟩ := exists_lines h (List.getElem?_eq_getElem hk)
  have hmem : label ∈ s.method.labelsAt k := mem_labelsAt.2 (Assoc.mem_of_findEntry hlabel)
  refine exists_target_of_mem hs h ((s.method.labelsAt k).map .label ++ added) (by simpa using hlines) ?_ ?_
  · simp [hlength, Nat.add_assoc]
  · exact mem_labelNames.2 (by simp [hmem])

/-- The lines of a return load its value and return it. -/
theorem leads_of_ret {b after : Body} {added : List Line} {e : Element} {type : Ty}
    (hrun : runOn (s.instruction (.ret e type)) b = (.ok (), after)) (hadded : after.lines = b.lines ++ added)
    {q : Nat} (hq : q < added.length) :
    (added[q].continues = true → q + 1 < added.length) ∧ (∀ name, added[q].target? = some name → name ∈ labelNames added) ∧
      (added[q].isReturn = true → added[q] = .plain (returnLine e type)) := by
  obtain ⟨loaded, hloaded, hconfined⟩ := exists_ret hrun
  obtain rfl : added = loaded ++ [.plain (returnLine e type)] := List.append_cancel_left (hadded.symm.trans hloaded)
  have hreturns : (Line.plain (returnLine e type)).isReturn = true := by
    unfold returnLine
    split
    · rfl
    · split <;> rfl
  by_cases hlast : q < loaded.length
  · rw [List.getElem_append_left hlast]
    obtain ⟨hnone, htarget⟩ := hconfined _ (List.getElem_mem hlast)
    refine ⟨fun _ => by simpa using hlast, fun name hname => ?_, by simp [hnone]⟩
    rw [labelNames_append, List.mem_append]
    exact .inl ((htarget name hname).resolve_right (by simp))
  · obtain rfl : q = loaded.length := by simp at hq; omega
    rw [List.getElem_concat_length rfl]
    refine ⟨fun hcontinues => ?_, fun name hname => ?_, fun _ => rfl⟩
    · simp [Line.continues, hreturns] at hcontinues
    · cases hname

/-- The lines of what is no return lead to one another, or to where the instruction leads. -/
theorem leads_of_other {b after : Body} {added : List Line} (hrun : runOn (s.instruction i) b = (.ok (), after))
    (hadded : after.lines = b.lines ++ added) (hret : isReturn i = false) {q : Nat} (hq : q < added.length) :
    (added[q].continues = true → q + 1 < added.length ∨ i.continues = true) ∧
      (∀ name, added[q].target? = some name → i.target? = some name ∨ name ∈ labelNames added) ∧
      added[q].isReturn = false := by
  obtain ⟨added', hadded', hconfined⟩ := s.confines_instruction hret _ _ _ hrun
  obtain rfl : added = added' := List.append_cancel_left (hadded.symm.trans hadded')
  obtain ⟨hnone, htarget⟩ := hconfined _ (List.getElem_mem hq)
  refine ⟨fun hcontinues => ?_, fun name hname => ?_, hnone⟩
  · cases i with
    | ret e type => cases hret
    | goto label =>
      -- the only line of a jump
      obtain rfl : added = [.goto label] := by
        simp only [instruction, Emit.runOn_line, Prod.mk.injEq, true_and] at hrun
        exact List.append_cancel_left (hadded.symm.trans (by rw [← hrun]))
      obtain rfl : q = 0 := by simpa using hq
      cases hcontinues
    | _ => exact .inr rfl
  · exact (htarget name hname).symm.imp (by simp) id

/-- Where a line of an instruction leads: to another line of the instruction or to where the instruction leads.
A line that returns is that of a return instruction. -/
theorem leads_of_line (hs : s.LabelsFit) (h : runOn s.body {} = (.ok (), b')) (hi : s.method.code[k]? = some i)
    {pc : Nat} (hle : s.first k ≤ pc) (hlt : pc < s.first (k + 1)) :
    ∃ l, b'.lines[pc]? = some l ∧
      (l.continues = true → pc + 1 < s.first (k + 1) ∨ pc + 1 = s.first (k + 1) ∧ i.continues = true) ∧
      (∀ name, l.target? = some name → i.target? = some name ∨
        ∃ pc', target b'.lines name = some pc' ∧ s.first k ≤ pc' ∧ pc' < s.first (k + 1)) ∧
      (l.isReturn = true → ∃ e type, i = .ret e type ∧ l = .plain (returnLine e type)) := by
  obtain ⟨b, after, added, hrun, hadded, hne, hlength, hlines⟩ := exists_lines h hi
  obtain ⟨j, rfl⟩ := Nat.exists_eq_add_of_le hle
  have hj : j < (s.method.labelsAt k).length + added.length := by omega
  rw [hlines j hj]
  by_cases hlabel : j < (s.method.labelsAt k).length
  · -- a label is passed
    refine ⟨.label (s.method.labelsAt k)[j], ?_, fun _ => ?_, by simp [Line.target?], by simp [Line.isReturn]⟩
    · rw [List.getElem?_append_left (by simpa using hlabel)]
      simp [hlabel]
    · have := List.length_pos_iff.2 hne
      exact .inl (by omega)
  obtain ⟨q, rfl⟩ := Nat.exists_eq_add_of_le (Nat.le_of_not_lt hlabel)
  have hq : q < added.length := by omega
  have hget : ((s.method.labelsAt k).map Line.label ++ added)[(s.method.labelsAt k).length + q]? = some added[q] := by
    rw [List.getElem?_append_right (by simp)]
    simp [hq]
  have hinside {name : String} (hname : name ∈ labelNames added) :
      ∃ pc', target b'.lines name = some pc' ∧ s.first k ≤ pc' ∧ pc' < s.first (k + 1) := by
    refine exists_target_of_mem hs h ((s.method.labelsAt k).map .label ++ added) (by simpa using hlines) ?_ ?_
    · simp [hlength, Nat.add_assoc]
    · exact mem_labelNames.2 (List.mem_append_right _ (mem_labelNames.1 hname))
  refine ⟨added[q], hget, ?_⟩
  by_cases hret : isReturn i = true
  · obtain ⟨e, type, rfl⟩ : ∃ e type, i = .ret e type := by
      cases i with
      | ret e type => exact ⟨e, type, rfl⟩
      | _ => cases hret
    obtain ⟨hcontinues, htarget, hreturn⟩ := leads_of_ret hrun hadded hq
    exact ⟨fun h => .inl (by have := hcontinues h; omega), fun name hname => .inr (hinside (htarget name hname)),
      fun h => ⟨e, type, rfl, hreturn h⟩⟩
  · obtain ⟨hcontinues, htarget, hreturn⟩ := leads_of_other hrun hadded (Bool.eq_false_iff.2 hret) hq
    refine ⟨fun h => ?_, fun name hname => (htarget name hname).imp_right hinside, by simp [hreturn]⟩
    by_cases hend : q + 1 < added.length
    · exact .inl (by omega)
    · exact .inr ⟨by omega, (hcontinues h).resolve_left hend⟩

end Scope
end Jasmin

namespace CodeMethod
variable {m : CodeMethod}

/-- Control may get behind the last instruction of a void method, where a return is added. -/
def RunsOff (m : CodeMethod) : Prop :=
  m.returnType = .void ∧ ∀ i, m.code.getLast? = some i → Jasmin.Scope.isReturn i = false

/-- The code of a method is left by a return, or at the end where a return is added. -/
theorem Closed.stays_runsOff (h : m.Closed) : m.Stays (fun k => k = m.code.length ∧ m.RunsOff) 0 := by
  by_cases htype : m.returnType = .void
  · refine ⟨(· < m.code.length), ?_, fun k hk => ⟨hk, fun k' hedge => ?_⟩⟩
    · by_cases hnil : m.code = []
      · exact .inr ⟨by simp [hnil], htype, by simp [hnil]⟩
      · exact .inl (List.length_pos_iff.2 hnil)
    · obtain ⟨i, hi, ⟨l, hl, hplace⟩ | ⟨hcontinues, rfl⟩⟩ := hedge
      · obtain ⟨pc, hpc, hfind⟩ := h.labels.jumps i (List.mem_of_getElem? hi) l hl
        exact .inl (Option.some.inj (hplace.symm.trans hfind) ▸ hpc)
      · by_cases hlast : k + 1 < m.code.length
        · exact .inl hlast
        · refine .inr ⟨by omega, htype, fun last hget => ?_⟩
          have hk : k = m.code.length - 1 := by omega
          rw [List.getLast?_eq_getElem?, ← hk, hi] at hget
          obtain rfl := Option.some.inj hget
          cases i with
          | ret e type => cases hcontinues
          | _ => rfl
  · exact (h.stays htype).trans fun k hk => hk.elim

end CodeMethod

namespace Jasmin.Scope
variable {s : Scope} {b' : Body} {lines : List Line}

/-- Behind the lines of the instructions there is a return if control may get there. -/
theorem getElem?_end (h : runOn s.body {} = (.ok (), b')) (hend : s.method.RunsOff) :
    b'.lines[s.first s.method.code.length]? = some (.plain .ret) := by
  obtain ⟨_, all, hall, hlast⟩ := runOn_bind_eq_ok.1 h
  have hany : s.method.code.getLast?.any isReturn = false := by
    cases hget : s.method.code.getLast? with
    | none => rfl
    | some i => exact hend.2 i hget
  simp only [hend.1, decide_true, hany, Bool.not_false, Bool.and_self, if_true, Emit.runOn_plain, Prod.mk.injEq,
    true_and] at hlast
  simp [first, hall, ← hlast]

/-- Every line that a run of a body gets to is there, its jump has a target, and if it returns it is the return of
the return type. -/
theorem returns_of_visits (hs : s.LabelsFit) (hm : s.method.Closed) (hlines : s.bodyLines = .ok lines) {pc : Nat}
    (hpc : Visits lines pc) :
    ∃ l, lines[pc]? = some l ∧ (∀ name, l.target? = some name → ∃ pc', target lines name = some pc') ∧
      (l.isReturn = true → l = .plain (returnOf s.method.returnType)) := by
  obtain ⟨b, h, rfl⟩ := runOn_body_of_bodyLines hlines
  obtain ⟨inside, hstart, hinside⟩ := hm.stays_runsOff
  -- an invariant of runs: the line is one of an instruction inside, or the return at the end
  have hplaces : (∃ k, inside k ∧ s.first k ≤ pc ∧ pc < s.first (k + 1)) ∨
      pc = s.first s.method.code.length ∧ s.method.RunsOff := by
    have hat {k : Nat} (hk : inside k ∨ k = s.method.code.length ∧ s.method.RunsOff) :
        (∃ k', inside k' ∧ s.first k' ≤ s.first k ∧ s.first k < s.first (k' + 1)) ∨
          s.first k = s.first s.method.code.length ∧ s.method.RunsOff := by
      rcases hk with hk | ⟨rfl, hend⟩
      · exact .inl ⟨k, hk, Nat.le_refl _, first_lt h (List.getElem?_eq_getElem (hinside k hk).1)⟩
      · exact .inr ⟨rfl, hend⟩
    induction hpc with
    | start => exact hat hstart
    | next hpc hl hnext ih =>
      rcases ih with ⟨k, hk, hle, hlt⟩ | ⟨rfl, hend⟩
      · have hi := List.getElem?_eq_getElem (hinside k hk).1
        obtain ⟨l', hl', hcontinues, -⟩ := leads_of_line hs h hi hle hlt
        obtain rfl := Option.some.inj (hl.symm.trans hl')
        rcases hcontinues hnext with hlt' | ⟨heq, hcontinues⟩
        · exact .inl ⟨k, hk, by omega, hlt'⟩
        · rw [heq]
          exact hat ((hinside k hk).2 _ (CodeMethod.edge_next hi hcontinues))
      · rw [getElem?_end h hend] at hl
        obtain rfl := Option.some.inj hl
        cases hnext
    | jump hpc hl hname hplace ih =>
      rcases ih with ⟨k, hk, hle, hlt⟩ | ⟨rfl, hend⟩
      · have hi := List.getElem?_eq_getElem (hinside k hk).1
        obtain ⟨l', hl', -, htarget, -⟩ := leads_of_line hs h hi hle hlt
        obtain rfl := Option.some.inj (hl.symm.trans hl')
        rcases htarget _ hname with hname | ⟨pc', hpc', hle', hlt'⟩
        · obtain ⟨k', hk', hfind⟩ := hm.labels.jumps _ (List.mem_of_getElem? hi) _ hname
          obtain ⟨pc', hpc', hle', hlt'⟩ := exists_target_line hs h hk' hfind
          obtain rfl := Option.some.inj (hplace.symm.trans hpc')
          rcases (hinside k hk).2 k' ⟨_, hi, .inl ⟨_, hname, hfind⟩⟩ with hk'' | ⟨rfl, -⟩
          · exact .inl ⟨k', hk'', hle', hlt'⟩
          · omega
        · obtain rfl := Option.some.inj (hplace.symm.trans hpc')
          exact .inl ⟨k, hk, hle', hlt'⟩
      · rw [getElem?_end h hend] at hl
        obtain rfl := Option.some.inj hl
        cases hname
  rcases hplaces with ⟨k, hk, hle, hlt⟩ | ⟨rfl, hend⟩
  · have hi := List.getElem?_eq_getElem (hinside k hk).1
    obtain ⟨l, hl, -, htarget, hreturn⟩ := leads_of_line hs h hi hle hlt
    refine ⟨l, hl, fun name hname => ?_, fun hisReturn => ?_⟩
    · rcases htarget name hname with hname | ⟨pc', hpc', -⟩
      · obtain ⟨k', hk', hfind⟩ := hm.labels.jumps _ (List.mem_of_getElem? hi) _ hname
        obtain ⟨pc', hpc', -⟩ := exists_target_line hs h hk' hfind
        exact ⟨pc', hpc'⟩
      · exact ⟨pc', hpc'⟩
    · obtain ⟨e, type, hret, rfl⟩ := hreturn hisReturn
      obtain ⟨hvoid, hvalue⟩ := hm.returning e type (hret ▸ List.getElem_mem _)
      unfold returnLine returnOf
      by_cases htype : s.method.returnType = .void
      · simp [htype, hvoid htype]
      · obtain ⟨habsent, rfl⟩ := hvalue htype
        simp [htype, habsent]
  · exact ⟨_, getElem?_end h hend, by simp [Line.target?], fun _ => by simp [returnOf, hend.1]⟩

end Jasmin.Scope
end JmmCompiler

import JmmCompiler.Proofs.Emittable
import JmmCompiler.Proofs.EmittedInstruction
import JmmCompiler.Proofs.Slots
/-! The lines of a method run as its three-address code does, for runs of any length. -/
namespace JmmCompiler.Jasmin

namespace Scope
variable (s : Scope)

/-- The labels on an instruction. -/
def markers (index : Nat) : Emit Unit := do
  for label in s.method.labelsAt index do Emit.line (.label label)

/-- What comes before the lines of an instruction itself. -/
def upTo (index : Nat) : Emit Unit := do
  s.instructions 0 (s.method.code.take index)
  if index < s.method.code.length then s.markers index

/-- The line at which an instruction begins, behind the labels on it. -/
def entry (index : Nat) : Nat := (runOn (s.upTo index) {}).2.lines.length

variable {s} {b b' : Body}

theorem runOn_labels (labels : List String) (b : Body) :
    runOn (do for label in labels do Emit.line (.label label)) b =
      (.ok (), ⟨b.lines ++ labels.map .label, b.nextLabel⟩) := by
  induction labels generalizing b with
  | nil => simp
  | cons label labels ih =>
    have hrest := ih ⟨b.lines ++ [.label label], b.nextLabel⟩
    simp only [List.forIn_cons, runOn_bind, Emit.runOn_line, runOn_pure] at hrest ⊢
    simpa using hrest

theorem instructions_append (index : Nat) (xs ys : List Instruction) :
    s.instructions index (xs ++ ys) = (do
      s.instructions index xs
      s.instructions (index + xs.length) ys) := by
  induction xs generalizing index with
  | nil => simp [instructions]
  | cons i xs ih =>
    have hindex : index + 1 + xs.length = index + (xs.length + 1) := by omega
    simp only [List.cons_append, instructions, ih, bind_assoc, List.length_cons, hindex]

theorem runOn_markers (index : Nat) (b : Body) :
    runOn (s.markers index) b =
      (.ok (), ⟨b.lines ++ (s.method.labelsAt index).map .label, b.nextLabel⟩) :=
  runOn_labels _ b

theorem runOn_instructions_cons {index : Nat} {i : Instruction} {rest : List Instruction} :
    runOn (s.instructions index (i :: rest)) b = (.ok (), b') ↔ ∃ b₁,
      runOn (s.instruction i) ⟨b.lines ++ (s.method.labelsAt index).map .label, b.nextLabel⟩ =
        (.ok (), b₁) ∧ runOn (s.instructions (index + 1) rest) b₁ = (.ok (), b') := by
  have h : s.instructions index (i :: rest) = (do
      s.markers index
      s.instruction i
      s.instructions (index + 1) rest) := by simp [instructions, markers]
  simp only [h, runOn_bind_eq_ok, runOn_markers, Prod.mk.injEq, true_and]
  constructor
  · rintro ⟨_, _, rfl, _, b₁, hfirst, hrest⟩
    exact ⟨b₁, hfirst, hrest⟩
  · rintro ⟨b₁, hfirst, hrest⟩
    exact ⟨(), _, rfl, (), b₁, hfirst, hrest⟩

theorem exists_instructions {xs : List Instruction} (h : ∀ i ∈ xs, s.InstructionEmits i) (index : Nat)
    (b : Body) : ∃ b', runOn (s.instructions index xs) b = (.ok (), b') := by
  induction xs generalizing index b with
  | nil => exact ⟨b, rfl⟩
  | cons i xs ih =>
    obtain ⟨_, b₁, hfirst⟩ := total_instruction (h i List.mem_cons_self)
      ⟨b.lines ++ (s.method.labelsAt index).map .label, b.nextLabel⟩
    obtain ⟨b', hrest⟩ := ih (fun j hj => h j (List.mem_cons_of_mem _ hj)) (index + 1) b₁
    exact ⟨b', runOn_instructions_cons.2 ⟨b₁, hfirst, hrest⟩⟩

/-- A method has lines if all of its instructions are of a known form with slots for their variables. -/
theorem exists_bodyLines (h : ∀ i ∈ s.method.code, s.InstructionEmits i) :
    ∃ lines, s.bodyLines = .ok lines := by
  obtain ⟨all, hall⟩ := exists_instructions h 0 {}
  obtain ⟨b', hbody⟩ : ∃ b', runOn s.body {} = (.ok (), b') := by
    simp only [body, runOn_bind, hall]
    split
    · exact ⟨_, rfl⟩
    · exact ⟨_, rfl⟩
  have hrun : s.body.run {} = (.ok (), b') := hbody
  exact ⟨b'.lines, by simp only [bodyLines, hrun]⟩

theorem prefix_instructions {index : Nat} {xs : List Instruction}
    (h : runOn (s.instructions index xs) b = (.ok (), b')) : b.lines <+: b'.lines := by
  induction xs generalizing index b with
  | nil =>
    obtain rfl : b = b' := by simpa [instructions] using h
    exact List.prefix_refl _
  | cons i xs ih =>
    obtain ⟨b₁, hfirst, hrest⟩ := runOn_instructions_cons.1 h
    have hadds := (s.adds_instruction i _ _ _ hfirst).lines_le
    exact (List.prefix_append _ _).trans (hadds.trans (ih hrest))

/-- Where the emission of a body is about to emit an instruction, and what it has emitted then. -/
theorem exists_bodies (h : runOn s.body {} = (.ok (), b')) {k : Nat} {i : Instruction}
    (hi : s.method.code[k]? = some i) :
    ∃ before after, runOn (s.instructions 0 (s.method.code.take k)) {} = (.ok (), before) ∧
      runOn (s.instruction i)
        ⟨before.lines ++ (s.method.labelsAt k).map .label, before.nextLabel⟩ = (.ok (), after) ∧
      runOn (s.instructions 0 (s.method.code.take (k + 1))) {} = (.ok (), after) ∧
      after.lines <+: b'.lines := by
  obtain ⟨_, all, hall, hlast⟩ := runOn_bind_eq_ok.1 h
  have hlines_le : all.lines <+: b'.lines := by
    split at hlast
    · simp only [Emit.runOn_plain, Prod.mk.injEq, true_and] at hlast
      subst hlast
      exact List.prefix_append _ _
    · simp only [runOn_pure, Prod.mk.injEq, true_and] at hlast
      exact hlast ▸ List.prefix_refl _
  obtain ⟨hk, hget⟩ := List.getElem?_eq_some_iff.1 hi
  rw [← List.take_append_drop (k + 1) s.method.code, instructions_append] at hall
  obtain ⟨_, after, hafter, hrest⟩ := runOn_bind_eq_ok.1 hall
  have hsplit : s.method.code.take (k + 1) = s.method.code.take k ++ [i] := by
    rw [List.take_succ_eq_append_getElem hk, hget]
  have hafter' := hafter
  rw [hsplit, instructions_append] at hafter'
  obtain ⟨_, before, hbefore, hinstruction⟩ := runOn_bind_eq_ok.1 hafter'
  obtain ⟨b₁, hfirst, hnil⟩ := runOn_instructions_cons.1 hinstruction
  obtain rfl : b₁ = after := by simpa [instructions] using hnil
  have hindex : 0 + (s.method.code.take k).length = k := by simp; omega
  rw [hindex] at hfirst
  exact ⟨before, b₁, hbefore, hfirst, hafter, (prefix_instructions hrest).trans hlines_le⟩

/-- The labels among the lines of a body are distinct: made-up ones whose numbers have been given out, and
those on the instructions before a place. -/
structure Marks (s : Scope) (index : Nat) (b : Body) : Prop where
  nodup : (labelNames b.lines).Nodup
  mem : ∀ name ∈ labelNames b.lines,
    (∃ k < index, (name, k) ∈ s.method.labels.entries) ∨ ∃ i < b.nextLabel, name ∈ madeUp i

/-- The labels of a method have distinct names, and none that are made up. -/
structure LabelsFit (s : Scope) : Prop where
  nodup : s.method.labels.keys.Nodup
  apart : ∀ name ∈ s.method.labels.keys, ∀ i, name ∉ madeUp i

theorem mem_labelsAt {index : Nat} {name : String} :
    name ∈ s.method.labelsAt index ↔ (name, index) ∈ s.method.labels.entries := by
  simp [CodeMethod.labelsAt, Int.ofNat_inj]

theorem LabelsFit.index_eq (h : s.LabelsFit) {name : String} {j k : Nat}
    (hj : (name, j) ∈ s.method.labels.entries) (hk : (name, k) ∈ s.method.labels.entries) : j = k := by
  have := List.inj_on_of_nodup_map h.nodup hj hk rfl
  simpa using this

theorem labelNames_map (labels : List String) : labelNames (labels.map .label) = labels := by
  simp [labelNames]

theorem Marks.markers (hs : s.LabelsFit) {index : Nat} (h : s.Marks index b) :
    s.Marks (index + 1) ⟨b.lines ++ (s.method.labelsAt index).map .label, b.nextLabel⟩ where
  nodup := by
    rw [labelNames_append, labelNames_map]
    refine h.nodup.append ?_ fun name hname hnew => ?_
    · exact (List.Sublist.map _ List.filter_sublist).nodup hs.nodup
    · rw [mem_labelsAt] at hnew
      rcases h.mem name hname with ⟨k, hk, hmem⟩ | ⟨i, _, hmem⟩
      · have := hs.index_eq hmem hnew
        omega
      · exact hs.apart name (List.mem_map_of_mem hnew) i hmem
  mem name hname := by
    rw [labelNames_append, labelNames_map, List.mem_append] at hname
    rcases hname with hname | hname
    · rcases h.mem name hname with ⟨k, hk, hmem⟩ | hmadeUp
      · exact .inl ⟨k, by omega, hmem⟩
      · exact .inr hmadeUp
    · exact .inl ⟨index, by omega, mem_labelsAt.1 hname⟩

theorem Marks.extends (hs : s.LabelsFit) {index : Nat} (h : s.Marks index b) (hb : Extends b b') :
    s.Marks index b' := by
  obtain ⟨hle, added, hlines, hnodup, hnames⟩ := hb
  constructor
  · rw [hlines, labelNames_append]
    refine h.nodup.append hnodup fun name hname hnew => ?_
    obtain ⟨i, hi, -, hmadeUp⟩ := hnames name hnew
    rcases h.mem name hname with ⟨k, _, hmem⟩ | ⟨j, hj, hmem⟩
    · exact hs.apart name (List.mem_map_of_mem hmem) i hmadeUp
    · have := eq_of_mem_madeUp hmem hmadeUp
      omega
  · intro name hname
    rw [hlines, labelNames_append, List.mem_append] at hname
    rcases hname with hname | hname
    · rcases h.mem name hname with hmark | ⟨j, hj, hmem⟩
      · exact .inl hmark
      · exact .inr ⟨j, by omega, hmem⟩
    · obtain ⟨i, -, hi, hmadeUp⟩ := hnames name hname
      exact .inr ⟨i, hi, hmadeUp⟩

theorem Marks.instructions (hs : s.LabelsFit) {index : Nat} {xs : List Instruction} (h : s.Marks index b)
    (hrun : runOn (s.instructions index xs) b = (.ok (), b')) : s.Marks (index + xs.length) b' := by
  induction xs generalizing index b with
  | nil =>
    obtain rfl : b = b' := by simpa [Scope.instructions] using hrun
    exact h
  | cons i xs ih =>
    obtain ⟨b₁, hfirst, hrest⟩ := runOn_instructions_cons.1 hrun
    have hnext := (h.markers hs).extends hs (s.adds_instruction i _ _ _ hfirst)
    have hindex : index + 1 + xs.length = index + (xs.length + 1) := by omega
    rw [List.length_cons, ← hindex]
    exact ih hnext hrest

/-- The labels of a body are distinct. -/
theorem nodup_labels (hs : s.LabelsFit) (h : runOn s.body {} = (.ok (), b')) :
    (labelNames b'.lines).Nodup := by
  obtain ⟨_, all, hall, hlast⟩ := runOn_bind_eq_ok.1 h
  have hstart : s.Marks 0 {} := ⟨List.nodup_nil, by simp⟩
  have hmarks := hstart.instructions hs hall
  split at hlast
  · simp only [Emit.runOn_plain, Prod.mk.injEq, true_and] at hlast
    subst hlast
    simpa [labelNames] using hmarks.nodup
  · simp only [runOn_pure, Prod.mk.injEq, true_and] at hlast
    exact hlast ▸ hmarks.nodup

/-- Every jump has a target in the method. -/
def TargetsFit (s : Scope) : Prop :=
  ∀ i ∈ s.method.code, ∀ label, i.target? = some label →
    ∃ k < s.method.code.length, s.method.labels.find? label = some k

theorem entry_of_getElem? {before : Body} {k : Nat} (hk : k < s.method.code.length)
    (h : runOn (s.instructions 0 (s.method.code.take k)) {} = (.ok (), before)) :
    s.entry k = before.lines.length + (s.method.labelsAt k).length := by
  simp [entry, upTo, runOn_bind, h, hk, runOn_markers]

theorem entry_length {all : Body} (h : runOn (s.instructions 0 s.method.code) {} = (.ok (), all)) :
    s.entry s.method.code.length = all.lines.length := by
  simp [entry, upTo, h]

end Scope

section
variable {W : Type} {s : Scope} {code : List Line} {ask : Demand → Act W Value} {b b' : Body}
  {stack : List Value} {memory : Int → Value} {w : W}

/-- Labels are passed. -/
theorem reaches_labels {pc count : Nat} (h : ∀ j < count, ∃ name, code[pc + j]? = some (.label name)) :
    Reaches code ask 0 (.running ⟨pc, stack, memory, w⟩) (.running ⟨pc + count, stack, memory, w⟩) := by
  induction count with
  | zero => exact .refl _
  | succ count ih =>
    obtain ⟨name, hname⟩ := h count (Nat.lt_succ_self count)
    have hbefore := ih fun j hj => h j (Nat.lt_succ_of_lt hj)
    have hlabel : Reaches code ask 1 (.running ⟨pc + count, stack, memory, w⟩)
        (.running ⟨pc + count + 1, stack, memory, w⟩) := reaches_line hname rfl
    exact (hbefore.trans hlabel).weaken (Nat.zero_le _)

/-- From the label at some place among those on an instruction, the machine gets to the instruction. -/
theorem reaches_entry {b : Body} {labels : List String} (hcode : b.lines ++ labels.map .label <+: code)
    {p : Nat} (hp : p ≤ labels.length) :
    Reaches code ask 0 (.running ⟨b.lines.length + p, stack, memory, w⟩)
      (.running ⟨b.lines.length + labels.length, stack, memory, w⟩) := by
  have hlabels : Reaches code ask 0 (.running ⟨b.lines.length + p, stack, memory, w⟩)
      (.running ⟨b.lines.length + p + (labels.length - p), stack, memory, w⟩) := by
    refine reaches_labels fun j hj => ?_
    have hlt : p + j < labels.length := by omega
    refine ⟨labels[p + j], ?_⟩
    rw [Nat.add_assoc]
    exact getElem?_of_append hcode (by simp [hlt])
  rwa [Nat.add_assoc, Nat.add_sub_cancel' hp] at hlabels

/-- A jump to the label of an instruction leads to the instruction. -/
theorem exists_target (ask : Demand → Act W Value) (hs : s.LabelsFit) (h : runOn s.body {} = (.ok (), b')) {k : Nat}
    (hk : k < s.method.code.length) {label : String} (hlabel : s.method.labels.find? label = some k) :
    ∃ taken, target b'.lines label = some taken ∧ ∀ (memory : Int → Value) (w : W),
      Reaches b'.lines ask 0 (.running ⟨taken, [], memory, w⟩)
        (.running ⟨s.entry k, [], memory, w⟩) := by
  obtain ⟨before, after, hbefore, hinstruction, -, hlines_le⟩ :=
    Scope.exists_bodies h (List.getElem?_eq_getElem hk)
  have hcode : before.lines ++ (s.method.labelsAt k).map .label <+: b'.lines :=
    (s.adds_instruction _ _ _ _ hinstruction).lines_le.trans hlines_le
  have hmem : label ∈ s.method.labelsAt k := Scope.mem_labelsAt.2 (Assoc.mem_of_findEntry hlabel)
  obtain ⟨p, hp, hget⟩ := List.getElem_of_mem hmem
  have hplace : b'.lines[before.lines.length + p]? = some (.label label) :=
    getElem?_of_append hcode (by simp [hp, hget])
  refine ⟨_, target_of_getElem? (Scope.nodup_labels hs h) hplace, fun memory w => ?_⟩
  rw [Scope.entry_of_getElem? hk hbefore]
  exact reaches_entry hcode (Nat.le_of_lt hp)

/-- Behind all instructions a void method returns, and others end without a result. -/
theorem reaches_end (h : runOn s.body {} = (.ok (), b'))
    (hlast : ∀ i, s.method.code.getLast? = some i → Scope.isReturn i = false) :
    Reaches b'.lines ask 1 (.running ⟨s.entry s.method.code.length, [], memory, w⟩)
      (.halted (if s.method.returnType = .void then some (.returned none) else none) w) := by
  obtain ⟨_, all, hall, hret⟩ := runOn_bind_eq_ok.1 h
  have hany : s.method.code.getLast?.any Scope.isReturn = false := by
    cases hget : s.method.code.getLast? with
    | none => rfl
    | some i => exact hlast i hget
  rw [Scope.entry_length hall]
  by_cases hvoid : s.method.returnType = .void
  · simp only [hvoid, hany, decide_true, Bool.not_false, Bool.and_self, if_true, Emit.runOn_plain,
      Prod.mk.injEq, true_and] at hret ⊢
    subst hret
    have hl : (all.lines ++ [Line.plain .ret])[all.lines.length]? = some (.plain .ret) := by simp
    exact Reaches.line (f := ⟨all.lines.length, [], memory, w⟩) hl
  · simp only [hvoid, decide_false, Bool.false_and, Bool.false_eq_true, if_false, runOn_pure,
      Prod.mk.injEq, true_and] at hret ⊢
    subst hret
    have hstep : step all.lines ask (.running ⟨all.lines.length, [], memory, w⟩) = .halted none w := by
      simp [step]
    exact hstep ▸ Machine.Reaches.step _

/-- An assignment that is emitted has a variable with a name to assign to. -/
theorem exists_defs {i : Instruction} (h : runOn (s.instruction i) b = (.ok (), b')) :
    ∃ names, i.defs = .ok names := by
  cases i with
  | assign dest i =>
    have hname (h : runOn (s.assignVariable dest i) b = (.ok (), b')) : ∃ name, dest.name = .ok name := by
      obtain ⟨amount, _, -, h⟩ := runOn_bind_eq_ok.1 h
      cases amount with
      | some amount =>
        obtain ⟨name, _, hname, -⟩ := runOn_bind_eq_ok.1 h
        rw [Emit.runOn_ofExcept] at hname
        exact ⟨name, (Prod.mk.inj hname).1⟩
      | none =>
        obtain ⟨_, _, -, hstore⟩ := runOn_bind_eq_ok.1 h
        obtain ⟨name, _, hname, -⟩ := runOn_bind_eq_ok.1 hstore
        rw [Emit.runOn_ofExcept] at hname
        exact ⟨name, (Prod.mk.inj hname).1⟩
    cases dest with
    | literal n type => simpa [Element.name] using hname h
    | absent => simpa [Element.name] using hname h
    | _ => exact ⟨_, rfl⟩
  | _ => exact ⟨_, rfl⟩

end

namespace Scope

theorem runOn_body_of_bodyLines {s : Scope} {lines : List Line} (h : s.bodyLines = .ok lines) :
    ∃ b, runOn s.body {} = (.ok (), b) ∧ b.lines = lines := by
  unfold bodyLines at h
  rcases hrun : s.body.run {} with ⟨e | u, b⟩
  · rw [hrun] at h
    simp at h
  · rw [hrun] at h
    exact ⟨b, hrun, Except.ok.inj h⟩

/-- The machine gets to the first instruction. -/
theorem reaches_start {W : Type} {s : Scope} {ask : Demand → Act W Value} {b : Body} {memory : Int → Value}
    {w : W} (h : runOn s.body {} = (.ok (), b)) :
    Reaches b.lines ask 0 (.running ⟨0, [], memory, w⟩) (.running ⟨s.entry 0, [], memory, w⟩) := by
  by_cases hcode : 0 < s.method.code.length
  · obtain ⟨before, after, hbefore, hinstruction, -, hlines_le⟩ :=
      exists_bodies h (List.getElem?_eq_getElem hcode)
    have hlabels := (s.adds_instruction _ _ _ _ hinstruction).lines_le.trans hlines_le
    obtain rfl : {} = before := by simpa [instructions] using hbefore
    rw [entry_of_getElem? hcode hbefore]
    exact reaches_entry hlabels (Nat.zero_le _)
  · have hnil : s.method.code = [] := List.eq_nil_of_length_eq_zero (by omega)
    have hentry : s.entry 0 = 0 := by simp [entry, upTo, hnil, instructions]
    rw [hentry]
    exact .refl _

theorem not_mem_madeUp {name : String} (h : name.toList.head? ≠ some 'j') (i : Nat) : name ∉ madeUp i := by
  intro hmem
  simp only [madeUp, List.mem_cons, List.not_mem_nil, or_false] at hmem
  rcases hmem with rfl | rfl
  · simp [String.toList_append] at h
  · simp [String.toList_append] at h

end Scope
end JmmCompiler.Jasmin

import Mathlib
import JmmCompiler.Proofs.Allocation
import JmmCompiler.Proofs.Meaning
/-! Register allocation keeps what a method does. The invariant of the simulation: with the old slots and
with the new ones, `this`, the parameters and the live variables hold the same. -/
namespace JmmCompiler.CodeMethod
variable {V H R : Type} {m : CodeMethod} {l : Liveness}

@[simp] theorem code_withSlots (slots : Slots) : (m.withSlots slots).code = m.code := rfl

@[simp] theorem successors_withSlots (slots : Slots) (index : Nat) :
    (m.withSlots slots).successors index = m.successors index := rfl

@[simp] theorem namesAt_withSlots (slots : Slots)
    (names : Instruction → Except Failure (List String)) (index : Nat) :
    (m.withSlots slots).namesAt names index = m.namesAt names index := rfl

theorem read_write_self {x : String} {n : Int} (h : m.slots.find? x = some n) (memory : Int → V)
    (value : V) : m.read (m.write memory x value) x = some value := by
  simp [read, write, h]

theorem read_write_of_apart {x y : String} (h : m.slots.Apart x y) (memory : Int → V) (value : V) :
    m.read (m.write memory x value) y = m.read memory y := by
  unfold read write
  cases hx : m.slots.find? x with
  | none => rfl
  | some a =>
    cases hy : m.slots.find? y with
    | none => rfl
    | some b =>
      have hne : b ≠ a := (h a b hx hy).symm
      simp [Function.update_of_ne hne]

/-- Two machines agree on a variable after the same assignments if they agreed on it before them, or it
is assigned to. -/
theorem read_writeAll {m m' : CodeMethod} {names : List String} {y : String} (value : V)
    (hslots : ∀ d ∈ names, (∃ n, m.slots.find? d = some n) ∧ ∃ n, m'.slots.find? d = some n)
    (hapart : ∀ d ∈ names, d ≠ y → m.slots.Apart d y ∧ m'.slots.Apart d y)
    {memory memory' : Int → V} (h : y ∈ names ∨ m.read memory y = m'.read memory' y) :
    m.read (m.writeAll memory names value) y = m'.read (m'.writeAll memory' names value) y := by
  unfold writeAll
  induction names generalizing memory memory' with
  | nil => simpa using h
  | cons d ds ih =>
    refine ih (fun x hx => hslots x (by simp [hx])) (fun x hx => hapart x (by simp [hx])) ?_
    by_cases hd : d = y
    · subst hd
      obtain ⟨⟨n, hn⟩, n', hn'⟩ := hslots d (by simp)
      exact Or.inr ((read_write_self hn _ _).trans (read_write_self hn' _ _).symm)
    · obtain ⟨ha, ha'⟩ := hapart d (by simp) hd
      rw [read_write_of_apart ha, read_write_of_apart ha']
      rcases h with h | h
      · exact Or.inl ((List.mem_cons.1 h).resolve_left (Ne.symm hd))
      · exact Or.inr h

/-- The names whose values matter after the instruction at an index, whatever runs next. -/
def Kept (m : CodeMethod) (live : NameSet) (x : String) : Prop :=
  x = "this" ∨ x ∈ m.params.map (·.name) ∨ x ∈ live

/-- Both slot assignments of a method keep what an instruction defines apart from what must outlive the
instruction. -/
structure KeepsApart (m : CodeMethod) (l : Liveness) (slots : Slots) : Prop where
  live : m.liveness = .ok l
  found : ∀ (k : Nat) (i : Instruction) (ds : List String), m.code[k]? = some i → i.defs = .ok ds →
    ∀ d ∈ ds, (∃ n, m.slots.find? d = some n) ∧ ∃ n, slots.find? d = some n
  apart : ∀ (k : Nat) (i : Instruction) (ds : List String), m.code[k]? = some i → i.defs = .ok ds →
    ∀ d ∈ ds, ∀ y, m.Kept (l.after k) y → d ≠ y → m.slots.Apart d y ∧ slots.Apart d y

/-- Both machines are about to execute the same instruction, on values that agree where it matters. -/
structure Agree (m : CodeMethod) (l : Liveness) (slots : Slots) (c c' : MachineState V H) : Prop where
  pc : c.pc = c'.pc
  heap : c.heap = c'.heap
  values : ∀ x, m.Kept (l.before c.pc) x →
    m.read c.memory x = (m.withSlots slots).read c'.memory x

/-- Both machines go on and agree, or both have ended alike. -/
inductive AgreeStatus (m : CodeMethod) (l : Liveness) (slots : Slots) :
    Status V H R → Status V H R → Prop
  | running {c c' : MachineState V H} (h : m.Agree l slots c c') :
    AgreeStatus m l slots (.running c) (.running c')
  | halted (result : Option R) (heap : H) :
    AgreeStatus m l slots (.halted result heap) (.halted result heap)

theorem AgreeStatus.seen_eq {slots : Slots} {s s' : Status V H R} (h : m.AgreeStatus l slots s s') :
    s.seen = s'.seen := by
  cases h with
  | running h => simp [Status.seen, h.pc, h.heap]
  | halted result heap => rfl

/-- What an instruction uses is kept before it. -/
theorem kept_of_uses (h : m.liveness = .ok l) {k : Nat} {i : Instruction} {us : List String}
    (hi : m.code[k]? = some i) (hus : i.uses = .ok us) {x : String} (hx : x ∈ us) :
    m.Kept (l.before k) x := by
  obtain ⟨ds', us', js', -, hus', -, hp⟩ := point_of_liveness h hi
  obtain rfl : us' = us := by simpa [hus'] using hus
  exact Or.inr (Or.inr ((mem_before_iff h hp).2 (Or.inl (NameSet.mem_ofList.2 hx))))

/-- What is kept before a successor is kept after the instruction, and before it unless defined. -/
theorem kept_of_successor (h : m.liveness = .ok l) {k j : Nat} {i : Instruction} {ds : List String}
    {js : List Nat} (hi : m.code[k]? = some i) (hds : i.defs = .ok ds)
    (hjs : m.successors k = .ok js) (hj : j ∈ js) {x : String} (hx : m.Kept (l.before j) x) :
    m.Kept (l.after k) x ∧ (x ∈ ds ∨ m.Kept (l.before k) x) := by
  obtain ⟨ds', us', js', hds', -, hjs', hp⟩ := point_of_liveness h hi
  obtain rfl : ds' = ds := by simpa [hds'] using hds
  obtain rfl : js' = js := by simpa [hjs'] using hjs
  rcases hx with hx | hx | hx
  · exact ⟨Or.inl hx, Or.inr (Or.inl hx)⟩
  · exact ⟨Or.inr (Or.inl hx), Or.inr (Or.inr (Or.inl hx))⟩
  · have hafter : x ∈ l.after k := (mem_after_iff h hp).2 ⟨j, hj, hx⟩
    refine ⟨Or.inr (Or.inr hafter), ?_⟩
    by_cases hd : x ∈ ds'
    · exact Or.inl hd
    · exact Or.inr (Or.inr (Or.inr ((mem_before_iff h hp).2
        (Or.inr ⟨hafter, fun hmem => hd (NameSet.mem_ofList.1 hmem)⟩))))

variable {I : Interpretation V H R} {slots : Slots} {c c' : MachineState V H}

theorem visits_eq_of_agree (h : m.KeepsApart l slots) (hagree : m.Agree l slots c c') :
    m.visits c = (m.withSlots slots).visits c' := by
  unfold visits
  rw [← hagree.pc, ← hagree.heap]
  by_cases hlt : c.pc < m.code.length
  · have hi := List.getElem?_eq_getElem hlt
    obtain ⟨-, us, -, -, hus, -, -⟩ := point_of_liveness h.live hi
    have hnames : m.namesAt Instruction.uses c.pc = us := by
      simp [namesAt, hi, hus]
    simp only [code_withSlots, namesAt_withSlots, if_pos hlt, hnames]
    congr 2
    exact List.map_congr_left fun x hx => hagree.values x (kept_of_uses h.live hi hus hx)
  · simp [hlt]

/-- One instruction keeps the agreement. -/
theorem agree_step (h : m.KeepsApart l slots) (hlocal : I.Local m.code) (hagree : m.Agree l slots c c') :
    m.AgreeStatus l slots (m.step I c) ((m.withSlots slots).step I c') := by
  obtain ⟨pc, memory, heap⟩ := c
  obtain ⟨pc', memory', heap'⟩ := c'
  obtain ⟨rfl, rfl, hvalues⟩ := hagree
  unfold step
  simp only [code_withSlots, successors_withSlots, namesAt_withSlots]
  cases hi : m.code[pc]? with
  | none => exact .halted none heap
  | some i =>
    obtain ⟨ds, us, js, hds, hus, hjs, hp⟩ := point_of_liveness h.live hi
    have heffect : I i (m.read memory) heap = I i ((m.withSlots slots).read memory') heap :=
      hlocal i (List.mem_of_getElem? hi) us hus _ _ heap fun x hx => by
        rcases hx with hx | hx
        · exact hvalues x (Or.inl hx)
        · exact hvalues x (kept_of_uses h.live hi hus hx)
    have hdefs : m.namesAt Instruction.defs pc = ds := by
      simp [namesAt, hi, hds]
    simp only [hjs, hdefs, ← heffect]
    cases (I i (m.read memory) heap).exit with
    | stop result => exact .halted (some result) _
    | follow choice =>
      simp only
      cases hj : js[choice]? with
      | none => exact .halted none _
      | some j =>
        refine .running ⟨rfl, rfl, fun x hx => ?_⟩
        obtain ⟨hafter, hbefore⟩ :=
          kept_of_successor h.live hi hds hjs (List.mem_of_getElem? hj) hx
        exact read_writeAll _ (h.found pc i ds hi hds)
          (fun d hd hne => h.apart pc i ds hi hds d hd x hafter hne) (hbefore.imp_right (hvalues x))

/-- Runs of any length execute the same instructions on the same values, and end alike. -/
theorem agree_run (h : m.KeepsApart l slots) (hlocal : I.Local m.code) (hagree : m.Agree l slots c c')
    (n : Nat) :
    (m.run I n c).1 = ((m.withSlots slots).run I n c').1 ∧
      m.AgreeStatus l slots (m.run I n c).2 ((m.withSlots slots).run I n c').2 := by
  induction n generalizing c c' with
  | zero => exact ⟨rfl, .running hagree⟩
  | succ n ih =>
    have hvisits := visits_eq_of_agree h hagree
    have hstep := agree_step h hlocal hagree
    unfold run
    cases hstep' : m.step I c with
    | halted result heap =>
      rw [hstep'] at hstep
      generalize (m.withSlots slots).step I c' = s at hstep ⊢
      cases hstep with
      | halted => exact ⟨hvisits, .halted result heap⟩
    | running c₁ =>
      rw [hstep'] at hstep
      generalize (m.withSlots slots).step I c' = s at hstep ⊢
      cases hstep with
      | running hagree₁ =>
        obtain ⟨hvisited, hstatus⟩ := ih hagree₁
        simp only
        exact ⟨by rw [hvisits, hvisited], hstatus⟩

/-- What an instruction defines interferes with all that is live after it. -/
theorem mem_neighbors_of_defs (h : m.liveness = .ok l) {k : Nat} {i : Instruction} {ds : List String}
    (hi : m.code[k]? = some i) (hds : i.defs = .ok ds) {d y : String} (hd : d ∈ ds)
    (hy : y ∈ l.after k) (hdfixed : d ∉ m.fixedNames) (hyfixed : y ∉ m.fixedNames) (hne : d ≠ y) :
    y ∈ (m.interference l).neighbors d := by
  obtain ⟨ds', us, js, hds', -, -, hp⟩ := point_of_liveness h hi
  obtain rfl : ds' = ds := by simpa [hds'] using hds
  obtain ⟨s, hs, hafter⟩ : ∃ s, l.sets[k]? = some s ∧ s.after = l.after k := by
    simp [Liveness.after, liveness_sets h, hp]
  have hzip : (l.points.zip l.sets)[k]? = some (_, s) := List.getElem?_zip_eq_some.2 ⟨hp, hs⟩
  refine mem_neighbors_interference.2 ⟨_, List.mem_of_getElem? hzip, Or.inr (Or.inr ?_)⟩
  refine ⟨d, NameSet.mem_diff.2 ⟨NameSet.mem_ofList.2 hd, hdfixed⟩, y, ?_, hne, Or.inl ⟨rfl, rfl⟩⟩
  exact NameSet.mem_diff.2 ⟨hafter ▸ hy, hyfixed⟩

theorem keepsApart_allSlots {m₀ : CodeMethod} (hfinish : m₀.finish = .ok m)
    (hnodup : (m.params.map (·.name)).Nodup) (hthis : "this" ∉ m.params.map (·.name))
    (h : m.liveness = .ok l) : m.KeepsApart l (m.allSlots (m.interference l)) := by
  constructor
  · exact h
  · intro k i ds hi hds d hd
    obtain ⟨ds', us, hds', -, hslots⟩ := mentions_of_finish hfinish hi
    obtain rfl : ds' = ds := by simpa [hds'] using hds
    obtain ⟨n, hn⟩ := hslots d (by simp [hd])
    exact ⟨⟨n, hn⟩, exists_find?_allSlots hn⟩
  · intro k i ds hi hds d hd y hy hne
    refine ⟨(packed_of_finish hfinish hnodup hthis).apart hne,
      apart_allSlots symmetric_interference hnodup hthis hne ?_⟩
    intro hdnode hynode
    have hyfixed := notMem_fixedNames_of_mem_nodes hynode
    refine mem_neighbors_of_defs h hi hds hd ?_ (notMem_fixedNames_of_mem_nodes hdnode) hyfixed hne
    rcases hy with rfl | hy | hy
    · exact absurd (NameSet.mem_ofList.2 (by simp)) hyfixed
    · exact absurd (NameSet.mem_ofList.2 (List.mem_cons_of_mem _ hy)) hyfixed
    · exact hy

/-- Register allocation keeps every run of a finished method: the instructions executed, the values they
read, the heap that they find, and the place or the result that they lead to. -/
theorem run_allocate {m₀ : CodeMethod} (hfinish : m₀.finish = .ok m)
    (hnodup : (m.params.map (·.name)).Nodup) (hthis : "this" ∉ m.params.map (·.name))
    (htargets : ∀ i ∈ m.code, ∀ label, i.target? = some label → ∃ j, m.labels.find? label = some j)
    (hlocal : I.Local m.code) :
    ∃ l m' g, m.liveness = .ok l ∧ m.allocate = .ok (m', g) ∧
      ∀ (memory memory' : Int → V) (heap : H),
        (∀ x, x = "this" ∨ x ∈ m.params.map (·.name) ∨ x ∈ l.before 0 →
          m.read memory x = m'.read memory' x) →
        ∀ n, (m.run I n ⟨0, memory, heap⟩).1 = (m'.run I n ⟨0, memory', heap⟩).1 ∧
          (m.run I n ⟨0, memory, heap⟩).2.seen = (m'.run I n ⟨0, memory', heap⟩).2.seen := by
  obtain ⟨l, hl⟩ := exists_liveness (fun k i hi => by
    obtain ⟨ds, us, hds, hus, -⟩ := mentions_of_finish hfinish hi
    exact ⟨ds, us, hds, hus⟩) htargets
  refine ⟨l, _, _, hl, allocate_eq hl, fun memory memory' heap hvalues n => ?_⟩
  have hagree : m.Agree l (m.allSlots (m.interference l)) ⟨0, memory, heap⟩ ⟨0, memory', heap⟩ :=
    ⟨rfl, rfl, hvalues⟩
  obtain ⟨hvisits, hstatus⟩ := agree_run (keepsApart_allSlots hfinish hnodup hthis hl) hlocal hagree n
  exact ⟨hvisits, hstatus.seen_eq⟩

/-- A method that adds the numbers from its parameter down to one, with one slot more than it needs. -/
def sumDown : CodeMethod :=
  { name := "sumDown"
    returnType := .int
    params := [⟨"n", .int⟩]
    isStatic := true
    code := [
      .assign (.var "sum" .int) (.single (.literal 0 .int)),
      .branch (.binary "<" (.var "n" .int) (.literal 1 .int) .boolean) "done",
      .assign (.var "next" .int) (.binary "+" (.var "sum" .int) (.var "n" .int) .int),
      .assign (.var "sum" .int) (.single (.var "next" .int)),
      .assign (.var "n" .int) (.binary "-" (.var "n" .int) (.literal 1 .int) .int),
      .goto "loop",
      .ret (.var "sum" .int) .int]
    labels := ⟨[("loop", 1), ("done", 6)]⟩
    slots := ⟨[("n", 0), ("sum", 1), ("next", 2)]⟩ }

/-- No surroundings answer. -/
def alone : Setting Unit where
  ask _ := throw .fault

/-- Started with 3 in its parameter the method returns 6 after the allocation. -/
theorem run_allocate_sumDown :
    ∃ m' g, sumDown.allocate = .ok (m', g) ∧ m'.slots = ⟨[("n", 0), ("next", 1), ("sum", 1)]⟩ ∧
      (m'.run alone.meaning 30 ⟨0, fun _ => .int 3, ()⟩).2.seen =
        (.inr (some (.returned (some (.int 6)))), ()) := by
  have hlocal : alone.meaning.Local sumDown.code := by
    apply Setting.local_meaning
    simp [sumDown, Instruction.FieldsOfThis, Instruction.object?]
  have htargets : ∀ i ∈ sumDown.code, ∀ label, i.target? = some label →
      ∃ j, sumDown.labels.find? label = some j := by
    simp [sumDown, Instruction.target?, Assoc.find?, Assoc.findEntry]
  have hfinish : ({ sumDown with slots := {} } : CodeMethod).finish = .ok sumDown := rfl
  obtain ⟨l, m', g, hl, hallocate, hrun⟩ :=
    run_allocate hfinish (by decide) (by decide) htargets hlocal
  have hslots : m'.slots = ⟨[("n", 0), ("next", 1), ("sum", 1)]⟩ := by
    have h : sumDown.allocate.toOption.map (·.1.slots) = some ⟨[("n", 0), ("next", 1), ("sum", 1)]⟩ := by
      cbv
    simpa [hallocate, Except.toOption] using h
  have hbefore : l.before 0 = NameSet.ofList ["n"] := by
    have h : sumDown.liveness.toOption.map (·.before 0) = some (NameSet.ofList ["n"]) := by
      decide +kernel
    simpa [hl, Except.toOption] using h
  have hvalues : ∀ x, x = "this" ∨ x ∈ sumDown.params.map (·.name) ∨ x ∈ l.before 0 →
      sumDown.read (fun _ => Value.int 3) x = m'.read (fun _ => .int 3) x := by
    intro x hx
    have hx : x = "this" ∨ x = "n" := by
      simpa [hbefore, sumDown, NameSet.mem_ofList] using hx
    rcases hx with rfl | rfl
    · simp [read, hslots, sumDown, Assoc.find?, Assoc.findEntry]
    · simp [read, hslots, sumDown, Assoc.find?, Assoc.findEntry]
  refine ⟨m', g, hallocate, hslots, ?_⟩
  rw [← (hrun _ _ () hvalues 30).2]
  decide +kernel

end JmmCompiler.CodeMethod

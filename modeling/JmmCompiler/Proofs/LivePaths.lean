import JmmCompiler.Proofs.Liveness
/-! Liveness is exact. A variable is live before an instruction where a path leads from there to a use of it without
a definition on the way, and nowhere else, and the sweeps that find this come to an end. -/
namespace JmmCompiler

namespace Element

/-- Whether no part of an element is missing. -/
def isPresent : Element → Bool
  | absent => false
  | item _ _ index => index.isPresent
  | _ => true

/-- Whether an element is a place that a value can go to. -/
def isPlace : Element → Bool
  | literal .. => false
  | e => e.isPresent

variable {e : Element}

theorem exists_names (h : e.isPresent = true) : ∃ names, e.names = .ok names := by
  induction e with
  | item array type index ih =>
    obtain ⟨names, hnames⟩ := ih h
    exact ⟨array :: names, by simp [Element.names, hnames]⟩
  | absent => cases h
  | _ => exact ⟨_, rfl⟩

theorem isPresent_of_isPlace (h : e.isPlace = true) : e.isPresent = true := by
  cases e with
  | literal value type => rfl
  | _ => exact h

theorem exists_name (h : e.isPlace = true) : ∃ name, e.name = .ok name := by
  cases e with
  | literal value type => cases h
  | absent => cases h
  | _ => exact ⟨_, rfl⟩

end Element

namespace Instruction

/-- Whether an instruction has all the operands that its form calls for, and assigns to a place. -/
def isWhole : Instruction → Bool
  | single e | unary _ e _ | putField _ _ e => e.isPresent
  | binary _ l r _ => l.isPresent && r.isPresent
  | call _ receiver _ args _ => (receiver = .absent || receiver.isPresent) && args.all Element.isPresent
  | assign dest value => dest.isPlace && value.isWhole
  | ret e _ => e = .absent || e.isPresent
  | branch condition _ => condition.isWhole
  | getField .. | goto _ | nop | label _ => true

variable {i : Instruction}

theorem exists_optionalNames {e : Element} (h : (e = .absent || e.isPresent) = true) :
    ∃ names, optionalNames e = .ok names := by
  cases e with
  | absent => exact ⟨[], rfl⟩
  | _ => exact Element.exists_names (by simpa using h)

theorem exists_uses (h : i.isWhole = true) : ∃ names, i.uses = .ok names := by
  induction i with
  | single e => exact Element.exists_names h
  | unary op e type => exact Element.exists_names h
  | putField object field value => exact Element.exists_names h
  | binary op l r type =>
    obtain ⟨hl, hr⟩ := Bool.and_eq_true_iff.1 h
    obtain ⟨left, hleft⟩ := Element.exists_names hl
    obtain ⟨right, hright⟩ := Element.exists_names hr
    exact ⟨left ++ right, by simp [uses, hleft, hright]⟩
  | call invocation receiver method args type =>
    obtain ⟨hreceiver, hargs⟩ := Bool.and_eq_true_iff.1 h
    obtain ⟨names, hnames⟩ := exists_optionalNames hreceiver
    obtain ⟨more, hmore⟩ := exists_mapM_eq_ok fun e he => Element.exists_names (List.all_eq_true.1 hargs e he)
    exact ⟨names ++ more.flatten, by simp [uses, hnames, hmore]⟩
  | assign dest value ih =>
    obtain ⟨hdest, hvalue⟩ := Bool.and_eq_true_iff.1 h
    obtain ⟨names, hnames⟩ := ih hvalue
    obtain ⟨own, hown⟩ := Element.exists_names (Element.isPresent_of_isPlace hdest)
    by_cases hitem : dest.isItem = true
    · exact ⟨own ++ names, by simp [uses, hnames, hown, hitem]⟩
    · exact ⟨names, by simp [uses, hnames, hitem]⟩
  | ret e type => exact exists_optionalNames h
  | branch condition label ih => exact ih h
  | _ => exact ⟨[], rfl⟩

theorem exists_defs (h : i.isWhole = true) : ∃ names, i.defs = .ok names := by
  cases i with
  | assign dest value =>
    obtain ⟨name, hname⟩ := Element.exists_name (Bool.and_eq_true_iff.1 h).1
    cases dest with
    | item array type index => exact ⟨[], rfl⟩
    | _ => exact ⟨[name], by simp [defs, hname]⟩
  | _ => exact ⟨[], rfl⟩

end Instruction

namespace FlowPoint
variable {points : List FlowPoint} {sets : List LiveSets} {i : Nat} {x : String}

/-- The places where variables are live by the equations, and perhaps more. -/
def Solves (points : List FlowPoint) (L : Nat → String → Prop) : Prop :=
  ∀ (i : Nat) (p : FlowPoint) (x : String), points[i]? = some p →
    (x ∈ p.uses ∨ (∃ s ∈ p.successors, L s x) ∧ x ∉ p.defs) → L i x

/-- Nothing is found live that is not live in every solution. -/
theorem Solves.swept {L : Nat → String → Prop} (h : Solves points L) (k : Nat) :
    ∀ i, ∀ x ∈ liveAt (swept points k) i, L i x := by
  have hkeeps (sets : List LiveSets) (hs : sets.length = points.length ∧ ∀ i, ∀ x ∈ liveAt sets i, L i x) :
      (sweep points sets).length = points.length ∧ ∀ i, ∀ x ∈ liveAt (sweep points sets) i, L i x := by
    refine sweep_induction (motive := fun s => s.length = points.length ∧ ∀ i, ∀ x ∈ liveAt s i, L i x) hs ?_
    rintro j sets ⟨hlen, hsets⟩
    refine ⟨by simpa using hlen, fun i x hx => ?_⟩
    rw [liveAt_refresh hlen] at hx
    split at hx
    · subst i
      cases hp : points[j]? with
      | none => simp [hp] at hx
      | some p =>
        rw [hp, Option.map_some, Option.getD_some, mem_liveBefore, mem_liveAfter_before] at hx
        exact h j p x hp (hx.imp_right fun ⟨⟨s, hs, hxs⟩, hdef⟩ => ⟨⟨s, hs, hsets s x hxs⟩, hdef⟩)
    · exact hsets i x hx
  induction k with
  | zero =>
    intro i x hx
    have hnone : liveAt (start points) i = ∅ := by
      simp only [liveAt, start, List.map_map, List.getElem?_map]
      cases points[i]? <;> rfl
    exact absurd (hnone ▸ hx) (NameSet.notMem_empty x)
  | succ k ih => exact swept_succ points k ▸ (hkeeps _ ⟨(rising_swept points k).length, ih⟩).2

end FlowPoint

namespace CodeMethod
variable {m : CodeMethod} {l : Liveness} {i : Nat} {x : String}

/-- A path along successors to a use of a variable, with no definition of it before. -/
inductive UsePath (m : CodeMethod) (x : String) : List Nat → Prop
  | use {i : Nat} (huse : x ∈ m.namesAt Instruction.uses i) : UsePath m x [i]
  | step {i j : Nat} {js path : List Nat} (hnext : m.successors i = .ok js) (hj : j ∈ js)
      (hdef : x ∉ m.namesAt Instruction.defs i) (hpath : UsePath m x (j :: path)) : UsePath m x (i :: j :: path)

/-- What liveness knows of an instruction is what there is to know of it. -/
theorem exists_point (h : m.liveness = .ok l) {code : Instruction} (hi : m.code[i]? = some code) :
    ∃ p, l.points[i]? = some p ∧ m.successors i = .ok p.successors ∧
      ∀ x, (x ∈ p.uses ↔ x ∈ m.namesAt Instruction.uses i) ∧ (x ∈ p.defs ↔ x ∈ m.namesAt Instruction.defs i) := by
  obtain ⟨ds, us, js, hds, hus, hjs, hp⟩ := point_of_liveness h hi
  exact ⟨_, hp, hjs, fun x => by simp [namesAt, hi, hds, hus]⟩

theorem length_points (h : m.liveness = .ok l) : l.points.length = m.code.length := by
  simp only [liveness, flowPoints, bind_eq_ok, pure_eq_ok] at h
  obtain ⟨points, ⟨defs, hdefs, uses, huses, next, hnext, rfl⟩, rfl⟩ := h
  simp [length_of_mapM hdefs, length_of_mapM huses, length_of_mapM hnext]

theorem exists_instruction_of_point (h : m.liveness = .ok l) {p : FlowPoint} (hp : l.points[i]? = some p) :
    ∃ code, m.code[i]? = some code :=
  ⟨_, List.getElem?_eq_getElem (length_points h ▸ (List.getElem?_eq_some_iff.1 hp).1)⟩

/-- The places that paths to uses start from solve the equations. -/
theorem solves_usePath (h : m.liveness = .ok l) :
    FlowPoint.Solves l.points fun i x => ∃ path, m.UsePath x (i :: path) := by
  intro i p x hp hx
  obtain ⟨code, hi⟩ := exists_instruction_of_point h hp
  obtain ⟨p', hp', hnext, hnames⟩ := exists_point h hi
  obtain rfl := Option.some.inj (hp.symm.trans hp')
  rcases hx with huse | ⟨⟨j, hj, path, hpath⟩, hdef⟩
  · exact ⟨[], .use ((hnames x).1.1 huse)⟩
  · exact ⟨j :: path, .step hnext hj (mt (hnames x).2.2 hdef) hpath⟩

theorem lt_of_successors {js : List Nat} (h : m.successors i = .ok js) : ∃ code, m.code[i]? = some code := by
  unfold successors at h
  split at h
  · cases h
  · exact ⟨_, ‹_›⟩

/-- A variable is live all along a path to a use of it. -/
theorem UsePath.mem_before (h : m.liveness = .ok l) {path : List Nat} (hpath : m.UsePath x path) :
    ∀ i ∈ path.head?, x ∈ l.before i := by
  induction hpath with
  | @use i huse =>
    rintro _ ⟨⟩
    obtain ⟨code, hi⟩ : ∃ code, m.code[i]? = some code := by
      rw [← Option.isSome_iff_exists, Option.isSome_iff_ne_none]
      intro hnone
      simp [namesAt, hnone] at huse
    obtain ⟨p, hp, -, hnames⟩ := exists_point h hi
    exact (mem_before_iff h hp).2 (.inl ((hnames x).1.2 huse))
  | @step i j js path hnext hj hdef _ ih =>
    rintro _ ⟨⟩
    obtain ⟨code, hi⟩ := lt_of_successors hnext
    obtain ⟨p, hp, hsuccessors, hnames⟩ := exists_point h hi
    obtain rfl := Except.ok.inj (hnext.symm.trans hsuccessors)
    exact (mem_before_iff h hp).2
      (.inr ⟨(mem_after_iff h hp).2 ⟨j, hj, ih j rfl⟩, mt (hnames x).2.1 hdef⟩)

theorem mem_before_iff_usePath (h : m.liveness = .ok l) : x ∈ l.before i ↔ ∃ path, m.UsePath x (i :: path) := by
  refine ⟨fun hx => ?_, fun ⟨path, hpath⟩ => hpath.mem_before h i rfl⟩
  obtain ⟨k, -, hsolve, -⟩ := FlowPoint.exists_solve l.points
  rw [before_eq h, FlowPoint.solution, hsolve] at hx
  exact (solves_usePath h).swept k i x hx

theorem mem_after_iff_successor (h : m.liveness = .ok l) :
    x ∈ l.after i ↔ ∃ js, m.successors i = .ok js ∧ ∃ j ∈ js, x ∈ l.before j := by
  constructor
  · intro hx
    obtain ⟨p, hp⟩ : ∃ p, l.points[i]? = some p := by
      rw [← Option.isSome_iff_exists, Option.isSome_iff_ne_none]
      intro hnone
      simp [Liveness.after, liveness_sets h, hnone] at hx
    obtain ⟨code, hi⟩ := exists_instruction_of_point h hp
    obtain ⟨p', hp', hnext, -⟩ := exists_point h hi
    obtain rfl := Option.some.inj (hp.symm.trans hp')
    exact ⟨p.successors, hnext, (mem_after_iff h hp).1 hx⟩
  · rintro ⟨js, hnext, hj⟩
    obtain ⟨code, hi⟩ := lt_of_successors hnext
    obtain ⟨p, hp, hsuccessors, -⟩ := exists_point h hi
    obtain rfl := Except.ok.inj (hnext.symm.trans hsuccessors)
    exact (mem_after_iff h hp).2 hj

/-- Liveness of a method whose jumps go to labels in it. The sweeps end, the last of them without a change, and what
they leave is exact: a variable is live before an instruction where a path leads to a use of it with no definition on
the way, and after one where it is live before a successor. -/
theorem liveness_exact (hwhole : ∀ i ∈ m.code, i.isWhole = true)
    (htargets : ∀ i ∈ m.code, ∀ label, i.target? = some label →
      ∃ j < m.code.length, m.labels.find? label = some j) :
    ∃ l, m.liveness = .ok l ∧
      (∃ k ≤ m.code.length + 1, l.sets = (FlowPoint.sweep l.points)^[k] (FlowPoint.start l.points) ∧
        FlowPoint.sweep l.points l.sets = l.sets) ∧
      ∀ i x, (x ∈ l.before i ↔ ∃ path, m.UsePath x (i :: path)) ∧
        (x ∈ l.after i ↔ ∃ js, m.successors i = .ok js ∧ ∃ j ∈ js, x ∈ l.before j) := by
  obtain ⟨l, hl⟩ := exists_liveness (m := m) (fun k i hi => by
    have hi := hwhole i (List.mem_of_getElem? hi)
    obtain ⟨ds, hds⟩ := Instruction.exists_defs hi
    obtain ⟨us, hus⟩ := Instruction.exists_uses hi
    exact ⟨ds, us, hds, hus⟩) fun i hi label hlabel => (htargets i hi label hlabel).imp fun _ hj => hj.2
  refine ⟨l, hl, ?_, fun i x => ⟨mem_before_iff_usePath hl, mem_after_iff_successor hl⟩⟩
  obtain ⟨k, hk, hsolve, hrest⟩ := FlowPoint.exists_solve l.points
  have hsets : l.sets = FlowPoint.swept l.points k := by rw [liveness_sets hl, ← hsolve, FlowPoint.solve_eq]; rfl
  exact ⟨k, length_points hl ▸ hk, hsets, by rw [hsets, hrest]⟩

/-- A method that counts from zero up to its parameter. -/
def countTo : CodeMethod :=
  { name := "countTo"
    returnType := .int
    params := [⟨"n", .int⟩]
    code := [
      .assign (.var "i" .int) (.single (.literal 0 .int)),
      .goto "condition",
      .assign (.var "i" .int) (.binary "+" (.var "i" .int) (.literal 1 .int) .int),
      .branch (.binary "<" (.var "i" .int) (.var "n" .int) .boolean) "body",
      .ret (.var "i" .int) .int]
    labels := ⟨[("condition", 3), ("body", 2)]⟩ }

/-- The parameter is live in the loop, and the counter is not live before it is set. -/
theorem liveness_exact_countTo :
    ∃ l, countTo.liveness = .ok l ∧ "n" ∈ l.before 0 ∧ "n" ∈ l.after 3 ∧ "i" ∉ l.before 0 ∧
      ∃ path, countTo.UsePath "n" (0 :: path) := by
  have htargets : ∀ i ∈ countTo.code, ∀ label, i.target? = some label →
      ∃ j < countTo.code.length, countTo.labels.find? label = some j := by
    simp [countTo, Instruction.target?, Assoc.find?, Assoc.findEntry]
  obtain ⟨l, hl, -, hexact⟩ := liveness_exact (m := countTo) (by decide) htargets
  have hsets : countTo.liveness.toOption.map (fun l => (l.before 0, l.after 3)) =
      some (NameSet.ofList ["n"], NameSet.ofList ["i", "n"]) := by decide +kernel
  obtain ⟨hbefore, hafter⟩ : l.before 0 = NameSet.ofList ["n"] ∧ l.after 3 = NameSet.ofList ["i", "n"] := by
    simpa [hl, Except.toOption] using hsets
  have hn : "n" ∈ l.before 0 := by simp [hbefore]
  exact ⟨l, hl, hn, by simp [hafter], by simp [hbefore], (hexact 0 "n").1.1 hn⟩

end CodeMethod
end JmmCompiler

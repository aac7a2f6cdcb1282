import JmmCompiler.Checks.ControlFlow
import JmmCompiler.Proofs.CodeSteps
import JmmCompiler.Proofs.Labels
import JmmCompiler.Proofs.Rewriting
/-! Where control goes in lowered code. The code of a statement is left at its end only, and where every path
through the statement ends in a return it is not left at all. -/
namespace JmmCompiler

/-- Whether the instruction behind an instruction may run next. -/
def Instruction.continues : Instruction → Bool
  | ret .. | goto _ => false
  | _ => true

namespace CodeMethod
variable (m : CodeMethod)

/-- Control may go from one place to another. A place behind the last instruction counts as well. -/
def Edge (pc pc' : Nat) : Prop :=
  ∃ i, m.code[pc]? = some i ∧
    ((∃ l, i.target? = some l ∧ m.labels.find? l = some pc') ∨ i.continues = true ∧ pc' = pc + 1)

/-- Control that starts at a place stays inside the code until it gets to one of the stops. -/
def Stays (stops : Nat → Prop) (pc : Nat) : Prop :=
  ∃ inside : Nat → Prop, (inside pc ∨ stops pc) ∧
    ∀ k, inside k → k < m.code.length ∧ ∀ k', m.Edge k k' → inside k' ∨ stops k'

variable {m} {stops stops' : Nat → Prop} {pc k : Nat} {is js : List Instruction}

theorem Stays.stop (h : stops pc) : m.Stays stops pc := ⟨fun _ => False, .inr h, by simp⟩

/-- Control that stays until it gets to a stop from which it stays. -/
theorem Stays.trans (h : m.Stays stops pc) (h' : ∀ k, stops k → m.Stays stops' k) : m.Stays stops' pc := by
  obtain ⟨inside, hpc, hinside⟩ := h
  choose! later hlater hclosed using h'
  have hstop {k : Nat} (hk : stops k) : (inside k ∨ ∃ s, stops s ∧ later s k) ∨ stops' k :=
    (hlater k hk).imp_left fun hk' => .inr ⟨k, hk, hk'⟩
  refine ⟨fun k => inside k ∨ ∃ s, stops s ∧ later s k, hpc.elim (fun h => .inl (.inl h)) hstop, fun k hk => ?_⟩
  rcases hk with hk | ⟨s, hs, hk⟩
  · obtain ⟨hlt, hedges⟩ := hinside k hk
    exact ⟨hlt, fun k' hedge => (hedges k' hedge).elim (fun h => .inl (.inl h)) hstop⟩
  · obtain ⟨hlt, hedges⟩ := hclosed s hs k hk
    exact ⟨hlt, fun k' hedge => (hedges k' hedge).imp_left fun h => .inr ⟨s, hs, h⟩⟩

/-- A return ends a run. -/
theorem stays_ret {e : Element} {type : Ty} (h : m.code[pc]? = some (.ret e type)) : m.Stays stops pc := by
  refine ⟨(· = pc), .inl rfl, fun k hk => ?_⟩
  obtain rfl : k = pc := hk
  refine ⟨(List.getElem?_eq_some_iff.1 h).1, ?_⟩
  rintro k' ⟨i, hi, hedge⟩
  obtain rfl := Option.some.inj (h.symm.trans hi)
  rcases hedge with ⟨l, hl, -⟩ | ⟨hcontinues, -⟩
  · cases hl
  · cases hcontinues

/-- The instructions at the places of a sequence. -/
theorem exists_of_contains (h : m.Contains pc is) (hle : pc ≤ k) (hlt : k < pc + size is) :
    ∃ i ∈ is, m.code[k]? = some i := by
  induction is generalizing pc with
  | nil => simp only [size] at hlt; omega
  | cons i is ih =>
    by_cases hlabel : ∃ l, i = .label l
    · obtain ⟨l, rfl⟩ := hlabel
      obtain ⟨j, hj, hget⟩ := ih h.2 hle hlt
      exact ⟨j, by simp [hj], hget⟩
    · have hcons : m.code[pc]? = some i ∧ m.Contains (pc + 1) is ∧ size (i :: is) = size is + 1 := by
        cases i with
        | label l => exact absurd ⟨l, rfl⟩ hlabel
        | _ => exact ⟨h.1, h.2, rfl⟩
      obtain ⟨hi, hrest, hsize⟩ := hcons
      by_cases hk : k = pc
      · exact ⟨i, by simp, hk ▸ hi⟩
      · obtain ⟨j, hj, hget⟩ := ih hrest (by omega) (by omega)
        exact ⟨j, by simp [hj], hget⟩

/-- The places of the labels of a sequence. -/
theorem exists_place_of_contains (h : m.Contains pc is) {l : String} (hl : l ∈ labelsOf is) :
    ∃ j, m.labels.find? l = some j ∧ pc ≤ j ∧ j ≤ pc + size is := by
  induction is generalizing pc with
  | nil => cases hl
  | cons i is ih =>
    by_cases hlabel : ∃ l, i = .label l
    · obtain ⟨name, rfl⟩ := hlabel
      have hcons : labelsOf (.label name :: is) = name :: labelsOf is := rfl
      rw [hcons] at hl
      rcases List.mem_cons.1 hl with rfl | hl
      · exact ⟨pc, h.1.1, Nat.le_refl _, Nat.le_add_right _ _⟩
      · exact ih h.2 hl
    · have hcons : m.Contains (pc + 1) is ∧ size (i :: is) = size is + 1 ∧ labelsOf (i :: is) = labelsOf is := by
        cases i with
        | label l => exact absurd ⟨l, rfl⟩ hlabel
        | _ => exact ⟨h.2, rfl, rfl⟩
      obtain ⟨hrest, hsize, hlabels⟩ := hcons
      obtain ⟨j, hj, hle, hle'⟩ := ih hrest (hlabels ▸ hl)
      exact ⟨j, hj, by omega, by omega⟩

/-- A labelled sequence is left at its end or for a label outside. -/
theorem stays_of_labelled {n n' : Nat} {outside : List String} (h : m.Contains pc is) (his : Labelled n n' outside is) :
    m.Stays (fun k => k = pc + size is ∨ ∃ l ∈ outside, m.labels.find? l = some k) pc := by
  refine ⟨fun k => pc ≤ k ∧ k < pc + size is, ?_, fun k hk => ?_⟩
  · by_cases hsize : size is = 0
    · exact .inr (.inl (by omega))
    · exact .inl ⟨Nat.le_refl _, by omega⟩
  · obtain ⟨i, hmem, hi⟩ := exists_of_contains h hk.1 hk.2
    refine ⟨(List.getElem?_eq_some_iff.1 hi).1, ?_⟩
    rintro k' ⟨i', hi', hedge⟩
    obtain rfl := Option.some.inj (hi.symm.trans hi')
    rcases hedge with ⟨l, hl, hplace⟩ | ⟨-, rfl⟩
    · rcases his.jumps i hmem l hl with hinside | houtside
      · obtain ⟨j, hj, hle, hle'⟩ := exists_place_of_contains h hinside
        obtain rfl := Option.some.inj (hplace.symm.trans hj)
        by_cases hend : k' = pc + size is
        · exact .inr (.inl hend)
        · exact .inl ⟨hle, by omega⟩
      · exact .inr (.inr ⟨l, houtside, hplace⟩)
    · by_cases hend : k + 1 = pc + size is
      · exact .inr (.inl hend)
      · exact .inl ⟨by omega, by omega⟩

/-- A sequence that is left at its end, and what stands behind it. -/
theorem Stays.append {n n' : Nat} (h : m.Contains pc (is ++ js)) (his : Labelled n n' [] is)
    (hjs : m.Stays stops (pc + size is)) : m.Stays stops pc := by
  refine (stays_of_labelled (contains_append.1 h).1 his).trans fun k hk => ?_
  obtain rfl : k = pc + size is := by simpa using hk
  exact hjs

end CodeMethod

namespace SymbolTable
variable {t : SymbolTable} {method : String} {returnType : Ty}
open Lower

/-- Code that is not left, in whatever method it stands. -/
def Ends (is : List Instruction) : Prop :=
  ∀ (m : CodeMethod) (pc : Nat), m.Contains pc is → m.Stays (fun _ => False) pc

/-- The code of a statement, which is not left where every path through the statement ends in a return. -/
def EndsCode (completes : Bool) (k : Nat) (is : List Instruction) (k' : Nat) : Prop :=
  Labelled k k' [] is ∧ (completes = true → Ends is)

theorem from_ends_lowerSequence {ns : List Node}
    (h : ∀ n ∈ ns, ∀ k, From k (t.lowerStatement method returnType n) (EndsCode n.completes k)) (k : Nat) :
    From k (t.lowerSequence method returnType ns) (EndsCode (Node.anyCompletes ns) k) := by
  induction ns generalizing k with
  | nil => exact .pure ⟨.nil k [], fun hfalse => absurd hfalse Bool.false_ne_true⟩
  | cons n ns ih =>
    rw [lowerSequence]
    refine (h n (by simp) k).bind fun first k₁ hfirst => ?_
    refine (ih (fun n hn => h n (by simp [hn])) k₁).bind fun rest k₂ hrest => .pure ⟨hfirst.1.append hrest.1, ?_⟩
    intro hcompletes m pc hcontains
    rw [Node.anyCompletes, Bool.or_eq_true] at hcompletes
    obtain ⟨hinFirst, hinRest⟩ := CodeMethod.contains_append.1 hcontains
    rcases hcompletes with hcompletes | hcompletes
    · exact hfirst.2 hcompletes m pc hinFirst
    · exact .append hcontains hfirst.1 (hrest.2 hcompletes m _ hinRest)

theorem ends_ifElse {number : String} {test first second : List Instruction} {k k' : Nat}
    (htest : Labelled k k' ["if_then_" ++ number] test) (hfirst : Ends first) (hsecond : Ends second) :
    Ends (test ++ [.label ("if_else_" ++ number)] ++ first ++
      [.goto ("if_end_" ++ number), .label ("if_then_" ++ number)] ++ second ++ [.label ("if_end_" ++ number)]) := by
  intro m pc h
  simp only [List.append_assoc, CodeMethod.contains_append] at h
  obtain ⟨hinTest, -, hinFirst, hjump, hinSecond, -⟩ := h
  have hthen : m.labels.find? ("if_then_" ++ number) =
      some (pc + size test + size [.label ("if_else_" ++ number)] + size first + 1) :=
    hjump.2.1.1
  refine (CodeMethod.stays_of_labelled hinTest htest).trans fun k hk => ?_
  rcases hk with rfl | ⟨l, hl, hplace⟩
  · exact hfirst m _ hinFirst
  · obtain rfl := List.mem_singleton.1 hl
    obtain rfl := Option.some.inj (hplace.symm.trans hthen)
    exact hsecond m _ hinSecond

/-- The code of a statement is left at its end only, and not at all where every path through the statement ends
in a return. -/
theorem from_ends_lowerStatement (n : Node) (k : Nat) :
    From k (t.lowerStatement method returnType n) (EndsCode n.completes k) := by
  induction n using Node.induction_children generalizing k with
  | step n ih =>
    have hother (hcompletes : n.completes = false) :
        From k (t.lowerStatement method returnType n) (EndsCode n.completes k) :=
      (from_lowerStatement n k).imp fun is k' his => ⟨his, fun htrue => by simp [hcompletes] at htrue⟩
    obtain ⟨kind, attributes, children, position⟩ := n
    cases kind with
    | returnStmt =>
      unfold lowerStatement
      rcases children with _ | ⟨value, rest⟩
      · exact .pure ⟨.single k rfl rfl, fun _ m pc h => CodeMethod.stays_ret h.1⟩
      · refine (t.labels_lower method value k _).bind fun v k₁ hv => .pure ⟨hv.labelled.append (.single k₁ rfl rfl), ?_⟩
        intro _ m pc h
        exact .append h hv.labelled (CodeMethod.stays_ret (CodeMethod.contains_append.1 h).2.1)
    | block =>
      unfold lowerStatement
      exact from_ends_lowerSequence ih k
    | ifStmt =>
      rcases children with _ | ⟨condition, _ | ⟨thenPart, _ | ⟨elsePart, _ | ⟨_, _⟩⟩⟩⟩
      · exact hother rfl
      · exact hother rfl
      · exact hother rfl
      · unfold lowerStatement
        refine from_label.bind fun number k₁ hk => ?_
        obtain ⟨rfl, rfl⟩ := hk
        refine (from_lowerBranch condition _).bind fun test k₁ htest => ?_
        refine (ih elsePart (by simp) k₁).bind fun first k₂ hfirst => ?_
        refine (ih thenPart (by simp) k₂).bind fun second k₃ hsecond =>
          .pure ⟨labelled_ifElse htest.labelled hfirst.1 hsecond.1, fun hcompletes => ?_⟩
        rw [Node.completes, Bool.and_eq_true] at hcompletes
        exact ends_ifElse htest.labelled (hfirst.2 hcompletes.2) (hsecond.2 hcompletes.1)
      · exact hother rfl
    | _ => exact hother rfl

end SymbolTable
end JmmCompiler

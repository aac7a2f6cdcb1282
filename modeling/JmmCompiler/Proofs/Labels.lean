import JmmCompiler.Proofs.LabelNumbers
import JmmCompiler.Proofs.Slots
/-! Labels of lowered code. No label comes twice in a program, and every jump goes to a label of its method. -/
namespace JmmCompiler

/-! ## Expressions -/

namespace SymbolTable
variable (t : SymbolTable) (method : String) {k : Nat}
open Lower

/-- A lowered expression is left at its end only, and its labels have numbers of its own. -/
def LabelsValue (k : Nat) (v : Lowered) (k' : Nat) : Prop := Straight k k' [] v.computation

theorem from_intoTemp {k' : Nat} {before : List Instruction} (hbefore : Straight k k' [] before) (type : Ty)
    (value : Instruction) : From k' (intoTemp before type value) (LabelsValue k) :=
  from_temp.bind fun _ _ hk => .pure (hk ▸ hbefore.append (.single k' rfl rfl (by simp)))

theorem from_lowerVariable (name : String) : From k (t.lowerVariable method name) (LabelsValue k) := by
  unfold lowerVariable
  split
  · exact .pure (.nil k [])
  · split
    · exact from_intoTemp (.nil k []) _ _
    · split
      · exact .pure (.nil k [])
      · exact .throw (by simp)

theorem from_lowerNewArray {k' : Nat} (element : String) {size : Lowered} (h : LabelsValue k size k') :
    From k' (lowerNewArray element size) (LabelsValue k) := from_intoTemp h _ _

theorem from_lengthOf {k' : Nat} {array : Lowered} (h : LabelsValue k array k') :
    From k' (lengthOf array) (LabelsValue k) := from_intoTemp h _ _

variable {t method}

/-- What is lowered has labels with numbers of its own. -/
def Labels (t : SymbolTable) (method : String) (n : Node) : Prop :=
  ∀ k expected, From k (t.lower method expected n) (LabelsValue k)

theorem from_lowerElements {elements : List Node} (h : ∀ e ∈ elements, t.Labels method e) (array : String)
    (element : Ty) (index : Nat) :
    From k (t.lowerElements method array element index elements) fun is k' => Straight k k' [] is := by
  induction elements generalizing k index with
  | nil => exact .pure (.nil k [])
  | cons e es ih =>
    rw [lowerElements]
    refine (h e (by simp) k _).bind fun v k₁ hv => ?_
    refine (ih (fun e he => h e (by simp [he])) (index + 1)).bind fun is k₂ his => .pure ?_
    exact (Straight.append hv (.single k₁ rfl rfl (by simp))).append his

theorem from_lowerArguments {args : List Node} (h : ∀ e ∈ args, t.Labels method e) (params : List Ty) :
    From k (t.lowerArguments method params args) fun r k' => Straight k k' [] r.1 := by
  induction args generalizing k params with
  | nil => exact .pure (.nil k [])
  | cons arg args ih =>
    rw [lowerArguments]
    refine (h arg (by simp) k _).bind fun v k₁ hv => ?_
    exact (ih (fun e he => h e (by simp [he])) params.tail).bind fun r k₂ hr => .pure (Straight.append hv hr)

/-- `&&` has two labels, behind its right side. -/
theorem labelled_and {k' : Nat} {left right : Lowered} {k₁ : Nat} (hleft : LabelsValue (k + 1) left k₁)
    (hright : LabelsValue k₁ right k') (temp : Element) :
    Straight k k' [] (left.computation ++
      [.branch (.unary "!" left.code .boolean) ("and_false_" ++ toString k)] ++ right.computation ++
      [.assign temp (.single right.code), .goto ("and_end_" ++ toString k), .label ("and_false_" ++ toString k),
       .assign temp (.single (.literal 0 .boolean)), .label ("and_end_" ++ toString k)]) := by
  refine ⟨Labelled.enclose ["and_false_" ++ toString k, "and_end_" ++ toString k]
    (left.computation ++ right.computation) ((Straight.append hleft hright).labelled.outside_mono (by simp)) (by simp)
    (by simp [numbered, labelStems]) ?_ ?_, fun e type => ?_⟩
  · simp [labelsOf, List.perm_iff_count, List.count_cons]
    omega
  · intro i hi l hl
    simp only [List.mem_append, List.mem_cons, List.not_mem_nil, or_false] at hi ⊢
    rcases hi with ((hi | rfl) | hi) | rfl | rfl | rfl | rfl | rfl
    · exact .inl (.inl hi)
    · exact .inr (.inl (Option.some.inj hl).symm)
    · exact .inl (.inr hi)
    · cases hl
    · exact .inr (.inr (Option.some.inj hl).symm)
    · cases hl
    · cases hl
    · cases hl
  · simp [hleft.stays e type, hright.stays e type]

theorem labels_binary {attributes : Assoc Attribute} {children : List Node} {position : Position}
    (ih : ∀ c ∈ children, t.Labels method c) : t.Labels method ⟨.binary, attributes, children, position⟩ := by
  intro k expected
  unfold lower
  refine .known (Node.undoubled_op _) fun op _ => ?_
  rcases children with _ | ⟨left, _ | ⟨right, rest⟩⟩
  · dsimp only
    split
    · exact from_label.bind fun _ _ _ => .throw (by simp)
    · split <;> exact .throw (by simp)
  · dsimp only
    split
    · exact from_label.bind fun _ _ _ => (ih left (by simp) _ _).bind fun _ _ _ => .throw (by simp)
    · split <;> exact .throw (by simp)
  · dsimp only
    have hleft := ih left (by simp)
    have hright := ih right (by simp)
    split
    · refine from_label.bind fun n k₁ hk => ?_
      obtain ⟨rfl, rfl⟩ := hk
      refine (hleft _ _).bind fun leftValue k₁ hleft => (hright _ _).bind fun rightValue k₂ hright => ?_
      exact from_temp.bind fun temp k₃ hk => .pure (hk ▸ labelled_and hleft hright _)
    · split
      · rw [pure_bind]
        refine .known (t.undoubled_operandHint _ _ _) fun leftHint _ => ?_
        refine (hleft _ _).bind fun leftValue k₁ hleft => ?_
        refine .known (t.undoubled_operandHint _ _ _) fun rightHint _ => ?_
        refine (hright _ _).bind fun rightValue k₂ hright => ?_
        exact from_intoTemp (Straight.append hleft hright) _ _
      · exact .throw (by simp)

theorem labels_arrayAccess {attributes : Assoc Attribute} {children : List Node} {position : Position}
    (ih : ∀ c ∈ children, t.Labels method c) :
    t.Labels method ⟨.arrayAccess, attributes, children, position⟩ := by
  intro k expected
  unfold lower
  rcases children with _ | ⟨array, _ | ⟨index, rest⟩⟩
  · exact .throw (by simp)
  · exact (ih array (by simp) _ _).bind fun _ _ _ => .throw (by simp)
  · refine (ih array (by simp) _ _).bind fun arrayValue k₁ harray => ?_
    refine (ih index (by simp) _ _).bind fun indexValue k₂ hindex => ?_
    refine .known (Element.undoubled_type _) fun type _ => .known (Element.undoubled_name _) fun name _ => ?_
    exact from_intoTemp (Straight.append harray hindex) _ _

/-- The arguments of a call, and the call. -/
theorem from_invocation {k' : Nat} {args : List Node} (hargs : ∀ e ∈ args, t.Labels method e)
    (invocation : Invocation) {target : Lowered} (htarget : LabelsValue k target k')
    {name : Except Failure (Option String)} (hname : Undoubled name) (type : Ty) (params : List Ty) :
    From k' (do
      let r ← t.lowerArguments method params args
      let name ← name
      let call := Instruction.call invocation target.code name r.2 type
      if type = .void then return ⟨.absent, target.computation ++ r.1 ++ [call]⟩
      else intoTemp (target.computation ++ r.1) type call) (LabelsValue k) := by
  refine (from_lowerArguments hargs params).bind fun r k₁ hr => .known hname fun name _ => ?_
  have hbefore := Straight.append htarget hr
  dsimp only
  split
  · exact .pure (hbefore.append (.single k₁ rfl rfl (by simp)))
  · exact from_intoTemp hbefore _ _

section
variable {P : Lowered → Nat → Prop} {name : String} {receiver : Node}

/-- What follows when the target of a call is lowered. -/
theorem from_callTarget {rest : Invocation × Lowered → Lower Lowered} {own : Bool}
    (hreceiver : t.Labels method receiver) (h : ∀ k' target, LabelsValue k target.2 k' → From k' (rest target) P) :
    From k (if (own && t.isStatic name) = true then do
        let target ← pure (.static, ⟨.classRef t.className t.classType, []⟩)
        rest target
      else do
        if ← t.isClassReceiver method receiver then do
          let imported ← receiver.name
          let target ← pure (.static, ⟨.classRef imported ⟨imported, false⟩, []⟩)
          rest target
        else do
          let value ← t.lower method none receiver
          let target ← pure (.virtual, value)
          rest target) P := by
  split
  · exact h k _ (.nil k [])
  · refine .known (t.undoubled_isClassReceiver _ _) fun isClass _ => ?_
    split
    · exact .known receiver.undoubled_name fun imported _ => h k _ (.nil k [])
    · exact (hreceiver k none).bind fun value k' hvalue => h k' (.virtual, value) hvalue

/-- What follows when the signature of a call is known. -/
theorem from_callSignature {rest : Ty × List Ty → Lower Lowered} {own : Bool} {type : Ty}
    (h : ∀ signature, From k (rest signature) P) :
    From k (if own = true then do
        let m ← t.method name
        let signature ← pure (m.returnType, m.params.map (·.type))
        rest signature
      else do
        let signature ← pure (type, [])
        rest signature) P := by
  split
  · exact .known (t.undoubled_method name) fun m _ => h _
  · exact h _

end

theorem labels_call {attributes : Assoc Attribute} {children : List Node} {position : Position}
    (ih : ∀ c ∈ children, t.Labels method c) : t.Labels method ⟨.call, attributes, children, position⟩ := by
  intro k expected
  unfold lower
  refine .known (Node.undoubled_name _) fun name _ => ?_
  rcases children with _ | ⟨receiver, args⟩
  · exact .throw (by simp)
  have hreceiver := ih receiver (by simp)
  refine .known (t.undoubled_isOwnCall _ _ _) fun own _ => ?_
  refine .flag (t.undoubled_typeOf _ _) fun isLength => ?_
  split
  · exact (hreceiver k _).bind fun array k' harray => from_lengthOf harray
  · refine from_callTarget hreceiver fun k' target htarget => from_callSignature fun signature => ?_
    exact from_invocation (fun e he => ih e (by simp [he])) _ htarget (Node.undoubled_name? _) _ _

theorem labels_arrayLiteral {attributes : Assoc Attribute} {children : List Node} {position : Position}
    (ih : ∀ c ∈ children, t.Labels method c) :
    t.Labels method ⟨.arrayLiteral, attributes, children, position⟩ := by
  intro k expected
  unfold lower
  refine .known (t.undoubled_typeOf _ _) fun type _ => ?_
  have hsize : LabelsValue k ⟨.literal children.length .int, []⟩ k := .nil k []
  refine (from_lowerNewArray type.base.name hsize).bind fun array k₁ harray => ?_
  refine .known array.code.undoubled_name fun name _ => ?_
  exact (from_lowerElements ih _ _ _).bind fun stores k₂ hstores => .pure (Straight.append harray hstores)

/-- The labels of an expression have numbers of its own. -/
theorem labels_lower (t : SymbolTable) (method : String) (n : Node) : t.Labels method n := by
  induction n using Node.induction_children with
  | step n ih =>
    obtain ⟨kind, attributes, children, position⟩ := n
    intro k expected
    cases kind with
    | binary => exact labels_binary ih k expected
    | arrayAccess => exact labels_arrayAccess ih k expected
    | arrayLiteral => exact labels_arrayLiteral ih k expected
    | call => exact labels_call ih k expected
    | intLiteral =>
      refine .known (Node.undoubled_required _ _) fun value _ => ?_
      split
      · exact .pure (.nil k [])
      · exact .throw (by simp)
    | boolLiteral => exact .known (Node.undoubled_required _ _) fun value _ => .pure (.nil k [])
    | thisRef => exact .pure (.nil k [])
    | varRef => exact .known (Node.undoubled_name _) fun name _ => t.from_lowerVariable method name
    | newObject =>
      refine .known (Node.undoubled_text _ _) fun name _ => from_temp.bind fun temp k₁ hk => .pure ?_
      subst hk
      exact ⟨⟨Nat.le_refl _, by simp [labelsOf], by simp [labelsOf], by simp [Instruction.target?]⟩, by simp⟩
    | paren =>
      unfold lower
      rcases children with _ | ⟨inner, rest⟩
      · exact .throw (by simp)
      · exact ih inner (by simp) k expected
    | unary =>
      unfold lower
      rcases children with _ | ⟨operand, rest⟩
      · exact .throw (by simp)
      · refine (ih operand (by simp) k _).bind fun v k₁ hv => ?_
        exact .known (Node.undoubled_op _) fun op _ => from_intoTemp hv _ _
    | newArray =>
      unfold lower
      rcases children with _ | ⟨size, rest⟩
      · exact .throw (by simp)
      · refine (ih size (by simp) k _).bind fun v k₁ hv => ?_
        exact .known (Node.undoubled_name _) fun name _ => from_lowerNewArray name hv
    | length =>
      unfold lower
      rcases children with _ | ⟨array, rest⟩
      · exact .throw (by simp)
      · exact (ih array (by simp) k _).bind fun v k₁ hv => from_lengthOf hv
    | _ => exact .throw (by simp)

/-! ## Statements -/

/-- The labels of lowered statements have numbers of their own. -/
def LabelsCode (k : Nat) (is : List Instruction) (k' : Nat) : Prop := Labelled k k' [] is

/-- The same of a sequence that does not return. -/
def StraightCode (k : Nat) (outside : List String) (is : List Instruction) (k' : Nat) : Prop :=
  Straight k k' outside is

theorem from_lowerStore (array index value : Node) :
    From k (t.lowerStore method array index value) (StraightCode k []) := by
  unfold lowerStore
  refine (t.labels_lower method array k _).bind fun arrayValue k₁ harray => ?_
  refine (t.labels_lower method index k₁ _).bind fun indexValue k₂ hindex => ?_
  refine .known (Element.undoubled_type _) fun type _ => ?_
  refine (t.labels_lower method value k₂ _).bind fun v k₃ hv => ?_
  refine .known (Element.undoubled_name _) fun name _ => .pure ?_
  exact ((Straight.append harray hindex).append hv).append (.single k₃ rfl rfl (by simp))

theorem from_lowerAssign (name : String) (value : Node) :
    From k (t.lowerAssign method name value) (StraightCode k []) := by
  unfold lowerAssign
  split
  · refine .known (undoubled_selfUpdate? _ _ _) fun update _ => ?_
    split
    · exact .pure (.single k rfl rfl (by simp))
    · exact (t.labels_lower method value k _).bind fun v k₁ hv => .pure (Straight.append hv (.single k₁ rfl rfl (by simp)))
  · split
    · exact (t.labels_lower method value k _).bind fun v k₁ hv => .pure (Straight.append hv (.single k₁ rfl rfl (by simp)))
    · exact .throw (by simp)

/-- A jump behind what computes its condition. -/
theorem straight_branch {k' : Nat} {before : List Instruction} (h : Straight k k' [] before)
    (condition : Instruction) (label : String) : Straight k k' [label] (before ++ [.branch condition label]) where
  labelled := (h.labelled.outside_mono (by simp)).append
    ⟨Nat.le_refl k', by simp [labelsOf], by simp [labelsOf], by simp [Instruction.target?]⟩
  stays e type := by simp [h.stays e type]

theorem from_lowerBranch (condition : Node) (label : String) :
    From k (t.lowerBranch method condition label) (StraightCode k [label]) := by
  have hjump (isComparison isNegation : Bool) : From k (do
      if isComparison then
        let left ← t.lower method (some .int) (← condition.child 0)
        let right ← t.lower method (some .int) (← condition.child 1)
        return left.computation ++ right.computation ++
          [.branch (.binary (← condition.op) left.code right.code .boolean) label]
      else if isNegation then
        let operand ← t.lower method (some .boolean) (← condition.child 0)
        return operand.computation ++ [.branch (.unary "!" operand.code .boolean) label]
      else
        let value ← t.lower method (some .boolean) condition
        return value.computation ++ [.branch (.single value.code) label]) (StraightCode k [label]) := by
    split
    · refine .known (condition.undoubled_child _) fun left _ => ?_
      refine (t.labels_lower method left k _).bind fun leftValue k₁ hleft => ?_
      refine .known (condition.undoubled_child _) fun right _ => ?_
      refine (t.labels_lower method right k₁ _).bind fun rightValue k₂ hright => ?_
      exact .known condition.undoubled_op fun op _ => .pure (straight_branch (Straight.append hleft hright) _ _)
    · split
      · refine .known (condition.undoubled_child _) fun operand _ => ?_
        exact (t.labels_lower method operand k _).bind fun v k₁ hv => .pure (straight_branch hv _ _)
      · exact (t.labels_lower method condition k _).bind fun v k₁ hv => .pure (straight_branch hv _ _)
  unfold lowerBranch
  refine .flag condition.undoubled_op fun isComparison => ?_
  exact .flag condition.undoubled_op fun isNegation => hjump isComparison isNegation

section
variable {k' k₁ k₂ : Nat} {test first second : List Instruction}

/-- An `if` with two branches has three labels. -/
theorem labelled_ifElse (htest : Labelled (k + 1) k₁ ["if_then_" ++ toString k] test)
    (helse : Labelled k₁ k₂ [] first) (hthen : Labelled k₂ k' [] second) :
    Labelled k k' [] (test ++ [.label ("if_else_" ++ toString k)] ++ first ++
      [.goto ("if_end_" ++ toString k), .label ("if_then_" ++ toString k)] ++ second ++
      [.label ("if_end_" ++ toString k)]) := by
  refine Labelled.enclose ["if_then_" ++ toString k, "if_else_" ++ toString k, "if_end_" ++ toString k]
    (test ++ first ++ second)
    (((htest.outside_mono (by simp)).append (helse.outside_mono (by simp))).append (hthen.outside_mono (by simp)))
    (by simp) (by simp [numbered, labelStems]) ?_ ?_
  · simp [labelsOf, List.perm_iff_count, List.count_cons]
    omega
  · intro i hi l hl
    simp only [List.mem_append, List.mem_cons, List.not_mem_nil, or_false] at hi ⊢
    rcases hi with ((((hi | rfl) | hi) | rfl | rfl) | hi) | rfl
    · exact .inl (.inl (.inl hi))
    · cases hl
    · exact .inl (.inl (.inr hi))
    · exact .inr (.inr (.inr (Option.some.inj hl).symm))
    · cases hl
    · exact .inl (.inr hi)
    · cases hl

/-- An `if` with one branch has two labels. -/
theorem labelled_ifThen (htest : Labelled (k + 1) k₁ ["if_then_" ++ toString k] test)
    (hthen : Labelled k₁ k' [] second) :
    Labelled k k' [] (test ++ [.goto ("if_end_" ++ toString k), .label ("if_then_" ++ toString k)] ++ second ++
      [.label ("if_end_" ++ toString k)]) := by
  refine Labelled.enclose ["if_then_" ++ toString k, "if_end_" ++ toString k] (test ++ second)
    ((htest.outside_mono (by simp)).append (hthen.outside_mono (by simp)))
    (by simp) (by simp [numbered, labelStems]) ?_ ?_
  · simp [labelsOf, List.perm_iff_count, List.count_cons]
    omega
  · intro i hi l hl
    simp only [List.mem_append, List.mem_cons, List.not_mem_nil, or_false] at hi ⊢
    rcases hi with ((hi | rfl | rfl) | hi) | rfl
    · exact .inl (.inl hi)
    · exact .inr (.inr (Option.some.inj hl).symm)
    · cases hl
    · exact .inl (.inr hi)
    · cases hl

/-- A loop has three labels. Its condition comes behind its body. -/
theorem labelled_while (hbody : Labelled (k + 1) k₁ [] first)
    (htest : Labelled k₁ k' ["while_body_" ++ toString k] test) :
    Labelled k k' [] ([.goto ("while_cond_" ++ toString k), .label ("while_body_" ++ toString k)] ++ first ++
      [.label ("while_cond_" ++ toString k)] ++ test ++ [.label ("while_end_" ++ toString k)]) := by
  refine Labelled.enclose ["while_cond_" ++ toString k, "while_body_" ++ toString k, "while_end_" ++ toString k]
    (first ++ test) ((hbody.outside_mono (by simp)).append (htest.outside_mono (by simp)))
    (by simp) (by simp [numbered, labelStems]) ?_ ?_
  · simp [labelsOf, List.perm_iff_count, List.count_cons]
    omega
  · intro i hi l hl
    simp only [List.mem_append, List.mem_cons, List.not_mem_nil, or_false] at hi ⊢
    rcases hi with ((((rfl | rfl) | hi) | rfl) | hi) | rfl
    · exact .inr (.inl (Option.some.inj hl).symm)
    · cases hl
    · exact .inl (.inl hi)
    · cases hl
    · exact .inl (.inr hi)
    · cases hl

end

variable {returnType : Ty}

theorem from_lowerSequence {ns : List Node}
    (h : ∀ n ∈ ns, ∀ k, From k (t.lowerStatement method returnType n) (LabelsCode k)) :
    From k (t.lowerSequence method returnType ns) (LabelsCode k) := by
  induction ns generalizing k with
  | nil => exact .pure (.nil k [])
  | cons n ns ih =>
    rw [lowerSequence]
    refine (h n (by simp) k).bind fun first k₁ hfirst => ?_
    exact (ih fun n hn => h n (by simp [hn])).bind fun rest k₂ hrest => .pure (Labelled.append hfirst hrest)

/-- The labels of a statement have numbers of its own. -/
theorem from_lowerStatement (n : Node) (k : Nat) :
    From k (t.lowerStatement method returnType n) (LabelsCode k) := by
  induction n using Node.induction_children generalizing k with
  | step n ih =>
    obtain ⟨kind, attributes, children, position⟩ := n
    unfold lowerStatement
    cases kind with
    | block => exact from_lowerSequence ih
    | exprStmt =>
      rcases children with _ | ⟨e, rest⟩
      · exact .throw (by simp)
      · exact (t.labels_lower method e k _).bind fun v k₁ hv => .pure hv.labelled
    | assign =>
      rcases children with _ | ⟨target, _ | ⟨value, _ | ⟨_, _⟩⟩⟩
      · exact .throw (by simp)
      · exact .throw (by simp)
      · dsimp only
        split
        · exact .known (target.undoubled_child _) fun array _ => .known (target.undoubled_child _) fun index _ =>
            (from_lowerStore array index value).imp fun _ _ h => h.labelled
        · exact .known target.undoubled_name fun name _ =>
            (from_lowerAssign name value).imp fun _ _ h => h.labelled
      · exact .throw (by simp)
    | arrayAssign =>
      rcases children with _ | ⟨array, _ | ⟨index, _ | ⟨value, _ | ⟨_, _⟩⟩⟩⟩
      · exact .throw (by simp)
      · exact .throw (by simp)
      · exact .throw (by simp)
      · exact (from_lowerStore array index value).imp fun _ _ h => h.labelled
      · exact .throw (by simp)
    | returnStmt =>
      rcases children with _ | ⟨value, rest⟩
      · exact .pure (.single k rfl rfl)
      · exact (t.labels_lower method value k _).bind fun v k₁ hv =>
          .pure (hv.labelled.append (.single k₁ rfl rfl))
    | ifStmt =>
      refine from_label.bind fun number k₁ hk => ?_
      obtain ⟨rfl, rfl⟩ := hk
      rcases children with _ | ⟨condition, _ | ⟨thenPart, _ | ⟨elsePart, _ | ⟨_, _⟩⟩⟩⟩
      · exact .throw (by simp)
      · exact (from_lowerBranch condition _).bind fun _ _ _ => .throw (by simp)
      · refine (from_lowerBranch condition _).bind fun test k₁ htest => ?_
        exact (ih thenPart (by simp) k₁).bind fun second k₂ hsecond => .pure (labelled_ifThen htest.labelled hsecond)
      · refine (from_lowerBranch condition _).bind fun test k₁ htest => ?_
        refine (ih elsePart (by simp) k₁).bind fun first k₂ hfirst => ?_
        exact (ih thenPart (by simp) k₂).bind fun second k₃ hsecond => .pure (labelled_ifElse htest.labelled hfirst hsecond)
      · refine (from_lowerBranch condition _).bind fun test k₁ htest => ?_
        exact (ih thenPart (by simp) k₁).bind fun second k₂ hsecond => .pure (labelled_ifThen htest.labelled hsecond)
    | whileStmt =>
      refine from_label.bind fun number k₁ hk => ?_
      obtain ⟨rfl, rfl⟩ := hk
      rcases children with _ | ⟨condition, _ | ⟨body, rest⟩⟩
      · exact .throw (by simp)
      · exact .throw (by simp)
      · refine (ih body (by simp) _).bind fun first k₁ hfirst => ?_
        exact (from_lowerBranch condition _).bind fun test k₂ htest => .pure (labelled_while hfirst htest.labelled)
    | _ => exact .throw (by simp)

end SymbolTable
/-! ## Methods -/

namespace Element

theorem undoubled_names (e : Element) : Undoubled e.names := by
  induction e with
  | literal n type => exact undoubled_ok _
  | var name type => exact undoubled_ok _
  | classRef name type => exact undoubled_ok _
  | item array type index ih => exact ih.bind fun _ _ => undoubled_pure _
  | absent => exact undoubled_throw (by simp)

end Element

theorem undoubled_mapM {α β : Type} {f : α → Except Failure β} {xs : List α} (h : ∀ x ∈ xs, Undoubled (f x)) :
    Undoubled (xs.mapM f) := by
  induction xs with
  | nil => exact undoubled_pure _
  | cons x xs ih =>
    rw [List.mapM_cons]
    exact (h x (by simp)).bind fun _ _ => (ih fun y hy => h y (by simp [hy])).bind fun _ _ => undoubled_pure _

namespace Instruction

theorem undoubled_optionalNames (e : Element) : Undoubled (optionalNames e) := by
  cases e with
  | absent => exact undoubled_ok _
  | _ => exact Element.undoubled_names _

theorem undoubled_uses (i : Instruction) : Undoubled i.uses := by
  induction i with
  | single e => exact e.undoubled_names
  | binary op l r type => exact l.undoubled_names.bind fun _ _ => r.undoubled_names.bind fun _ _ => undoubled_pure _
  | unary op e type => exact e.undoubled_names
  | call invocation receiver method args type =>
    exact (undoubled_optionalNames receiver).bind fun _ _ =>
      (undoubled_mapM fun a _ => a.undoubled_names).bind fun _ _ => undoubled_pure _
  | getField object field => exact undoubled_ok _
  | putField object field value => exact value.undoubled_names
  | assign dest value ih =>
    refine ih.bind fun names _ => ?_
    split
    · exact dest.undoubled_names.bind fun _ _ => undoubled_pure _
    · exact undoubled_pure _
  | ret e type => exact undoubled_optionalNames e
  | branch condition target ih => exact ih
  | _ => exact undoubled_ok _

theorem undoubled_defs (i : Instruction) : Undoubled i.defs := by
  unfold defs
  split
  · exact undoubled_ok _
  · exact (Element.undoubled_name _).bind fun _ _ => undoubled_pure _
  · exact undoubled_ok _

end Instruction

namespace CodeMethod
variable {m m' : CodeMethod} {labels : List String} {i : Instruction} {is : List Instruction}

/-- The labels that a method in the making was given, in their order, with those that have a place inside
the code. -/
structure HasLabels (m : CodeMethod) (labels : List String) : Prop where
  eq : m.labels.keys ++ m.pending = labels
  nodup : labels.Nodup
  inside : ∀ e ∈ m.labels.entries, e.2 < m.code.length

theorem entries_foldl_insert {names : List String} {placed : Assoc Nat} (pc : Nat)
    (h : (placed.keys ++ names).Nodup) :
    (names.foldl (fun placed l => placed.insert l pc) placed).entries =
      placed.entries ++ names.map fun l => (l, pc) := by
  induction names generalizing placed with
  | nil => simp
  | cons l names ih =>
    have hnew : placed.find? l = none := by
      by_contra hmem
      exact (List.nodup_append.1 h).2.2 l (Assoc.mem_keys_iff.2 hmem) l (by simp) rfl
    have hentries : (placed.insert l pc).entries = placed.entries ++ [(l, pc)] :=
      Assoc.insertEntry_of_findEntry hnew
    have hkeys : (placed.insert l pc).keys = placed.keys ++ [l] := by simp [Assoc.keys, hentries]
    rw [List.foldl_cons, ih (by rw [hkeys]; simpa using h), hentries]
    simp

/-- An instruction puts the labels that wait in their place. -/
theorem HasLabels.addInstruction (h : m.HasLabels labels) (i : Instruction) :
    (m.addInstruction i).HasLabels labels := by
  have hentries : (m.addInstruction i).labels.entries =
      m.labels.entries ++ m.pending.map fun l => (l, m.code.length) :=
    entries_foldl_insert _ (by rw [h.eq]; exact h.nodup)
  have hlength : (m.addInstruction i).code.length = m.code.length + 1 := by simp [CodeMethod.addInstruction]
  refine ⟨?_, h.nodup, fun e he => ?_⟩
  · simp only [Assoc.keys, hentries, List.map_append, List.map_map]
    simpa [CodeMethod.addInstruction, Assoc.keys, Function.comp_def] using h.eq
  · rw [hentries, List.mem_append] at he
    rw [hlength]
    rcases he with he | he
    · exact Nat.lt_succ_of_lt (h.inside e he)
    · obtain ⟨l, -, rfl⟩ := List.mem_map.1 he
      exact Nat.lt_succ_self _

/-- A label that the method has not been given yet can be added. -/
theorem HasLabels.addLabel (h : m.HasLabels labels) {label : String} (hnew : label ∉ labels) :
    ∃ m', m.addLabel label = .ok m' ∧ m'.HasLabels (labels ++ [label]) ∧ m'.code = m.code := by
  rw [← h.eq, List.mem_append, not_or, Assoc.mem_keys_iff, not_not] at hnew
  refine ⟨{ m with pending := m.pending ++ [label] }, ?_, ?_, rfl⟩
  · simp [CodeMethod.addLabel, Assoc.contains, hnew]
  refine ⟨by rw [← List.append_assoc, h.eq], ?_, h.inside⟩
  refine h.nodup.append (List.nodup_singleton label) fun l hl heq => ?_
  obtain rfl := List.mem_singleton.1 heq
  rw [← h.eq, List.mem_append, Assoc.mem_keys_iff] at hl
  exact hl.elim (fun hplaced => hplaced hnew.1) hnew.2

def isLabel : Instruction → Bool
  | .label _ => true
  | _ => false

/-- A sequence whose labels are new and distinct can be added. -/
theorem HasLabels.extend (h : m.HasLabels labels) (is : List Instruction) (hnodup : (labels ++ labelsOf is).Nodup) :
    ∃ m', m.extend is = .ok m' ∧ m'.HasLabels (labels ++ labelsOf is) ∧
      m'.code = m.code ++ is.filter (!isLabel ·) := by
  induction is generalizing m labels with
  | nil => exact ⟨m, rfl, by simpa using h, by simp⟩
  | cons i is ih =>
    by_cases hlabel : isLabel i = true
    · obtain ⟨label, rfl⟩ : ∃ label, i = .label label := by
        cases i with
        | label label => exact ⟨label, rfl⟩
        | _ => cases hlabel
      have hcons : labelsOf (.label label :: is) = label :: labelsOf is := rfl
      rw [hcons] at hnodup ⊢
      have hnew : label ∉ labels := fun hmem => (List.nodup_append.1 hnodup).2.2 label hmem label (by simp) rfl
      obtain ⟨m₁, hadd, hlabels, hcode⟩ := h.addLabel hnew
      obtain ⟨m', hextend, hlabels', hcode'⟩ := ih hlabels (by simpa using hnodup)
      refine ⟨m', ?_, by simpa using hlabels', by rw [hcode', hcode]; rfl⟩
      simp only [CodeMethod.extend, List.foldlM_cons, bind_eq_ok]
      exact ⟨m₁, hadd, hextend⟩
    · have hadd : m.add i = .ok (m.addInstruction i) := by
        cases i with
        | label label => exact absurd rfl hlabel
        | _ => rfl
      have hskip : labelsOf (i :: is) = labelsOf is := by
        cases i with
        | label label => exact absurd rfl hlabel
        | _ => rfl
      rw [hskip] at hnodup ⊢
      obtain ⟨m', hextend, hlabels', hcode'⟩ := ih (h.addInstruction i) hnodup
      refine ⟨m', ?_, hlabels', ?_⟩
      · simp only [CodeMethod.extend, List.foldlM_cons, bind_eq_ok]
        exact ⟨_, hadd, hextend⟩
      · rw [hcode', List.filter_cons_of_pos (by simp [hlabel])]
        simp [CodeMethod.addInstruction]

theorem undoubled_assignSlots (m : CodeMethod) : Undoubled m.assignSlots :=
  (undoubled_mapM fun i _ => i.undoubled_defs.bind fun _ _ => i.undoubled_uses.bind fun _ _ => undoubled_pure _).bind
    fun _ _ => undoubled_pure _

theorem undoubled_finish (m : CodeMethod) : Undoubled m.finish := undoubled_assignSlots _

/-- When a method ends, no label waits any more. -/
theorem HasLabels.finish (h : m.HasLabels labels) (hfinish : m.finish = .ok m') :
    m'.labels.keys = labels ∧ (∀ e ∈ m'.labels.entries, e.2 < m'.code.length) ∧
      ∀ i ∈ m'.code, i ∈ m.code ∨ i = .nop := by
  unfold CodeMethod.finish assignSlots at hfinish
  simp only [bind_eq_ok, pure_eq_ok] at hfinish
  obtain ⟨names, -, rfl⟩ := hfinish
  by_cases hpending : m.pending = []
  · simp only [hpending, List.isEmpty_nil, if_true]
    exact ⟨by simpa [hpending] using h.eq, h.inside, fun i hi => .inl hi⟩
  · simp only [List.isEmpty_iff, hpending, if_false]
    have hadded := h.addInstruction .nop
    exact ⟨by simpa [CodeMethod.addInstruction] using hadded.eq, hadded.inside,
      fun i hi => by simpa [CodeMethod.addInstruction] using hi⟩

/-- Labels that are distinct, have places inside the code, and are all that the jumps go to. -/
structure LabelsSound (m : CodeMethod) : Prop where
  nodup : m.labels.keys.Nodup
  jumps : ∀ i ∈ m.code, ∀ l, i.target? = some l → ∃ pc < m.code.length, m.labels.find? l = some pc
  inside : ∀ e ∈ m.labels.entries, e.2 < m.code.length

/-- A method made from a labelled sequence has sound labels. -/
theorem labelsSound_of_finish {k k' : Nat} (his : Labelled k k' [] is) (hempty : m.HasLabels []) (hcode : m.code = [])
    {m₁ : CodeMethod} (hextend : m.extend is = .ok m₁) (hfinish : m₁.finish = .ok m') :
    m'.LabelsSound ∧ m'.labels.keys = labelsOf is := by
  obtain ⟨m₂, hextend₂, hlabels, hcode₂⟩ := hempty.extend is (by simpa using his.nodup)
  obtain rfl : m₁ = m₂ := Except.ok.inj (hextend.symm.trans hextend₂)
  obtain ⟨hkeys, hinside, hmem⟩ := hlabels.finish hfinish
  rw [List.nil_append] at hkeys
  refine ⟨⟨hkeys ▸ his.nodup, fun i hi l hl => ?_, hinside⟩, hkeys⟩
  rcases hmem i hi with hi | rfl
  · rw [hcode₂, hcode, List.nil_append] at hi
    have hlabel : l ∈ m'.labels.keys := by
      rw [hkeys]
      exact (his.jumps i (List.mem_of_mem_filter hi) l hl).resolve_right (by simp)
    obtain ⟨pc, hpc⟩ := Option.ne_none_iff_exists'.1 (Assoc.mem_keys_iff.1 hlabel)
    exact ⟨pc, hinside _ (Assoc.mem_of_findEntry hpc), hpc⟩
  · cases hl

end CodeMethod

/-! ## Programs -/

namespace SymbolTable
variable (t : SymbolTable) {k : Nat}
open Lower

theorem from_reserve (names : List String) :
    From k (modify (·.reserve names) : Lower Unit) fun _ k' => k' = k := by
  rintro ns rfl
  rfl

/-- The labels of methods are sound in each of them, distinct in all of them, and have numbers of their own. -/
structure LabelsMethods (k : Nat) (ms : List CodeMethod) (k' : Nat) : Prop where
  le : k ≤ k'
  sound : ∀ m ∈ ms, m.LabelsSound
  nodup : (ms.flatMap (·.labels.keys)).Nodup
  mem : ∀ l ∈ ms.flatMap (·.labels.keys), ∃ i, k ≤ i ∧ i < k' ∧ l ∈ numbered i

theorem LabelsMethods.append {k' k'' : Nat} {ms ms' : List CodeMethod} (h : LabelsMethods k ms k')
    (h' : LabelsMethods k' ms' k'') : LabelsMethods k (ms ++ ms') k'' where
  le := Nat.le_trans h.le h'.le
  sound m hm := (List.mem_append.1 hm).elim (h.sound m) (h'.sound m)
  nodup := by
    rw [List.flatMap_append]
    exact nodup_append_numbered h.mem h'.mem h.nodup h'.nodup
  mem := by
    rw [List.flatMap_append]
    exact exists_numbered_append h.mem h'.mem h.le h'.le

theorem from_lowerMethod (n : Node) : From k (t.lowerMethod n) fun m k' => LabelsMethods k [m] k' := by
  unfold lowerMethod
  refine .known n.undoubled_name fun name _ => .known (t.undoubled_method name) fun info _ => ?_
  refine (from_reserve _).bind fun _ k₁ hk => ?_
  subst hk
  refine (from_lowerSequence fun n _ k => from_lowerStatement n k).bind fun code k' hcode => ?_
  -- the empty method has no labels, so that all of the lowered sequence can be added to it
  generalize hempty : (⟨name, info.returnType, info.params, info.isStatic, info.isPublic, [], {}, {}, []⟩ : CodeMethod) =
    empty
  have hnone : empty.HasLabels [] ∧ empty.code = [] := by
    subst hempty
    exact ⟨⟨rfl, List.nodup_nil, by simp⟩, rfl⟩
  obtain ⟨m₁, hextend, -⟩ := hnone.1.extend code (by simpa using hcode.nodup)
  refine .known (hextend ▸ undoubled_ok m₁) fun m₂ hm₂ => .lift (CodeMethod.undoubled_finish m₂) fun m hm => ?_
  obtain ⟨hsound, hkeys⟩ := CodeMethod.labelsSound_of_finish hcode hnone.1 hnone.2 hm₂ hm
  refine ⟨hcode.le, by simpa using hsound, by simpa [hkeys] using hcode.nodup, fun l hl => hcode.mem l ?_⟩
  simpa [hkeys] using hl

theorem from_lowerMethods (ns : List Node) : From k (ns.mapM t.lowerMethod) (LabelsMethods k) := by
  induction ns generalizing k with
  | nil => exact .pure ⟨Nat.le_refl k, by simp, by simp, by simp⟩
  | cons n ns ih =>
    rw [List.mapM_cons]
    exact (t.from_lowerMethod n).bind fun m k₁ hm => ih.bind fun ms k₂ hms => .pure (hm.append hms)

theorem from_lowerProgram (root : Node) :
    From k (t.lowerProgram root) fun p k' => LabelsMethods k p.methods k' := by
  refine .known root.undoubled_classDecl fun c _ => (from_reserve _).bind fun _ k₁ hk => ?_
  subst hk
  exact (t.from_lowerMethods _).bind fun ms k' hms => .pure hms

/-- The labels of a generated program, and why generation does not fail. -/
theorem labels_generate (root : Node) :
    (∀ l, t.generate root ≠ .error (.duplicateLabel l)) ∧
      ∀ p, t.generate root = .ok p → ∃ k, LabelsMethods 0 p.methods k := by
  have h := t.from_lowerProgram root (k := 0) {} rfl
  unfold generate
  cases hrun : (t.lowerProgram root).run {} with
  | error e =>
    rw [hrun] at h
    refine ⟨fun l heq => h l (Except.error.inj heq), fun p heq => ?_⟩
    cases heq
  | ok r =>
    rw [hrun] at h
    refine ⟨fun l heq => ?_, fun p heq => ⟨r.2.nextLabel, ?_⟩⟩
    · cases heq
    · obtain rfl : r.1 = p := Except.ok.inj heq
      exact h

end SymbolTable
end JmmCompiler

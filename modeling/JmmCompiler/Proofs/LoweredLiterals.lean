import JmmCompiler.Proofs.Assigned
import JmmCompiler.Proofs.Makers
import JmmCompiler.Proofs.Simplifying
import JmmCompiler.Proofs.WrittenLines
/-! The integers in code. Those that lowering brings into the code of a tree are the literals of the tree, the truth values,
and the lengths and indices of array literals. -/
namespace JmmCompiler

/-- What a node may bring into code: the integer of a literal, and for nodes of some kinds the numbers up to that of their
children. -/
structure Node.Brings (N : Int → Prop) (kinds : List Kind) (n : Node) : Prop where
  literal : ∀ i, n.constant? = .ok (some (.int i)) → N i
  length : n.kind ∈ kinds → ∀ k : Nat, k ≤ n.children.length → N k

/-- A set of integers with the truth values. -/
structure HasTruth (N : Int → Prop) : Prop where
  zero : N 0
  one : N 1

/-- Elements with integers of a set only. -/
def Element.Within (N : Int → Prop) (e : Element) : Prop := ∀ k ∈ e.literals, N k

/-- Instructions with integers of a set only. -/
def Within (N : Int → Prop) (is : List Instruction) : Prop := ∀ i ∈ is, ∀ k ∈ i.literals, N k

/-- A lowered expression with integers of a set only. -/
structure Lowered.Within (N : Int → Prop) (v : Lowered) : Prop where
  computation : JmmCompiler.Within N v.computation
  code : v.code.Within N

variable {N : Int → Prop} {is js : List Instruction} {i : Instruction}

theorem within_nil : Within N [] := by simp [Within]

theorem Within.append (h : Within N is) (h' : Within N js) : Within N (is ++ js) := List.forall_mem_append.2 ⟨h, h'⟩

theorem Within.snoc (h : Within N is) (hi : ∀ k ∈ i.literals, N k) : Within N (is ++ [i]) :=
  h.append (List.forall_mem_singleton.2 hi)

theorem within_jumps (h : ∀ i ∈ is, (∃ label, i = .goto label) ∨ ∃ label, i = .label label) : Within N is := by
  intro i hi
  rcases h i hi with ⟨label, rfl⟩ | ⟨label, rfl⟩ <;> exact List.forall_mem_nil _

theorem within_var (name : String) (type : Ty) : (Element.var name type).Within N := List.forall_mem_nil _

theorem within_binary {op : String} {l r : Element} {type : Ty} (hl : l.Within N) (hr : r.Within N) :
    ∀ k ∈ (Instruction.binary op l r type).literals, N k := List.forall_mem_append.2 ⟨hl, hr⟩

theorem within_assign {value : Instruction} (name : String) (type : Ty) (h : ∀ k ∈ value.literals, N k) :
    ∀ k ∈ (Instruction.assign (.var name type) value).literals, N k := h

theorem within_store {e index : Element} (array : String) (type : Ty) (hindex : index.Within N) (he : e.Within N) :
    ∀ k ∈ (Instruction.assign (.item array type index) (.single e)).literals, N k :=
  List.forall_mem_append.2 ⟨hindex, he⟩

namespace SymbolTable
variable {t : SymbolTable} {method name : String} {before : List Instruction} {n receiver : Node} {type : Ty}
open Lower

/-! ## Expressions -/

theorem yields_within_intoTemp {value : Instruction} (hbefore : Within N before) (hvalue : ∀ k ∈ value.literals, N k) :
    Yields (intoTemp before type value) (Lowered.Within N) :=
  .last fun temp => .pure ⟨hbefore.snoc (within_assign temp type hvalue), within_var temp type⟩

theorem yields_within_lowerVariable (name : String) : Yields (t.lowerVariable method name) (Lowered.Within N) := by
  intro ns v ns' hrun
  cases leaves_reading name ns v ns' hrun with
  | binding hs => exact ⟨within_nil, within_var _ _⟩
  | field hbinding hf hv => exact (yields_within_intoTemp within_nil (List.forall_mem_nil _)).of_run hv
  | imported hbinding hfield himported => exact ⟨within_nil, List.forall_mem_nil _⟩

theorem yields_within_lengthOf {array : Lowered} (h : array.Within N) : Yields (lengthOf array) (Lowered.Within N) :=
  yields_within_intoTemp h.computation (by simpa [Instruction.literals, Element.Within] using h.code)

theorem yields_within_lowerNewArray (element : String) {size : Lowered} (h : size.Within N) :
    Yields (lowerNewArray element size) (Lowered.Within N) :=
  yields_within_intoTemp h.computation (by simpa [Instruction.literals, Element.literals, Element.Within] using h.code)

variable (t method N) in
/-- What is known of an expression: its code has integers of the set only. -/
def ValueWithin (n : Node) : Prop := ∀ expected, Yields (t.lower method expected n) (Lowered.Within N)

theorem yields_within_lowerElements {elements : List Node} (h : ∀ e ∈ elements, t.ValueWithin N method e)
    (array : String) (element : Ty) (index : Nat) (hindex : ∀ k : Nat, k < index + elements.length → N k) :
    Yields (t.lowerElements method array element index elements) (Within N) := by
  induction elements generalizing index with
  | nil => exact .pure within_nil
  | cons e es ih =>
    obtain ⟨he, hes⟩ := List.forall_mem_cons.1 h
    rw [List.length_cons] at hindex
    rw [lowerElements]
    refine (he _).bind fun v hv => (ih hes _ fun k hk => hindex k (by omega)).bind fun rest hrest => .pure ?_
    have hplace : (Element.literal index .int).Within N := List.forall_mem_singleton.2 (hindex index (by omega))
    exact (hv.computation.snoc (within_store array element hplace hv.code)).append hrest

theorem yields_within_lowerArguments {args : List Node} (h : ∀ e ∈ args, t.ValueWithin N method e) (params : List Ty) :
    Yields (t.lowerArguments method params args) fun r => Within N r.1 ∧ ∀ a ∈ r.2, a.Within N := by
  induction args generalizing params with
  | nil => exact .pure ⟨within_nil, by simp⟩
  | cons e es ih =>
    obtain ⟨he, hes⟩ := List.forall_mem_cons.1 h
    rw [lowerArguments]
    refine (he _).bind fun v hv => (ih hes _).bind fun rest hrest => .pure ?_
    exact ⟨hv.computation.append hrest.1, List.forall_mem_cons.2 ⟨hv.code, hrest.2⟩⟩

/-- The target of a call: a class has no integers. -/
theorem Targeting.within {own : Bool} {invocation : Invocation} {target : Lowered} {ns ns' : Names}
    (h : t.Targeting method own name receiver ns invocation target ns') (hreceiver : t.ValueWithin N method receiver) :
    target.Within N := by
  cases h with
  | object hother hclass hobject => exact (hreceiver none).of_run hobject
  | _ => exact ⟨within_nil, List.forall_mem_nil _⟩

/-- A call behind what computes its operands. -/
theorem Calling.within {call : Instruction} {v : Lowered} {ns ns' : Names} (h : Calling before call type ns v ns')
    (hbefore : Within N before) (hcall : ∀ k ∈ call.literals, N k) : v.Within N := by
  cases h with
  | discarded hvoid => exact ⟨hbefore.snoc hcall, List.forall_mem_nil _⟩
  | kept hvoid hvalue => exact (yields_within_intoTemp hbefore hcall).of_run hvalue

/-- The code of `&&`, which brings in the truth value of what does not hold. -/
theorem within_and (hN : HasTruth N) {l r : Lowered} (hl : l.Within N) (hr : r.Within N) (temp number : String) :
    Lowered.Within N ⟨.var temp .boolean, l.computation ++
      [.branch (.unary "!" l.code .boolean) ("and_false_" ++ number)] ++ r.computation ++
      [.assign (.var temp .boolean) (.single r.code), .goto ("and_end_" ++ number), .label ("and_false_" ++ number),
        .assign (.var temp .boolean) (.single (.literal 0 .boolean)), .label ("and_end_" ++ number)]⟩ := by
  have hjump : ∀ k ∈ (Instruction.branch (.unary "!" l.code .boolean) ("and_false_" ++ number)).literals, N k := hl.code
  refine ⟨((hl.computation.snoc hjump).append hr.computation).append fun i hi => ?_, List.forall_mem_nil _⟩
  simp only [List.mem_cons, List.not_mem_nil, or_false] at hi
  rcases hi with rfl | rfl | rfl | rfl | rfl
  · exact hr.code
  · exact List.forall_mem_nil _
  · exact List.forall_mem_nil _
  · exact List.forall_mem_singleton.2 hN.zero
  · exact List.forall_mem_nil _

/-- A declaration of a method is no expression. -/
theorem valueWithin_methodDecl (hkind : n.kind = .methodDecl) : t.ValueWithin N method n := by
  exact fun _ _ => leaves_lower_methodDecl hkind

/-- The code of an expression has the integers only that its nodes bring into it. -/
theorem valueWithin (hN : HasTruth N) (h : n.Everywhere (Node.Brings N [.arrayLiteral])) : t.ValueWithin N method n := by
  induction n using Node.induction_children with
  | step n ih =>
    have hbelow (c : Node) (hc : c ∈ n.children) : t.ValueWithin N method c := by
      by_cases hkind : c.kind = .methodDecl
      · exact valueWithin_methodDecl hkind
      · exact ih c hc (h.child hc hkind)
    intro expected ns v ns' hrun
    cases leaves_lowering expected n ns v ns' hrun with
    | intLiteral hkind hvalue hi =>
      refine ⟨within_nil, List.forall_mem_singleton.2 (h.here.literal _ ?_)⟩
      simp [Node.constant?, hkind, hvalue, hi, ok_bind]
    | boolLiteral hkind hvalue =>
      refine ⟨within_nil, List.forall_mem_singleton.2 ?_⟩
      split
      · exact hN.one
      · exact hN.zero
    | thisRef hkind => exact ⟨within_nil, List.forall_mem_nil _⟩
    | varRef hkind hname hv => exact (yields_within_lowerVariable _).of_run hv
    | paren hkind hchildren hv => exact (hbelow _ (by simp [hchildren]) expected).of_run hv
    | and hkind hop hchildren hlabel hl hr htemp =>
      have hl := (hbelow _ (by simp [hchildren]) _).of_run hl
      have hr := (hbelow _ (by simp [hchildren]) _).of_run hr
      exact within_and hN hl hr _ _
    | binary hkind hop hand ho hchildren hl hr hv =>
      have hl := (hbelow _ (by simp [hchildren]) _).of_run hl
      have hr := (hbelow _ (by simp [hchildren]) _).of_run hr
      refine (yields_within_intoTemp (hl.computation.append hr.computation) ?_).of_run hv
      exact within_binary hl.code hr.code
    | unary hkind hop hchildren hu hv =>
      have hu := (hbelow _ (by simp [hchildren]) _).of_run hu
      refine (yields_within_intoTemp hu.computation ?_).of_run hv
      exact hu.code
    | newObject hkind hname htemp =>
      refine ⟨fun i hi => ?_, List.forall_mem_nil _⟩
      simp only [List.mem_cons, List.not_mem_nil, or_false] at hi
      rcases hi with rfl | rfl <;> exact List.forall_mem_nil _
    | newArray hkind hname hchildren hu hv =>
      have hu := (hbelow _ (by simp [hchildren]) _).of_run hu
      exact (yields_within_lowerNewArray _ hu).of_run hv
    | arrayLiteral hkind htype harray hname hstores =>
      have hlength : ∀ k : Nat, k ≤ n.children.length → N k := h.here.length (by simp [hkind])
      have hsize : Lowered.Within N ⟨.literal n.children.length .int, []⟩ :=
        ⟨within_nil, List.forall_mem_singleton.2 (hlength _ (Nat.le_refl _))⟩
      have harray := (yields_within_lowerNewArray _ hsize).of_run harray
      have hindices (k : Nat) (hk : k < 0 + n.children.length) : N k := hlength k (by omega)
      have hstores := (yields_within_lowerElements hbelow _ _ 0 hindices).of_run hstores
      exact ⟨harray.computation.append hstores, harray.code⟩
    | arrayAccess hkind hchildren ha hi htype hname hv =>
      have ha := (hbelow _ (by simp [hchildren]) _).of_run ha
      have hi := (hbelow _ (by simp [hchildren]) _).of_run hi
      refine (yields_within_intoTemp (ha.computation.append hi.computation) ?_).of_run hv
      exact hi.code
    | length hkind hchildren ha hv =>
      exact (yields_within_lengthOf ((hbelow _ (by simp [hchildren]) _).of_run ha)).of_run hv
    | lengthCall hkind hname hchildren hown htype harray ha hv =>
      exact (yields_within_lengthOf ((hbelow _ (by simp [hchildren]) _).of_run ha)).of_run hv
    | call hkind hname hname? hchildren hown hlength htarget hsignature hargs hv =>
      have htarget := htarget.within (hbelow _ (by simp [hchildren]))
      have hargs := (yields_within_lowerArguments (fun e he => hbelow e (by simp [hchildren, he])) _).of_run hargs
      refine hv.within (htarget.computation.append hargs.1) (List.forall_mem_append.2 ⟨htarget.code, fun k hk => ?_⟩)
      obtain ⟨a, ha, hk⟩ := List.mem_flatMap.1 hk
      exact hargs.2 a ha k hk

/-- The same of the expressions below. -/
theorem valueWithin_child (hN : HasTruth N) (h : n.Everywhere (Node.Brings N [.arrayLiteral])) {c : Node}
    (hc : c ∈ n.children) : t.ValueWithin N method c := by
  by_cases hkind : c.kind = .methodDecl
  · exact valueWithin_methodDecl hkind
  · exact valueWithin hN (h.child hc hkind)

/-! ## Statements -/

theorem yields_within_lowerStore {array index value : Node} (harray : t.ValueWithin N method array)
    (hindex : t.ValueWithin N method index) (hvalue : t.ValueWithin N method value) :
    Yields (t.lowerStore method array index value) (Within N) := by
  intro ns is ns' hrun
  cases leaves_storing array index value ns is ns' hrun with
  | @intro a i v type name _ _ _ ha hi htype hv hname =>
    have ha := (harray _).of_run ha
    have hi := (hindex _).of_run hi
    have hv := (hvalue _).of_run hv
    exact ((ha.computation.append hi.computation).append hv.computation).snoc (within_store name type.base hi.code hv.code)

theorem within_literalElement (hN : HasTruth N) {literal : Element} (h : literalElement? n = .ok (some literal))
    (hn : n.Brings N [.arrayLiteral]) : literal.Within N := by
  unfold literalElement? at h
  split at h
  · rename_i hkind
    simp only [bind_eq_ok] at h
    obtain ⟨value, hvalue, h⟩ := h
    split at h
    · rename_i i hi
      obtain rfl := Option.some.inj (Except.ok.inj h)
      refine List.forall_mem_singleton.2 (hn.literal i ?_)
      simp [Node.constant?, hkind, hvalue, hi, ok_bind]
    · cases h
  · simp only [bind_eq_ok, pure_eq_ok, Option.some.injEq] at h
    obtain ⟨value, -, rfl⟩ := h
    refine List.forall_mem_singleton.2 ?_
    split
    · exact hN.one
    · exact hN.zero
  · cases h

/-- The integers of an update are those of its right operand. -/
theorem within_selfUpdate (hN : HasTruth N) {value : Node} (hvalue : value.Everywhere (Node.Brings N [.arrayLiteral]))
    {update : Instruction} (h : selfUpdate? name type value = .ok (some update)) : ∀ k ∈ update.literals, N k := by
  obtain ⟨op, literal, right, hright, hliteral, rfl⟩ := exists_literal_of_selfUpdate h
  have hkind : right.kind ≠ .methodDecl := by
    intro hkind
    simp [literalElement?, hkind, pure_eq_ok] at hliteral
  exact within_binary (within_var name type) (within_literalElement hN hliteral (hvalue.child hright hkind).here)

theorem yields_within_lowerAssign {value : Node} (name : String) (hvalue : t.ValueWithin N method value)
    (hupdate : ∀ type update, selfUpdate? name type value = .ok (some update) → ∀ k ∈ update.literals, N k) :
    Yields (t.lowerAssign method name value) (Within N) := by
  intro ns is ns' hrun
  cases leaves_assigning name value ns is ns' hrun with
  | update hs hself => exact List.forall_mem_singleton.2 (within_assign _ _ (hupdate _ _ hself))
  | binding hs hself hv =>
    have hv := (hvalue _).of_run hv
    exact hv.computation.snoc hv.code
  | field hbinding hf hv =>
    have hv := (hvalue _).of_run hv
    exact hv.computation.snoc hv.code

theorem yields_within_lowerBranch {condition : Node} (hvalue : t.ValueWithin N method condition)
    (hchild : ∀ c ∈ condition.children, t.ValueWithin N method c) (label : String) :
    Yields (t.lowerBranch method condition label) (Within N) := by
  intro ns is ns' hrun
  have hpart {i : Nat} {c : Node} (hc : condition.child i = .ok c) : t.ValueWithin N method c :=
    hchild c (List.mem_of_getElem? (getElem?_of_child hc))
  cases leaves_testing condition label ns is ns' hrun with
  | comparison hkind hop hcompares hleft hright hl hr =>
    have hl := (hpart hleft _).of_run hl
    have hr := (hpart hright _).of_run hr
    exact (hl.computation.append hr.computation).snoc (List.forall_mem_append.2 ⟨hl.code, hr.code⟩)
  | negation hkind hop hoperand hv =>
    have hv := (hpart hoperand _).of_run hv
    exact hv.computation.snoc hv.code
  | value hbinary hunary hv =>
    have hv := (hvalue _).of_run hv
    exact hv.computation.snoc hv.code

theorem yields_within_lowerSequence {returnType : Ty} {ns : List Node}
    (h : ∀ n ∈ ns, Yields (t.lowerStatement method returnType n) (Within N)) :
    Yields (t.lowerSequence method returnType ns) (Within N) := by
  induction ns with
  | nil => exact .pure within_nil
  | cons n ns ih =>
    obtain ⟨hn, hns⟩ := List.forall_mem_cons.1 h
    rw [lowerSequence]
    exact hn.bind fun first hfirst => (ih hns).bind fun rest hrest => .pure (hfirst.append hrest)

/-- The code of a statement has the integers only that its nodes bring into it. -/
theorem yields_within_lowerStatement (hN : HasTruth N) (returnType : Ty) (h : n.Everywhere (Node.Brings N [.arrayLiteral])) :
    Yields (t.lowerStatement method returnType n) (Within N) := by
  induction n using Node.induction_children with
  | step n ih =>
    have hvalue (c : Node) (hc : c ∈ n.children) : t.ValueWithin N method c := valueWithin_child hN h hc
    have hcode (c : Node) (hc : c ∈ n.children) : Yields (t.lowerStatement method returnType c) (Within N) := by
      by_cases hkind : c.kind = .methodDecl
      · exact fun _ => leaves_lowerStatement_methodDecl hkind
      · exact ih c hc (h.child hc hkind)
    have htested (c : Node) (hc : c ∈ n.children) (label : String) : Yields (t.lowerBranch method c label) (Within N) := by
      by_cases hkind : c.kind = .methodDecl
      · rw [lowerBranch_value t method (by simp [hkind]) (by simp [hkind])]
        exact (valueWithin_methodDecl hkind _).bind fun v hv => .pure (hv.computation.snoc hv.code)
      · exact yields_within_lowerBranch (hvalue c hc) (fun d hd => valueWithin_child hN (h.child hc hkind) hd) label
    intro ns is ns' hrun
    cases leaves_loweringCode returnType n ns is ns' hrun with
    | block hkind his => exact (yields_within_lowerSequence hcode).of_run his
    | exprStmt hkind hchildren hv => exact ((hvalue _ (by simp [hchildren]) _).of_run hv).computation
    | @assignElement target _ _ _ _ _ hkind hchildren htarget harray hindex his =>
      have hpart {i : Nat} {c : Node} (hc : target.child i = .ok c) : t.ValueWithin N method c :=
        valueWithin_child hN (h.child (by simp [hchildren]) (by simp [htarget])) (List.mem_of_getElem? (getElem?_of_child hc))
      exact (yields_within_lowerStore (hpart harray) (hpart hindex) (hvalue _ (by simp [hchildren]))).of_run his
    | @assign _ value name _ _ hkind hchildren htarget hname his =>
      have hmem : value ∈ n.children := by simp [hchildren]
      refine (yields_within_lowerAssign name (hvalue value hmem) fun type update hupdate => ?_).of_run his
      refine within_selfUpdate hN (h.child hmem fun hkind => ?_) hupdate
      simp [selfUpdate?, hkind, pure_eq_ok] at hupdate
    | arrayAssign hkind hchildren his =>
      exact (yields_within_lowerStore (hvalue _ (by simp [hchildren])) (hvalue _ (by simp [hchildren]))
        (hvalue _ (by simp [hchildren]))).of_run his
    | returnNothing hkind hchildren => exact List.forall_mem_singleton.2 (List.forall_mem_nil _)
    | returnValue hkind hchildren hv =>
      have hv := (hvalue _ (by simp [hchildren]) _).of_run hv
      exact hv.computation.snoc hv.code
    | ifElse hkind hchildren hlabel htest hfirst hsecond =>
      have htest := (htested _ (by simp [hchildren]) _).of_run htest
      have hfirst := (hcode _ (by simp [hchildren])).of_run hfirst
      have hsecond := (hcode _ (by simp [hchildren])).of_run hsecond
      exact ((((htest.append (within_jumps (by simp))).append hfirst).append (within_jumps (by simp))).append
        hsecond).append (within_jumps (by simp))
    | ifThen hkind hchildren hrest hlabel htest hsecond =>
      have htest := (htested _ (by simp [hchildren]) _).of_run htest
      have hsecond := (hcode _ (by simp [hchildren])).of_run hsecond
      exact ((htest.append (within_jumps (by simp))).append hsecond).append (within_jumps (by simp))
    | whileLoop hkind hchildren hlabel hfirst htest =>
      have hfirst := (hcode _ (by simp [hchildren])).of_run hfirst
      have htest := (htested _ (by simp [hchildren]) _).of_run htest
      exact ((((within_jumps (by simp)).append hfirst).append (within_jumps (by simp))).append htest).append
        (within_jumps (by simp))

end SymbolTable
end JmmCompiler

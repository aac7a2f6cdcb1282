import JmmCompiler.Proofs.Makers
import JmmCompiler.Proofs.WrittenLines
/-! Code that keeps to some names. What is lowered from expressions and statements that are apart from `this` accesses no
field, and names no variables but those of its method, temporaries and imported classes that are taken for arrays. -/
namespace JmmCompiler

namespace Instruction

/-- An instruction that accesses no field, mentions variables of a set only, and stores into a variable or an array. -/
structure KeepsTo (G : Set String) (i : Instruction) : Prop where
  accesses : i.accessesField = false
  mentioned : ∀ x ∈ i.mentioned, x ∈ G
  dest : ∀ dest ∈ i.dest?, ∀ x, dest.name = .ok x → x ∈ dest.mentioned

variable {G : Set String}

theorem KeepsTo.of_other {i : Instruction} (haccesses : i.accessesField = false) (hdest : i.dest? = none)
    (h : ∀ x ∈ i.mentioned, x ∈ G) : i.KeepsTo G :=
  ⟨haccesses, h, by simp [hdest]⟩

theorem KeepsTo.single {e : Element} (h : ∀ x ∈ e.mentioned, x ∈ G) : (single e).KeepsTo G := .of_other rfl rfl h

theorem KeepsTo.assign_var {value : Instruction} (h : value.KeepsTo G) {x : String} (hx : x ∈ G) (type : Ty) :
    (assign (.var x type) value).KeepsTo G where
  accesses := h.accesses
  mentioned := List.forall_mem_cons.2 ⟨hx, h.mentioned⟩
  dest := by
    rintro _ ⟨⟩ y hy
    exact List.mem_singleton.2 (Except.ok.inj hy).symm

theorem KeepsTo.store {e index : Element} (he : ∀ x ∈ e.mentioned, x ∈ G) (hindex : ∀ x ∈ index.mentioned, x ∈ G)
    {array : String} (harray : array ∈ G) (type : Ty) : (assign (.item array type index) (.single e)).KeepsTo G where
  accesses := rfl
  mentioned := List.forall_mem_append.2 ⟨List.forall_mem_cons.2 ⟨harray, hindex⟩, he⟩
  dest := by
    rintro _ ⟨⟩ y hy
    rw [← Except.ok.inj hy]
    exact List.mem_cons_self

end Instruction

/-- A lowered expression that keeps to a set of names, with the name of its value. -/
structure Lowered.KeepsTo (G : Set String) (v : Lowered) : Prop where
  computation : ∀ i ∈ v.computation, i.KeepsTo G
  mentioned : ∀ x ∈ v.code.mentioned, x ∈ G
  name : ∀ x, v.code.name = .ok x → x ∈ G

namespace Lower
variable {α β : Type} {G : Set String} {x : Lower α} {f : α → Lower β} {P : α → Prop} {Q : β → Prop}

/-- Where the temporaries to come are in a set of names, results are of a kind, and so are the temporaries after it. -/
def YieldsIn (G : Set String) (x : Lower α) (P : α → Prop) : Prop :=
  ∀ ns : Names, (∀ y, ns.Fresh y → y ∈ G) → Leaves ns x fun a ns' => P a ∧ ∀ y, ns'.Fresh y → y ∈ G

theorem YieldsIn.pure {a : α} (h : P a) : YieldsIn G (Pure.pure a) P := fun _ hns => .pure ⟨h, hns⟩

theorem YieldsIn.of_run {ns ns' : Names} {a : α} (h : YieldsIn G x P) (hns : ∀ y, ns.Fresh y → y ∈ G)
    (hrun : x.run ns = .ok (a, ns')) : P a ∧ ∀ y, ns'.Fresh y → y ∈ G := h ns hns a ns' hrun

theorem YieldsIn.throw (e : Failure) : YieldsIn G (throw e) P := fun _ _ => .throw e

theorem YieldsIn.bind (hx : YieldsIn G x P) (hf : ∀ a, P a → YieldsIn G (f a) Q) : YieldsIn G (x >>= f) Q :=
  fun ns hns => (hx ns hns).bind fun a ns' ha => hf a ha.1 ns' ha.2

theorem YieldsIn.known {y : Except Failure α} (h : ∀ a, y = .ok a → YieldsIn G (f a) Q) : YieldsIn G (liftM y >>= f) Q :=
  fun ns hns => .known fun a ha => h a ha ns hns

theorem yieldsIn_temp : YieldsIn G temp (· ∈ G) := fun _ hns =>
  leaves_temp.imp fun x _ ⟨hlater, hfresh, _⟩ => ⟨hns x hfresh, fun y hy => hns y (hlater.fresh hy)⟩

theorem yieldsIn_label : YieldsIn G label fun _ => True := fun _ hns =>
  leaves_label.imp fun _ _ hlater => ⟨trivial, fun y hy => hns y (hlater.fresh hy)⟩

end Lower

/-- The kinds of what stands where a variable is assigned or read: a variable, or the constant that it has become. -/
def Node.IsPlace (kind : Kind) : Prop := kind = .varRef ∨ kind = .intLiteral ∨ kind = .boolLiteral

namespace SymbolTable
variable {t : SymbolTable} {method : String} {G : Set String} {before : List Instruction} {n : Node}
open Lower

/-- A node of a method that is not `this` and does not name a field. What assignments assign to is named by a node. -/
structure ApartFromThis (t : SymbolTable) (method : String) (n : Node) : Prop where
  this : n.kind ≠ .thisRef
  place : Node.IsPlace n.kind → ∀ name, n.name = .ok name →
    (t.binding? (some method) name).isSome = true ∨ t.field? name = none
  target : n.kind = .assign → ∀ c ∈ n.children.head?, Node.IsPlace c.kind

/-- A set of names with the variables of a method and the imported classes. -/
structure Covers (t : SymbolTable) (method : String) (G : Set String) : Prop where
  bindings : ∀ x, (t.binding? (some method) x).isSome = true → x ∈ G
  imports : ∀ x, t.isImported x = true → x ∈ G

/-! ## Expressions -/

theorem yieldsIn_intoTemp {type : Ty} {value : Instruction} (hbefore : ∀ i ∈ before, i.KeepsTo G) (hvalue : value.KeepsTo G) :
    YieldsIn G (intoTemp before type value) (Lowered.KeepsTo G) := by
  refine yieldsIn_temp.bind fun temp htemp => .pure ⟨?_, by simpa [Element.mentioned] using htemp, fun x hx => ?_⟩
  · exact List.forall_mem_append.2 ⟨hbefore, List.forall_mem_singleton.2 (hvalue.assign_var htemp type)⟩
  · exact Except.ok.inj hx ▸ htemp

/-- A literal takes no variables. -/
theorem keepsTo_literal (value : Int) (type : Ty) : Lowered.KeepsTo G ⟨.literal value type, []⟩ :=
  ⟨by simp, by simp [Element.mentioned], fun x hx => by cases hx⟩

theorem yieldsIn_lowerVariable (hG : t.Covers method G) {name : String}
    (hname : (t.binding? (some method) name).isSome = true ∨ t.field? name = none) :
    YieldsIn G (t.lowerVariable method name) (Lowered.KeepsTo G) := by
  intro ns hns v ns' hrun
  cases leaves_reading name ns v ns' hrun with
  | binding hs =>
    have hmem := hG.bindings name (by simp [hs])
    exact ⟨⟨by simp, by simpa [Element.mentioned] using hmem, fun x hx => Except.ok.inj hx ▸ hmem⟩, hns⟩
  | field hbinding hf hv => simp [hbinding, hf] at hname
  | imported hbinding hfield himported =>
    exact ⟨⟨by simp, by simp [Element.mentioned], fun x hx => Except.ok.inj hx ▸ hG.imports name himported⟩, hns⟩

theorem yieldsIn_lengthOf {array : Lowered} (h : array.KeepsTo G) : YieldsIn G (lengthOf array) (Lowered.KeepsTo G) :=
  yieldsIn_intoTemp h.computation (.of_other rfl rfl (by simpa [Instruction.mentioned] using h.mentioned))

theorem yieldsIn_lowerNewArray (element : String) {size : Lowered} (h : size.KeepsTo G) :
    YieldsIn G (lowerNewArray element size) (Lowered.KeepsTo G) :=
  yieldsIn_intoTemp h.computation
    (.of_other rfl rfl (by simpa [Instruction.mentioned, Element.mentioned] using h.mentioned))

variable (t method G) in
/-- What is known of a lowered expression. -/
def KeepsValue (n : Node) : Prop := ∀ expected, YieldsIn G (t.lower method expected n) (Lowered.KeepsTo G)

theorem yieldsIn_lowerElements {array : String} {elements : List Node} (h : ∀ e ∈ elements, t.KeepsValue method G e)
    (harray : array ∈ G) (element : Ty) (index : Nat) :
    YieldsIn G (t.lowerElements method array element index elements) fun is => ∀ i ∈ is, i.KeepsTo G := by
  induction elements generalizing index with
  | nil => exact .pure (by simp)
  | cons e es ih =>
    obtain ⟨he, hes⟩ := List.forall_mem_cons.1 h
    rw [lowerElements]
    refine (he _).bind fun v hv => (ih hes _).bind fun rest hrest => .pure ?_
    have hindex : ∀ x ∈ (Element.literal index .int).mentioned, x ∈ G := by simp [Element.mentioned]
    have hstore := Instruction.KeepsTo.store hv.mentioned hindex harray
    simpa only [List.forall_mem_append, List.forall_mem_singleton] using ⟨⟨hv.computation, hstore element⟩, hrest⟩

theorem yieldsIn_lowerArguments {args : List Node} (h : ∀ e ∈ args, t.KeepsValue method G e) (params : List Ty) :
    YieldsIn G (t.lowerArguments method params args) fun r =>
      (∀ i ∈ r.1, i.KeepsTo G) ∧ ∀ a ∈ r.2, ∀ x ∈ a.mentioned, x ∈ G := by
  induction args generalizing params with
  | nil => exact .pure ⟨by simp, by simp⟩
  | cons e es ih =>
    obtain ⟨he, hes⟩ := List.forall_mem_cons.1 h
    rw [lowerArguments]
    refine (he _).bind fun v hv => (ih hes _).bind fun rest hrest => .pure ⟨?_, ?_⟩
    · exact List.forall_mem_append.2 ⟨hv.computation, hrest.1⟩
    · exact List.forall_mem_cons.2 ⟨hv.mentioned, hrest.2⟩

/-- The target of a call: a class takes no variables. -/
theorem Targeting.keepsTo {own : Bool} {name : String} {receiver : Node} {invocation : Invocation} {target : Lowered}
    {ns ns' : Names} (h : t.Targeting method own name receiver ns invocation target ns')
    (hreceiver : t.KeepsValue method G receiver) (hns : ∀ y, ns.Fresh y → y ∈ G) :
    ((∀ i ∈ target.computation, i.KeepsTo G) ∧ ∀ x ∈ target.code.mentioned, x ∈ G) ∧ ∀ y, ns'.Fresh y → y ∈ G := by
  cases h with
  | object hother hclass hobject =>
    obtain ⟨hobject, hns'⟩ := (hreceiver none).of_run hns hobject
    exact ⟨⟨hobject.computation, hobject.mentioned⟩, hns'⟩
  | _ => exact ⟨⟨by simp, by simp [Element.mentioned]⟩, hns⟩

/-- A call behind what computes its operands. -/
theorem Calling.keepsTo {call : Instruction} {type : Ty} {v : Lowered} {ns ns' : Names} (h : Calling before call type ns v ns')
    (hbefore : ∀ i ∈ before, i.KeepsTo G) (hcall : call.KeepsTo G) (hns : ∀ y, ns.Fresh y → y ∈ G) :
    v.KeepsTo G ∧ ∀ y, ns'.Fresh y → y ∈ G := by
  cases h with
  | discarded hvoid =>
    refine ⟨⟨List.forall_mem_append.2 ⟨hbefore, List.forall_mem_singleton.2 hcall⟩, ?_, fun x hx => by cases hx⟩, hns⟩
    simp [Element.mentioned]
  | kept hvoid hvalue => exact (yieldsIn_intoTemp hbefore hcall).of_run hns hvalue

/-- The code of `&&`. -/
theorem keepsTo_and {l r : Lowered} {temp : String} (hl : l.KeepsTo G) (hr : r.KeepsTo G) (htemp : temp ∈ G) (number : String) :
    Lowered.KeepsTo G ⟨.var temp .boolean, l.computation ++
      [.branch (.unary "!" l.code .boolean) ("and_false_" ++ number)] ++ r.computation ++
      [.assign (.var temp .boolean) (.single r.code), .goto ("and_end_" ++ number), .label ("and_false_" ++ number),
        .assign (.var temp .boolean) (.single (.literal 0 .boolean)), .label ("and_end_" ++ number)]⟩ := by
  have hbranch : (Instruction.branch (.unary "!" l.code .boolean) ("and_false_" ++ number)).KeepsTo G :=
    .of_other rfl rfl hl.mentioned
  have hvalue : (Instruction.assign (.var temp .boolean) (.single r.code)).KeepsTo G :=
    .assign_var (.single hr.mentioned) htemp _
  have hfalse : (Instruction.assign (.var temp .boolean) (.single (.literal 0 .boolean))).KeepsTo G :=
    .assign_var (.single (by simp [Element.mentioned])) htemp _
  have hmark (i : Instruction) (haccesses : i.accessesField = false) (hdest : i.dest? = none) (hnone : i.mentioned = []) :
      i.KeepsTo G := .of_other haccesses hdest (by simp [hnone])
  refine ⟨?_, by simpa [Element.mentioned] using htemp, fun x hx => Except.ok.inj hx ▸ htemp⟩
  simp only [List.forall_mem_append, List.forall_mem_cons, List.not_mem_nil, false_imp_iff, implies_true, and_true]
  exact ⟨⟨⟨hl.computation, hbranch⟩, hr.computation⟩, hvalue, hmark _ rfl rfl rfl, hmark _ rfl rfl rfl, hfalse,
    hmark _ rfl rfl rfl⟩

/-- A declaration of a method is no expression. -/
theorem keepsValue_methodDecl (hkind : n.kind = .methodDecl) : t.KeepsValue method G n := by
  exact fun _ _ _ => leaves_lower_methodDecl hkind

/-- The code of an expression that is apart from `this` keeps to the names that it is given. -/
theorem keepsValue (hG : t.Covers method G) (h : n.Everywhere (t.ApartFromThis method)) : t.KeepsValue method G n := by
  induction n using Node.induction_children with
  | step n ih =>
    have hbelow (c : Node) (hc : c ∈ n.children) : t.KeepsValue method G c := by
      by_cases hkind : c.kind = .methodDecl
      · exact keepsValue_methodDecl hkind
      · exact ih c hc (h.child hc hkind)
    intro expected ns hns v ns' hrun
    cases leaves_lowering expected n ns v ns' hrun with
    | intLiteral | boolLiteral => exact ⟨keepsTo_literal _ _, hns⟩
    | thisRef hkind => exact absurd hkind h.here.this
    | varRef hkind hname hv => exact (yieldsIn_lowerVariable hG (h.here.place (.inl hkind) _ hname)).of_run hns hv
    | paren hkind hchildren hv => exact (hbelow _ (by simp [hchildren]) expected).of_run hns hv
    | and hkind hop hchildren hlabel hl hr htemp =>
      obtain ⟨-, hns₁⟩ := yieldsIn_label.of_run hns hlabel
      obtain ⟨hl, hns₂⟩ := (hbelow _ (by simp [hchildren]) _).of_run hns₁ hl
      obtain ⟨hr, hns₃⟩ := (hbelow _ (by simp [hchildren]) _).of_run hns₂ hr
      obtain ⟨htemp, hns'⟩ := yieldsIn_temp.of_run hns₃ htemp
      exact ⟨keepsTo_and hl hr htemp _, hns'⟩
    | binary hkind hop hand ho hchildren hl hr hv =>
      obtain ⟨hl, hns₁⟩ := (hbelow _ (by simp [hchildren]) _).of_run hns hl
      obtain ⟨hr, hns₂⟩ := (hbelow _ (by simp [hchildren]) _).of_run hns₁ hr
      refine (yieldsIn_intoTemp (List.forall_mem_append.2 ⟨hl.computation, hr.computation⟩) ?_).of_run hns₂ hv
      exact .of_other rfl rfl (List.forall_mem_append.2 ⟨hl.mentioned, hr.mentioned⟩)
    | unary hkind hop hchildren hu hv =>
      obtain ⟨hu, hns₁⟩ := (hbelow _ (by simp [hchildren]) _).of_run hns hu
      refine (yieldsIn_intoTemp hu.computation ?_).of_run hns₁ hv
      exact .of_other rfl rfl hu.mentioned
    | newObject hkind hname htemp =>
      obtain ⟨htemp, hns'⟩ := yieldsIn_temp.of_run hns htemp
      refine ⟨⟨?_, ?_, fun x hx => Except.ok.inj hx ▸ htemp⟩, hns'⟩
      · refine List.forall_mem_cons.2 ⟨.assign_var (.of_other rfl rfl ?_) htemp _,
          List.forall_mem_singleton.2 (.of_other rfl rfl ?_)⟩
        · simp [Instruction.mentioned, Element.mentioned]
        · simpa [Instruction.mentioned, Element.mentioned] using htemp
      · simpa [Element.mentioned] using htemp
    | newArray hkind hname hchildren hu hv =>
      obtain ⟨hu, hns₁⟩ := (hbelow _ (by simp [hchildren]) _).of_run hns hu
      exact (yieldsIn_lowerNewArray _ hu).of_run hns₁ hv
    | arrayLiteral hkind htype harray hname hstores =>
      obtain ⟨harray, hns₁⟩ := (yieldsIn_lowerNewArray _ (keepsTo_literal _ _)).of_run hns harray
      obtain ⟨hstores, hns'⟩ := (yieldsIn_lowerElements hbelow (harray.name _ hname) _ _).of_run hns₁ hstores
      exact ⟨⟨List.forall_mem_append.2 ⟨harray.computation, hstores⟩, harray.mentioned, harray.name⟩, hns'⟩
    | arrayAccess hkind hchildren ha hi htype hname hv =>
      obtain ⟨ha, hns₁⟩ := (hbelow _ (by simp [hchildren]) _).of_run hns ha
      obtain ⟨hi, hns₂⟩ := (hbelow _ (by simp [hchildren]) _).of_run hns₁ hi
      refine (yieldsIn_intoTemp (List.forall_mem_append.2 ⟨ha.computation, hi.computation⟩) ?_).of_run hns₂ hv
      exact .of_other rfl rfl (List.forall_mem_cons.2 ⟨ha.name _ hname, hi.mentioned⟩)
    | length hkind hchildren ha hv =>
      obtain ⟨ha, hns₁⟩ := (hbelow _ (by simp [hchildren]) _).of_run hns ha
      exact (yieldsIn_lengthOf ha).of_run hns₁ hv
    | lengthCall hkind hname hchildren hown htype harray ha hv =>
      obtain ⟨ha, hns₁⟩ := (hbelow _ (by simp [hchildren]) _).of_run hns ha
      exact (yieldsIn_lengthOf ha).of_run hns₁ hv
    | call hkind hname hname? hchildren hown hlength htarget hsignature hargs hv =>
      obtain ⟨⟨htarget, hcode⟩, hns₁⟩ := htarget.keepsTo (hbelow _ (by simp [hchildren])) hns
      obtain ⟨⟨hbefore, hcodes⟩, hns₂⟩ :=
        (yieldsIn_lowerArguments (fun e he => hbelow e (by simp [hchildren, he])) _).of_run hns₁ hargs
      refine hv.keepsTo (List.forall_mem_append.2 ⟨htarget, hbefore⟩) (.of_other rfl rfl ?_) hns₂
      refine List.forall_mem_append.2 ⟨hcode, fun x hx => ?_⟩
      obtain ⟨a, ha, hx⟩ := List.mem_flatMap.1 hx
      exact hcodes a ha x hx

/-- The same of the expressions below. -/
theorem keepsValue_child (hG : t.Covers method G) (h : n.Everywhere (t.ApartFromThis method)) {c : Node}
    (hc : c ∈ n.children) : t.KeepsValue method G c := by
  by_cases hkind : c.kind = .methodDecl
  · exact keepsValue_methodDecl hkind
  · exact keepsValue hG (h.child hc hkind)

/-! ## Statements -/

variable (G) in
/-- Instructions that keep to a set of names. -/
def KeepTo (is : List Instruction) : Prop := ∀ i ∈ is, i.KeepsTo G

theorem KeepTo.append {is js : List Instruction} (h : KeepTo G is) (h' : KeepTo G js) : KeepTo G (is ++ js) :=
  List.forall_mem_append.2 ⟨h, h'⟩

theorem keepTo_jumps {is : List Instruction} (h : ∀ i ∈ is, (∃ label, i = .goto label) ∨ ∃ label, i = .label label) :
    KeepTo G is := by
  intro i hi
  rcases h i hi with ⟨label, rfl⟩ | ⟨label, rfl⟩
  · exact .of_other rfl rfl (by simp [Instruction.mentioned])
  · exact .of_other rfl rfl (by simp [Instruction.mentioned])

theorem yieldsIn_lowerStore {array index value : Node} (harray : t.KeepsValue method G array)
    (hindex : t.KeepsValue method G index) (hvalue : t.KeepsValue method G value) :
    YieldsIn G (t.lowerStore method array index value) (KeepTo G) := by
  intro ns hns is ns' hrun
  cases leaves_storing array index value ns is ns' hrun with
  | intro ha hi htype hv hname =>
    obtain ⟨ha, hns₁⟩ := (harray _).of_run hns ha
    obtain ⟨hi, hns₂⟩ := (hindex _).of_run hns₁ hi
    obtain ⟨hv, hns'⟩ := (hvalue _).of_run hns₂ hv
    refine ⟨.append (.append (.append ha.computation hi.computation) hv.computation) ?_, hns'⟩
    exact List.forall_mem_singleton.2 (.store hv.mentioned hi.mentioned (ha.name _ hname) _)

theorem yieldsIn_lowerAssign (hG : t.Covers method G) {name : String} {value : Node}
    (hname : (t.binding? (some method) name).isSome = true ∨ t.field? name = none) (hvalue : t.KeepsValue method G value) :
    YieldsIn G (t.lowerAssign method name value) (KeepTo G) := by
  intro ns hns is ns' hrun
  cases leaves_assigning name value ns is ns' hrun with
  | update hs hupdate =>
    have hmem := hG.bindings name (by simp [hs])
    obtain ⟨op, literal, rfl, hliteral⟩ := eq_of_selfUpdate hupdate
    have hnone : literal.mentioned = [] := by
      cases literal with
      | var x type => simp [Element.names] at hliteral
      | item array type index => simp [Element.names, map_eq_ok] at hliteral
      | _ => rfl
    refine ⟨List.forall_mem_singleton.2 (.assign_var (.of_other rfl rfl ?_) hmem _), hns⟩
    simpa [Instruction.mentioned, Element.mentioned, hnone] using hmem
  | binding hs hupdate hv =>
    have hmem := hG.bindings name (by simp [hs])
    obtain ⟨hv, hns'⟩ := (hvalue _).of_run hns hv
    exact ⟨.append hv.computation (List.forall_mem_singleton.2 (.assign_var (.single hv.mentioned) hmem _)), hns'⟩
  | field hbinding hf hv => simp [hbinding, hf] at hname

theorem yieldsIn_lowerBranch {condition : Node} (hvalue : t.KeepsValue method G condition)
    (hchild : ∀ c ∈ condition.children, t.KeepsValue method G c) (label : String) :
    YieldsIn G (t.lowerBranch method condition label) (KeepTo G) := by
  intro ns hns is ns' hrun
  have hpart {i : Nat} {c : Node} (hc : condition.child i = .ok c) : t.KeepsValue method G c :=
    hchild c (List.mem_of_getElem? (getElem?_of_child hc))
  cases leaves_testing condition label ns is ns' hrun with
  | comparison hkind hop hcompares hleft hright hl hr =>
    obtain ⟨hl, hns₁⟩ := (hpart hleft _).of_run hns hl
    obtain ⟨hr, hns'⟩ := (hpart hright _).of_run hns₁ hr
    refine ⟨.append (.append hl.computation hr.computation) (List.forall_mem_singleton.2 (.of_other rfl rfl ?_)), hns'⟩
    exact List.forall_mem_append.2 ⟨hl.mentioned, hr.mentioned⟩
  | negation hkind hop hoperand hv =>
    obtain ⟨hv, hns'⟩ := (hpart hoperand _).of_run hns hv
    exact ⟨.append hv.computation (List.forall_mem_singleton.2 (.of_other rfl rfl hv.mentioned)), hns'⟩
  | value hbinary hunary hv =>
    obtain ⟨hv, hns'⟩ := (hvalue _).of_run hns hv
    exact ⟨.append hv.computation (List.forall_mem_singleton.2 (.of_other rfl rfl hv.mentioned)), hns'⟩

theorem yieldsIn_lowerSequence {returnType : Ty} {ns : List Node}
    (h : ∀ n ∈ ns, YieldsIn G (t.lowerStatement method returnType n) (KeepTo G)) :
    YieldsIn G (t.lowerSequence method returnType ns) (KeepTo G) := by
  induction ns with
  | nil => exact .pure (by simp [KeepTo])
  | cons n ns ih =>
    obtain ⟨hn, hns⟩ := List.forall_mem_cons.1 h
    rw [lowerSequence]
    exact hn.bind fun first hfirst => (ih hns).bind fun rest hrest => .pure (hfirst.append hrest)

/-- The code of a statement that is apart from `this` keeps to the names that it is given. -/
theorem yieldsIn_lowerStatement (hG : t.Covers method G) (returnType : Ty) (h : n.Everywhere (t.ApartFromThis method)) :
    YieldsIn G (t.lowerStatement method returnType n) (KeepTo G) := by
  induction n using Node.induction_children with
  | step n ih =>
    have hvalue (c : Node) (hc : c ∈ n.children) : t.KeepsValue method G c := keepsValue_child hG h hc
    have hcode (c : Node) (hc : c ∈ n.children) : YieldsIn G (t.lowerStatement method returnType c) (KeepTo G) := by
      by_cases hkind : c.kind = .methodDecl
      · exact fun _ _ => leaves_lowerStatement_methodDecl hkind
      · exact ih c hc (h.child hc hkind)
    have htested (c : Node) (hc : c ∈ n.children) (label : String) : YieldsIn G (t.lowerBranch method c label) (KeepTo G) := by
      by_cases hkind : c.kind = .methodDecl
      · rw [lowerBranch_value t method (by simp [hkind]) (by simp [hkind])]
        refine (keepsValue_methodDecl hkind _).bind fun v hv => .pure (KeepTo.append hv.computation ?_)
        exact List.forall_mem_singleton.2 (.of_other rfl rfl hv.mentioned)
      · exact yieldsIn_lowerBranch (hvalue c hc) (fun d hd => keepsValue_child hG (h.child hc hkind) hd) label
    intro ns hns is ns' hrun
    cases leaves_loweringCode returnType n ns is ns' hrun with
    | block hkind his => exact (yieldsIn_lowerSequence hcode).of_run hns his
    | exprStmt hkind hchildren hv =>
      obtain ⟨hv, hns'⟩ := (hvalue _ (by simp [hchildren]) _).of_run hns hv
      exact ⟨hv.computation, hns'⟩
    | @assignElement target _ _ _ _ _ hkind hchildren htarget harray hindex his =>
      have hplace := h.here.target hkind target (by rw [hchildren]; rfl)
      rcases hplace with hplace | hplace | hplace <;> simp [hplace] at htarget
    | @assign target _ name _ _ hkind hchildren htarget hname his =>
      have hplace := h.here.target hkind target (by rw [hchildren]; rfl)
      have hnested : target.kind ≠ .methodDecl := by rcases hplace with hplace | hplace | hplace <;> simp [hplace]
      have hnamed := (h.child (by simp [hchildren]) hnested).here.place hplace name hname
      exact (yieldsIn_lowerAssign hG hnamed (hvalue _ (by simp [hchildren]))).of_run hns his
    | arrayAssign hkind hchildren his =>
      exact (yieldsIn_lowerStore (hvalue _ (by simp [hchildren])) (hvalue _ (by simp [hchildren]))
        (hvalue _ (by simp [hchildren]))).of_run hns his
    | returnNothing hkind hchildren =>
      refine ⟨List.forall_mem_singleton.2 (.of_other rfl rfl ?_), hns⟩
      simp [Instruction.mentioned, Element.mentioned]
    | returnValue hkind hchildren hv =>
      obtain ⟨hv, hns'⟩ := (hvalue _ (by simp [hchildren]) _).of_run hns hv
      exact ⟨.append hv.computation (List.forall_mem_singleton.2 (.of_other rfl rfl hv.mentioned)), hns'⟩
    | ifElse hkind hchildren hlabel htest hfirst hsecond =>
      obtain ⟨-, hns₁⟩ := yieldsIn_label.of_run hns hlabel
      obtain ⟨htest, hns₂⟩ := (htested _ (by simp [hchildren]) _).of_run hns₁ htest
      obtain ⟨hfirst, hns₃⟩ := (hcode _ (by simp [hchildren])).of_run hns₂ hfirst
      obtain ⟨hsecond, hns'⟩ := (hcode _ (by simp [hchildren])).of_run hns₃ hsecond
      exact ⟨((((htest.append (keepTo_jumps (by simp))).append hfirst).append (keepTo_jumps (by simp))).append
        hsecond).append (keepTo_jumps (by simp)), hns'⟩
    | ifThen hkind hchildren hrest hlabel htest hsecond =>
      obtain ⟨-, hns₁⟩ := yieldsIn_label.of_run hns hlabel
      obtain ⟨htest, hns₂⟩ := (htested _ (by simp [hchildren]) _).of_run hns₁ htest
      obtain ⟨hsecond, hns'⟩ := (hcode _ (by simp [hchildren])).of_run hns₂ hsecond
      exact ⟨((htest.append (keepTo_jumps (by simp))).append hsecond).append (keepTo_jumps (by simp)), hns'⟩
    | whileLoop hkind hchildren hlabel hfirst htest =>
      obtain ⟨-, hns₁⟩ := yieldsIn_label.of_run hns hlabel
      obtain ⟨hfirst, hns₂⟩ := (hcode _ (by simp [hchildren])).of_run hns₁ hfirst
      obtain ⟨htest, hns'⟩ := (htested _ (by simp [hchildren]) _).of_run hns₂ htest
      exact ⟨((((keepTo_jumps (by simp)).append hfirst).append (keepTo_jumps (by simp))).append htest).append
        (keepTo_jumps (by simp)), hns'⟩

end SymbolTable
end JmmCompiler

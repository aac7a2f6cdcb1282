import JmmCompiler.Lowering.Statement
import JmmCompiler.Proofs.Freshness
import JmmCompiler.Proofs.LoweringForms
/-! What a lowering that succeeds has done, whatever the tree looks like. Each form of expression and of statement is one
case, with the lowerings of its parts and the names that they start from. -/
namespace JmmCompiler

/-! ## Names during a lowering -/

namespace Lower
variable {α β : Type} {ns : Names} {x : Lower α} {f : α → Lower β} {P : α → Names → Prop} {Q : β → Names → Prop}

/-- From the names that it starts with, a lowering gives what is asked for, if it gives anything. -/
def Leaves (ns : Names) (x : Lower α) (P : α → Names → Prop) : Prop := ∀ a ns', x.run ns = .ok (a, ns') → P a ns'

theorem Leaves.pure {a : α} (h : P a ns) : Leaves ns (Pure.pure a) P := by
  intro b ns' hrun
  obtain ⟨rfl, rfl⟩ := lower_pure_eq_ok.1 hrun
  exact h

/-- What a lowering that went leaves. -/
theorem Leaves.of_run {ns' : Names} {a : α} (h : Leaves ns x P) (hrun : x.run ns = .ok (a, ns')) : P a ns' :=
  h a ns' hrun

theorem Leaves.throw (e : Failure) : Leaves ns (throw e) P := fun _ _ hrun => absurd hrun lower_throw_ne_ok

theorem Leaves.bind (hx : Leaves ns x P) (hf : ∀ a ns', P a ns' → Leaves ns' (f a) Q) : Leaves ns (x >>= f) Q := by
  intro b ns' hrun
  obtain ⟨a, ns₁, hfirst, hrest⟩ := lower_bind_eq_ok.1 hrun
  exact hf a ns₁ (hx a ns₁ hfirst) b ns' hrest

theorem Leaves.known {y : Except Failure α} (h : ∀ a, y = .ok a → Leaves ns (f a) Q) : Leaves ns (liftM y >>= f) Q := by
  intro b ns' hrun
  obtain ⟨a, ns₁, hfirst, hrest⟩ := lower_bind_eq_ok.1 hrun
  obtain ⟨hy, rfl⟩ := lower_lift_eq_ok.1 hfirst
  exact h a hy b ns' hrest

/-- What follows a lowering, knowing how it went. -/
theorem Leaves.after (h : ∀ a ns', x.run ns = .ok (a, ns') → Leaves ns' (f a) Q) : Leaves ns (x >>= f) Q := by
  intro b ns' hrun
  obtain ⟨a, ns₁, hfirst, hrest⟩ := lower_bind_eq_ok.1 hrun
  exact h a ns₁ hfirst b ns' hrest

/-- What follows when a question is answered that is asked in some cases only. -/
theorem Leaves.flag {y : Except Failure α} {asks : Prop} [Decidable asks] {answer : α → Bool} {rest : Bool → Lower β}
    (htrue : asks → ∀ a, y = .ok a → answer a = true → Leaves ns (rest true) Q)
    (hfalse : (asks → ∃ a, y = .ok a ∧ answer a = false) → Leaves ns (rest false) Q) :
    Leaves ns (if asks then do
        let a ← y
        let b ← Pure.pure (answer a)
        rest b
      else do
        let b ← Pure.pure false
        rest b) Q := by
  split
  · refine .known fun a ha => ?_
    rw [pure_bind]
    cases hanswer : answer a with
    | true => exact htrue ‹_› a ha hanswer
    | false => exact hfalse fun _ => ⟨a, ha, hanswer⟩
  · exact hfalse fun hasks => absurd hasks ‹_›

theorem Leaves.imp {P' : α → Names → Prop} (hx : Leaves ns x P) (h : ∀ a ns', P a ns' → P' a ns') : Leaves ns x P' :=
  fun a ns' hrun => h a ns' (hx a ns' hrun)

theorem leaves_temp : Leaves ns temp fun x ns' => ns.Later ns' ∧ ns.Fresh x ∧ ¬ns'.Fresh x :=
  fun _ _ hrun => Names.temp_spec hrun

theorem leaves_label : Leaves ns label fun _ ns' => ns.Later ns' := fun _ _ hrun => Names.label_later hrun

end Lower

namespace SymbolTable
variable (t : SymbolTable) (method : String)
open Lower

/-! ## Expressions -/

/-- The class or the object that a call goes to. -/
inductive Targeting (own : Bool) (name : String) (receiver : Node) (ns : Names) : Invocation → Lowered → Names → Prop
  | own (hstatic : (own && t.isStatic name) = true) :
      Targeting own name receiver ns .static ⟨.classRef t.className t.classType, []⟩ ns
  | imported {className : String} (hother : (own && t.isStatic name) = false)
      (hclass : t.isClassReceiver method receiver = .ok true) (hname : receiver.name = .ok className) :
      Targeting own name receiver ns .static ⟨.classRef className ⟨className, false⟩, []⟩ ns
  | object {object : Lowered} {ns' : Names} (hother : (own && t.isStatic name) = false)
      (hclass : t.isClassReceiver method receiver = .ok false)
      (hobject : (t.lower method none receiver).run ns = .ok (object, ns')) :
      Targeting own name receiver ns .virtual object ns'

/-- A call behind what computes its operands. Its value goes into a temporary, if it has one. -/
inductive Calling (before : List Instruction) (call : Instruction) (type : Ty) (ns : Names) : Lowered → Names → Prop
  | discarded (hvoid : type = .void) : Calling before call type ns ⟨.absent, before ++ [call]⟩ ns
  | kept {value : Lowered} {ns' : Names} (hvoid : type ≠ .void)
      (hvalue : (intoTemp before type call).run ns = .ok (value, ns')) : Calling before call type ns value ns'

/-- How the name of a variable was lowered: it stands for itself, for a field of the object or for an imported class. -/
inductive Reading (name : String) (ns : Names) : Lowered → Names → Prop
  | binding {s : Symbol} (hs : t.binding? (some method) name = some s) : Reading name ns ⟨.var name s.type, []⟩ ns
  | field {f : Symbol} {v : Lowered} {ns' : Names} (hbinding : t.binding? (some method) name = none)
      (hf : t.field? name = some f)
      (hv : (intoTemp [] f.type (.getField t.thisElement (.var name f.type))).run ns = .ok (v, ns')) : Reading name ns v ns'
  | imported (hbinding : t.binding? (some method) name = none) (hfield : t.field? name = none)
      (himported : t.isImported name = true) : Reading name ns ⟨.classRef name ⟨name, false⟩, []⟩ ns

/-- How an expression was lowered. -/
inductive Lowering (expected : Option Ty) (n : Node) (ns : Names) : Lowered → Names → Prop
  | intLiteral {value : Attribute} {i : Int} (hkind : n.kind = .intLiteral) (hvalue : n.required "value" = .ok value)
      (hi : value.toInt? = some i) : Lowering expected n ns ⟨.literal i .int, []⟩ ns
  | boolLiteral {value : Attribute} (hkind : n.kind = .boolLiteral) (hvalue : n.required "value" = .ok value) :
      Lowering expected n ns ⟨.literal (if value.isSet then 1 else 0) .boolean, []⟩ ns
  | thisRef (hkind : n.kind = .thisRef) : Lowering expected n ns ⟨t.thisElement, []⟩ ns
  | varRef {name : String} {v : Lowered} {ns' : Names} (hkind : n.kind = .varRef) (hname : n.name = .ok name)
      (hv : (t.lowerVariable method name).run ns = .ok (v, ns')) : Lowering expected n ns v ns'
  | paren {inner : Node} {rest : List Node} {v : Lowered} {ns' : Names} (hkind : n.kind = .paren)
      (hchildren : n.children = inner :: rest) (hv : (t.lower method expected inner).run ns = .ok (v, ns')) :
      Lowering expected n ns v ns'
  | and {left right : Node} {rest : List Node} {number : Nat} {l r : Lowered} {temp : String} {ns₁ ns₂ ns₃ ns' : Names}
      (hkind : n.kind = .binary) (hop : n.op = .ok "&&") (hchildren : n.children = left :: right :: rest)
      (hlabel : label.run ns = .ok (number, ns₁)) (hl : (t.lower method (some .boolean) left).run ns₁ = .ok (l, ns₂))
      (hr : (t.lower method (some .boolean) right).run ns₂ = .ok (r, ns₃)) (htemp : Lower.temp.run ns₃ = .ok (temp, ns')) :
      Lowering expected n ns ⟨.var temp .boolean, l.computation ++
        [.branch (.unary "!" l.code .boolean) ("and_false_" ++ toString number)] ++ r.computation ++
        [.assign (.var temp .boolean) (.single r.code), .goto ("and_end_" ++ toString number),
          .label ("and_false_" ++ toString number), .assign (.var temp .boolean) (.single (.literal 0 .boolean)),
          .label ("and_end_" ++ toString number)]⟩ ns'
  | binary {op : String} {o : Operator} {left right : Node} {rest : List Node} {wanted wanted' : Ty} {l r v : Lowered}
      {ns₁ ns₂ ns' : Names} (hkind : n.kind = .binary) (hop : n.op = .ok op) (hand : op ≠ "&&")
      (ho : Operator.ofSymbol? op = some o) (hchildren : n.children = left :: right :: rest)
      (hl : (t.lower method (some wanted) left).run ns = .ok (l, ns₁))
      (hr : (t.lower method (some wanted') right).run ns₁ = .ok (r, ns₂))
      (hv : (intoTemp (l.computation ++ r.computation) o.resultType (.binary op l.code r.code o.resultType)).run ns₂ =
        .ok (v, ns')) : Lowering expected n ns v ns'
  | unary {op : String} {operand : Node} {rest : List Node} {u v : Lowered} {ns₁ ns' : Names} (hkind : n.kind = .unary)
      (hop : n.op = .ok op) (hchildren : n.children = operand :: rest)
      (hu : (t.lower method (some .boolean) operand).run ns = .ok (u, ns₁))
      (hv : (intoTemp u.computation .boolean (.unary op u.code .boolean)).run ns₁ = .ok (v, ns')) :
      Lowering expected n ns v ns'
  | newObject {name temp : String} {ns' : Names} (hkind : n.kind = .newObject) (hname : n.text "name" = .ok name)
      (htemp : Lower.temp.run ns = .ok (temp, ns')) :
      Lowering expected n ns ⟨.var temp ⟨name, false⟩,
        [.assign (.var temp ⟨name, false⟩) (.call .new (.classRef name ⟨name, false⟩) none [] ⟨name, false⟩),
          .call .special (.var temp ⟨name, false⟩) (some "<init>") [] .void]⟩ ns'
  | newArray {name : String} {size : Node} {rest : List Node} {u v : Lowered} {ns₁ ns' : Names} (hkind : n.kind = .newArray)
      (hname : n.name = .ok name) (hchildren : n.children = size :: rest)
      (hu : (t.lower method (some .int) size).run ns = .ok (u, ns₁))
      (hv : (lowerNewArray name u).run ns₁ = .ok (v, ns')) : Lowering expected n ns v ns'
  | arrayLiteral {type : Ty} {array : Lowered} {name : String} {stores : List Instruction} {ns₁ ns' : Names}
      (hkind : n.kind = .arrayLiteral) (htype : t.typeOf (some method) n = .ok type)
      (harray : (lowerNewArray type.base.name ⟨.literal n.children.length .int, []⟩).run ns = .ok (array, ns₁))
      (hname : array.code.name = .ok name)
      (hstores : (t.lowerElements method name type.base 0 n.children).run ns₁ = .ok (stores, ns')) :
      Lowering expected n ns ⟨array.code, array.computation ++ stores⟩ ns'
  | arrayAccess {array index : Node} {rest : List Node} {a i v : Lowered} {type : Ty} {name : String} {ns₁ ns₂ ns' : Names}
      (hkind : n.kind = .arrayAccess) (hchildren : n.children = array :: index :: rest)
      (ha : (t.lower method (some (elementWanted expected).arrayOf) array).run ns = .ok (a, ns₁))
      (hi : (t.lower method (some .int) index).run ns₁ = .ok (i, ns₂)) (htype : a.code.type = .ok type)
      (hname : a.code.name = .ok name)
      (hv : (intoTemp (a.computation ++ i.computation) type.base (.single (.item name type.base i.code))).run ns₂ =
        .ok (v, ns')) : Lowering expected n ns v ns'
  | length {array : Node} {rest : List Node} {a v : Lowered} {ns₁ ns' : Names} (hkind : n.kind = .length)
      (hchildren : n.children = array :: rest) (ha : (t.lower method (some .intArray) array).run ns = .ok (a, ns₁))
      (hv : (lengthOf a).run ns₁ = .ok (v, ns')) : Lowering expected n ns v ns'
  | lengthCall {receiver : Node} {type : Ty} {a v : Lowered} {ns₁ ns' : Names} (hkind : n.kind = .call)
      (hname : n.name = .ok "length") (hchildren : n.children = [receiver])
      (hown : t.isOwnCall (some method) "length" receiver = .ok false) (htype : t.typeOf (some method) receiver = .ok type)
      (harray : type.isArray = true) (ha : (t.lower method (some .intArray) receiver).run ns = .ok (a, ns₁))
      (hv : (lengthOf a).run ns₁ = .ok (v, ns')) : Lowering expected n ns v ns'
  | call {name : String} {name? : Option String} {receiver : Node} {args : List Node} {own : Bool} {invocation : Invocation}
      {target : Lowered} {type : Ty} {params : List Ty} {before : List Instruction} {codes : List Element} {v : Lowered}
      {ns₁ ns₂ ns' : Names} (hkind : n.kind = .call) (hname : n.name = .ok name) (hname? : n.name? = .ok name?)
      (hchildren : n.children = receiver :: args) (hown : t.isOwnCall (some method) name receiver = .ok own)
      (hlength : own = false → name = "length" → args = [] →
        ∃ type, t.typeOf (some method) receiver = .ok type ∧ type.isArray = false)
      (htarget : t.Targeting method own name receiver ns invocation target ns₁)
      (hsignature : t.callSignature expected own name = .ok (type, params))
      (hargs : (t.lowerArguments method params args).run ns₁ = .ok ((before, codes), ns₂))
      (hv : Calling (target.computation ++ before) (.call invocation target.code name? codes type) type ns₂ v ns') :
      Lowering expected n ns v ns'

variable {t method} {expected : Option Ty}

theorem leaves_reading (name : String) (ns : Names) :
    Leaves ns (t.lowerVariable method name) (t.Reading method name ns) := by
  unfold lowerVariable
  split
  · exact .pure (.binding ‹_›)
  · split
    · exact fun v ns' hv => .field ‹_› ‹_› hv
    · split
      · exact .pure (.imported ‹_› ‹_› ‹_›)
      · exact .throw _

/-- What follows when the target of a call is lowered. -/
theorem leaves_callTarget {P : Lowered → Names → Prop} {rest : Invocation × Lowered → Lower Lowered} {own : Bool}
    {name : String} {receiver : Node} {ns : Names}
    (h : ∀ invocation target ns', t.Targeting method own name receiver ns invocation target ns' →
      Leaves ns' (rest (invocation, target)) P) :
    Leaves ns (if (own && t.isStatic name) = true then do
        let target ← pure (.static, ⟨.classRef t.className t.classType, []⟩)
        rest target
      else do
        if ← t.isClassReceiver method receiver then do
          let imported ← receiver.name
          let target ← pure (.static, ⟨.classRef imported ⟨imported, false⟩, []⟩)
          rest target
        else do
          let value ← t.lower method none receiver
          let target ← pure (.virtual, value)
          rest target) P := by
  split
  · exact h _ _ _ (.own ‹_›)
  · rename_i hother
    rw [Bool.not_eq_true] at hother
    refine .known fun isClass hclass => ?_
    cases isClass with
    | true => exact .known fun className hname => h _ _ _ (.imported hother hclass hname)
    | false => exact .after fun object ns' hobject => h _ _ _ (.object hother hclass hobject)

/-- What follows when the signature of a call is known. -/
theorem leaves_callSignature {P : Lowered → Names → Prop} {rest : Ty × List Ty → Lower Lowered} {own : Bool}
    {name : String} {ns : Names}
    (h : ∀ signature, t.callSignature expected own name = .ok signature → Leaves ns (rest signature) P) :
    Leaves ns (if own = true then do
        let m ← t.method name
        let signature ← pure (m.returnType, m.params.map (·.type))
        rest signature
      else do
        let signature ← pure ((expected.filter (· ≠ .any)).getD .int, [])
        rest signature) P := by
  unfold callSignature at h
  cases own with
  | true => exact .known fun m hm => h _ (by rw [if_pos rfl, hm]; rfl)
  | false => exact h _ rfl

theorem leaves_calling {name? : Option String} {invocation : Invocation}
    {target : Lowered} {before : List Instruction} {codes : List Element} {type : Ty} {ns : Names} :
    Leaves ns (if type = .void then
        return ⟨.absent, target.computation ++ before ++ [.call invocation target.code name? codes type]⟩
      else intoTemp (target.computation ++ before) type (.call invocation target.code name? codes type))
      (Calling (target.computation ++ before) (.call invocation target.code name? codes type) type ns) := by
  split
  · exact .pure (.discarded ‹_›)
  · exact fun v ns' hv => .kept ‹_› hv

/-- A call of a method of the class has the type that the method returns, and another call the type that is asked of it. -/
theorem callSignature_cases {own : Bool} {name : String} {type : Ty} {params : List Ty}
    (h : t.callSignature expected own name = .ok (type, params)) :
    (own = true ∧ ∃ m, t.method name = .ok m ∧ type = m.returnType) ∨
      own = false ∧ type = (expected.filter (· ≠ .any)).getD .int := by
  unfold callSignature at h
  cases own with
  | true =>
    simp only [if_true, bind_eq_ok, pure_eq_ok, Prod.mk.injEq] at h
    obtain ⟨m, hm, rfl, -⟩ := h
    exact .inl ⟨rfl, m, hm, rfl⟩
  | false => exact .inr ⟨rfl, (Prod.mk.inj (Except.ok.inj h)).1.symm⟩

/-- A lowering that succeeds went as one of the cases says. -/
theorem leaves_lowering (expected : Option Ty) (n : Node) (ns : Names) :
    Leaves ns (t.lower method expected n) (t.Lowering method expected n ns) := by
  obtain ⟨kind, attributes, children, position⟩ := n
  unfold lower
  cases kind with
  | intLiteral =>
    refine .known fun value hvalue => ?_
    split
    · exact .pure (.intLiteral rfl hvalue ‹_›)
    · exact .throw _
  | boolLiteral => exact .known fun value hvalue => .pure (.boolLiteral rfl hvalue)
  | thisRef => exact .pure (.thisRef rfl)
  | varRef => exact .known fun name hname v ns' hv => .varRef rfl hname hv
  | paren =>
    rcases children with _ | ⟨inner, rest⟩
    · exact .throw _
    · exact fun v ns' hv => .paren rfl rfl hv
  | binary =>
    refine .known fun op hop => ?_
    by_cases hand : op = "&&"
    · subst hand
      rw [if_pos rfl]
      refine .after fun number ns₁ hlabel => ?_
      rcases children with _ | ⟨left, _ | ⟨right, rest⟩⟩
      · exact .throw _
      · exact .after fun _ _ _ => .throw _
      · refine .after fun l ns₂ hl => .after fun r ns₃ hr => .after fun temp ns' htemp => .pure ?_
        exact .and rfl hop rfl hlabel hl hr htemp
    rw [if_neg hand]
    cases ho : Operator.ofSymbol? op with
    | none => exact .after fun _ _ h => absurd h lower_throw_ne_ok
    | some o =>
      dsimp only
      rw [pure_bind]
      rcases children with _ | ⟨left, _ | ⟨right, rest⟩⟩
      · exact .throw _
      · exact .throw _
      · refine .known fun wanted _ => .after fun l ns₁ hl => .known fun wanted' _ => .after fun r ns₂ hr v ns' hv => ?_
        exact .binary rfl hop hand ho rfl hl hr hv
  | unary =>
    rcases children with _ | ⟨operand, rest⟩
    · exact .throw _
    · exact .after fun u ns₁ hu => .known fun op hop v ns' hv => .unary rfl hop rfl hu hv
  | newObject => exact .known fun name hname => .after fun temp ns' htemp => .pure (.newObject rfl hname htemp)
  | newArray =>
    rcases children with _ | ⟨size, rest⟩
    · exact .throw _
    · exact .after fun u ns₁ hu => .known fun name hname v ns' hv => .newArray rfl hname rfl hu hv
  | arrayLiteral =>
    refine .known fun type htype => .after fun array ns₁ harray => .known fun name hname => ?_
    exact .after fun stores ns' hstores => .pure (.arrayLiteral rfl htype harray hname hstores)
  | arrayAccess =>
    rcases children with _ | ⟨array, _ | ⟨index, rest⟩⟩
    · exact .throw _
    · exact .after fun _ _ _ => .throw _
    · refine .after fun a ns₁ ha => .after fun i ns₂ hi => .known fun type htype => .known fun name hname v ns' hv => ?_
      exact .arrayAccess rfl rfl ha hi htype hname hv
  | length =>
    rcases children with _ | ⟨array, rest⟩
    · exact .throw _
    · exact .after fun a ns₁ ha v ns' hv => .length rfl rfl ha hv
  | call =>
    refine .known fun name hname => ?_
    rcases children with _ | ⟨receiver, args⟩
    · exact .throw _
    refine .known fun own hown => ?_
    refine .flag (fun hasks type htype harray => ?_) fun hlength => ?_
    · simp only [Bool.and_eq_true, Bool.not_eq_true', decide_eq_true_eq, List.isEmpty_iff] at hasks
      obtain ⟨⟨rfl, rfl⟩, rfl⟩ := hasks
      exact .after fun a ns₁ ha v ns' hv => .lengthCall rfl hname rfl hown htype harray ha hv
    · have hlength (hother : own = false) (heq : name = "length") (hnone : args = []) :=
        hlength (by simp [hother, heq, hnone])
      rw [if_neg Bool.false_ne_true]
      refine leaves_callTarget fun invocation target ns₁ htarget => leaves_callSignature fun signature hsignature => ?_
      refine .after fun (before, codes) ns₂ hargs => .known fun name? hname? => ?_
      exact leaves_calling.imp fun v ns' hv => .call rfl hname hname? rfl hown hlength htarget hsignature hargs hv
  | _ => exact .throw _

/-- A declaration of a method is no expression. -/
theorem leaves_lower_methodDecl {n : Node} {ns : Names} {P : Lowered → Names → Prop} (hkind : n.kind = .methodDecl) :
    Leaves ns (t.lower method expected n) P := by
  obtain ⟨kind, attributes, children, p⟩ := n
  obtain rfl : kind = .methodDecl := hkind
  unfold lower
  exact .throw _

/-! ## Statements -/

variable (t method)

/-- How a store into an array was lowered. -/
inductive Storing (array index value : Node) (ns : Names) : List Instruction → Names → Prop
  | intro {a i v : Lowered} {type : Ty} {name : String} {ns₁ ns₂ ns' : Names}
      (ha : (t.lower method (some .intArray) array).run ns = .ok (a, ns₁))
      (hi : (t.lower method (some .int) index).run ns₁ = .ok (i, ns₂)) (htype : a.code.type = .ok type)
      (hv : (t.lower method (some type.base) value).run ns₂ = .ok (v, ns')) (hname : a.code.name = .ok name) :
      Storing array index value ns (a.computation ++ i.computation ++ v.computation ++
        [.assign (.item name type.base i.code) (.single v.code)]) ns'

/-- How an assignment was lowered: a variable may be updated by one instruction, and a field is written. -/
inductive Assigning (name : String) (value : Node) (ns : Names) : List Instruction → Names → Prop
  | update {s : Symbol} {update : Instruction} (hs : t.binding? (some method) name = some s)
      (hupdate : selfUpdate? name s.type value = .ok (some update)) :
      Assigning name value ns [.assign (.var name s.type) update] ns
  | binding {s : Symbol} {v : Lowered} {ns' : Names} (hs : t.binding? (some method) name = some s)
      (hupdate : selfUpdate? name s.type value = .ok none)
      (hv : (t.lower method (some s.type) value).run ns = .ok (v, ns')) :
      Assigning name value ns (v.computation ++ [.assign (.var name s.type) (.single v.code)]) ns'
  | field {f : Symbol} {v : Lowered} {ns' : Names} (hbinding : t.binding? (some method) name = none)
      (hf : t.field? name = some f) (hv : (t.lower method (some f.type) value).run ns = .ok (v, ns')) :
      Assigning name value ns (v.computation ++ [.putField t.thisElement (.var name f.type) v.code]) ns'

/-- How a condition was lowered: the jump tests a comparison, a negation or a value. -/
inductive Testing (condition : Node) (label : String) (ns : Names) : List Instruction → Names → Prop
  | comparison {op : String} {left right : Node} {l r : Lowered} {ns₁ ns' : Names} (hkind : condition.kind = .binary)
      (hop : condition.op = .ok op) (hcompares : (Comparison.ofSymbol? op).isSome = true)
      (hleft : condition.child 0 = .ok left) (hright : condition.child 1 = .ok right)
      (hl : (t.lower method (some .int) left).run ns = .ok (l, ns₁))
      (hr : (t.lower method (some .int) right).run ns₁ = .ok (r, ns')) :
      Testing condition label ns
        (l.computation ++ r.computation ++ [.branch (.binary op l.code r.code .boolean) label]) ns'
  | negation {operand : Node} {v : Lowered} {ns' : Names} (hkind : condition.kind = .unary) (hop : condition.op = .ok "!")
      (hoperand : condition.child 0 = .ok operand) (hv : (t.lower method (some .boolean) operand).run ns = .ok (v, ns')) :
      Testing condition label ns (v.computation ++ [.branch (.unary "!" v.code .boolean) label]) ns'
  | value {v : Lowered} {ns' : Names}
      (hbinary : condition.kind = .binary → ∃ op, condition.op = .ok op ∧ (Comparison.ofSymbol? op).isSome = false)
      (hunary : condition.kind = .unary → ∃ op, condition.op = .ok op ∧ op ≠ "!")
      (hv : (t.lower method (some .boolean) condition).run ns = .ok (v, ns')) :
      Testing condition label ns (v.computation ++ [.branch (.single v.code) label]) ns'

/-- How a statement was lowered. -/
inductive LoweringCode (returnType : Ty) (n : Node) (ns : Names) : List Instruction → Names → Prop
  | block {is : List Instruction} {ns' : Names} (hkind : n.kind = .block)
      (his : (t.lowerSequence method returnType n.children).run ns = .ok (is, ns')) : LoweringCode returnType n ns is ns'
  | exprStmt {e : Node} {rest : List Node} {v : Lowered} {ns' : Names} (hkind : n.kind = .exprStmt)
      (hchildren : n.children = e :: rest) (hv : (t.lower method (some .void) e).run ns = .ok (v, ns')) :
      LoweringCode returnType n ns v.computation ns'
  | assignElement {target array index value : Node} {is : List Instruction} {ns' : Names} (hkind : n.kind = .assign)
      (hchildren : n.children = [target, value]) (htarget : target.kind = .arrayAccess)
      (harray : target.child 0 = .ok array) (hindex : target.child 1 = .ok index)
      (his : (t.lowerStore method array index value).run ns = .ok (is, ns')) : LoweringCode returnType n ns is ns'
  | assign {target value : Node} {name : String} {is : List Instruction} {ns' : Names} (hkind : n.kind = .assign)
      (hchildren : n.children = [target, value]) (htarget : target.kind ≠ .arrayAccess) (hname : target.name = .ok name)
      (his : (t.lowerAssign method name value).run ns = .ok (is, ns')) : LoweringCode returnType n ns is ns'
  | arrayAssign {array index value : Node} {is : List Instruction} {ns' : Names} (hkind : n.kind = .arrayAssign)
      (hchildren : n.children = [array, index, value])
      (his : (t.lowerStore method array index value).run ns = .ok (is, ns')) : LoweringCode returnType n ns is ns'
  | returnNothing (hkind : n.kind = .returnStmt) (hchildren : n.children = []) :
      LoweringCode returnType n ns [.ret .absent .void] ns
  | returnValue {value : Node} {rest : List Node} {v : Lowered} {ns' : Names} (hkind : n.kind = .returnStmt)
      (hchildren : n.children = value :: rest) (hv : (t.lower method (some returnType) value).run ns = .ok (v, ns')) :
      LoweringCode returnType n ns (v.computation ++ [.ret v.code returnType]) ns'
  | ifElse {condition thenPart elsePart : Node} {number : Nat} {test first second : List Instruction}
      {ns₁ ns₂ ns₃ ns' : Names} (hkind : n.kind = .ifStmt) (hchildren : n.children = [condition, thenPart, elsePart])
      (hlabel : label.run ns = .ok (number, ns₁))
      (htest : (t.lowerBranch method condition ("if_then_" ++ toString number)).run ns₁ = .ok (test, ns₂))
      (hfirst : (t.lowerStatement method returnType elsePart).run ns₂ = .ok (first, ns₃))
      (hsecond : (t.lowerStatement method returnType thenPart).run ns₃ = .ok (second, ns')) :
      LoweringCode returnType n ns (test ++ [.label ("if_else_" ++ toString number)] ++ first ++
        [.goto ("if_end_" ++ toString number), .label ("if_then_" ++ toString number)] ++ second ++
        [.label ("if_end_" ++ toString number)]) ns'
  | ifThen {condition thenPart : Node} {rest : List Node} {number : Nat} {test second : List Instruction}
      {ns₁ ns₂ ns' : Names} (hkind : n.kind = .ifStmt) (hchildren : n.children = condition :: thenPart :: rest)
      (hrest : rest.length ≠ 1) (hlabel : label.run ns = .ok (number, ns₁))
      (htest : (t.lowerBranch method condition ("if_then_" ++ toString number)).run ns₁ = .ok (test, ns₂))
      (hsecond : (t.lowerStatement method returnType thenPart).run ns₂ = .ok (second, ns')) :
      LoweringCode returnType n ns (test ++ [.goto ("if_end_" ++ toString number), .label ("if_then_" ++ toString number)] ++
        second ++ [.label ("if_end_" ++ toString number)]) ns'
  | whileLoop {condition body : Node} {rest : List Node} {number : Nat} {first test : List Instruction}
      {ns₁ ns₂ ns' : Names} (hkind : n.kind = .whileStmt) (hchildren : n.children = condition :: body :: rest)
      (hlabel : label.run ns = .ok (number, ns₁))
      (hfirst : (t.lowerStatement method returnType body).run ns₁ = .ok (first, ns₂))
      (htest : (t.lowerBranch method condition ("while_body_" ++ toString number)).run ns₂ = .ok (test, ns')) :
      LoweringCode returnType n ns ([.goto ("while_cond_" ++ toString number), .label ("while_body_" ++ toString number)] ++
        first ++ [.label ("while_cond_" ++ toString number)] ++ test ++ [.label ("while_end_" ++ toString number)]) ns'

variable {t method}

theorem leaves_storing (array index value : Node) (ns : Names) :
    Leaves ns (t.lowerStore method array index value) (t.Storing method array index value ns) := by
  unfold lowerStore
  refine .after fun a ns₁ ha => .after fun i ns₂ hi => .known fun type htype => .after fun v ns' hv => ?_
  exact .known fun name hname => .pure (.intro ha hi htype hv hname)

theorem leaves_assigning (name : String) (value : Node) (ns : Names) :
    Leaves ns (t.lowerAssign method name value) (t.Assigning method name value ns) := by
  unfold lowerAssign
  split
  · refine .known fun update hupdate => ?_
    cases update with
    | some update => exact .pure (.update ‹_› hupdate)
    | none => exact .after fun v ns' hv => .pure (.binding ‹_› hupdate hv)
  · split
    · exact .after fun v ns' hv => .pure (.field ‹_› ‹_› hv)
    · exact .throw _

/-- A condition that is lowered went as one of the cases says. -/
theorem leaves_testing (condition : Node) (label : String) (ns : Names) :
    Leaves ns (t.lowerBranch method condition label) (t.Testing method condition label ns) := by
  unfold lowerBranch
  refine .flag (fun hbinary op hop hcompares => ?_) fun hbinary => ?_
  · simp only [hbinary, reduceCtorEq, if_false, pure_bind, if_true]
    refine .known fun left hleft => .after fun l ns₁ hl => .known fun right hright => .after fun r ns' hr => ?_
    refine .known fun op' hop' => .pure ?_
    obtain rfl : op = op' := Except.ok.inj (hop.symm.trans hop')
    exact .comparison hbinary hop hcompares hleft hright hl hr
  simp only [Bool.false_eq_true, if_false]
  refine .flag (fun hunary op hop hnot => ?_) fun hunary => ?_
  · obtain rfl := of_decide_eq_true hnot
    simp only [if_true]
    exact .known fun operand hoperand => .after fun v ns' hv => .pure (.negation hunary hop hoperand hv)
  · refine .after fun v ns' hv => .pure (.value hbinary (fun hkind => ?_) hv)
    obtain ⟨op, hop, hnot⟩ := hunary hkind
    exact ⟨op, hop, of_decide_eq_false hnot⟩

/-- A statement that is lowered went as one of the cases says. -/
theorem leaves_loweringCode (returnType : Ty) (n : Node) (ns : Names) :
    Leaves ns (t.lowerStatement method returnType n) (t.LoweringCode method returnType n ns) := by
  obtain ⟨kind, attributes, children, position⟩ := n
  unfold lowerStatement
  cases kind with
  | block => exact fun is ns' his => .block rfl his
  | exprStmt =>
    rcases children with _ | ⟨e, rest⟩
    · exact .throw _
    · exact .after fun v ns' hv => .pure (.exprStmt rfl rfl hv)
  | assign =>
    rcases children with _ | ⟨target, _ | ⟨value, _ | ⟨_, _⟩⟩⟩
    · exact .throw _
    · exact .throw _
    · dsimp only
      split
      · refine .known fun array harray => .known fun index hindex is ns' his => ?_
        exact .assignElement rfl rfl ‹_› harray hindex his
      · exact .known fun name hname is ns' his => .assign rfl rfl ‹_› hname his
    · exact .throw _
  | arrayAssign =>
    rcases children with _ | ⟨array, _ | ⟨index, _ | ⟨value, _ | ⟨_, _⟩⟩⟩⟩
    · exact .throw _
    · exact .throw _
    · exact .throw _
    · exact fun is ns' his => .arrayAssign rfl rfl his
    · exact .throw _
  | returnStmt =>
    rcases children with _ | ⟨value, rest⟩
    · exact .pure (.returnNothing rfl rfl)
    · exact .after fun v ns' hv => .pure (.returnValue rfl rfl hv)
  | ifStmt =>
    refine .after fun number ns₁ hlabel => ?_
    rcases children with _ | ⟨condition, _ | ⟨thenPart, _ | ⟨elsePart, _ | ⟨_, _⟩⟩⟩⟩
    · exact .throw _
    · exact .after fun _ _ _ => .throw _
    · refine .after fun test ns₂ htest => .after fun second ns' hsecond => .pure ?_
      exact .ifThen rfl rfl (by simp) hlabel htest hsecond
    · refine .after fun test ns₂ htest => .after fun first ns₃ hfirst => ?_
      exact .after fun second ns' hsecond => .pure (.ifElse rfl rfl hlabel htest hfirst hsecond)
    · refine .after fun test ns₂ htest => .after fun second ns' hsecond => .pure ?_
      exact .ifThen rfl rfl (by simp) hlabel htest hsecond
  | whileStmt =>
    refine .after fun number ns₁ hlabel => ?_
    rcases children with _ | ⟨condition, _ | ⟨body, rest⟩⟩
    · exact .throw _
    · exact .throw _
    · refine .after fun first ns₂ hfirst => .after fun test ns' htest => .pure ?_
      exact .whileLoop rfl rfl hlabel hfirst htest
  | _ => exact .throw _

/-- A declaration of a method is no statement. -/
theorem leaves_lowerStatement_methodDecl {n : Node} {returnType : Ty} {ns : Names} {P : List Instruction → Names → Prop}
    (hkind : n.kind = .methodDecl) : Leaves ns (t.lowerStatement method returnType n) P := by
  obtain ⟨kind, attributes, children, p⟩ := n
  obtain rfl : kind = .methodDecl := hkind
  unfold lowerStatement
  exact .throw _

end SymbolTable
end JmmCompiler

import JmmCompiler.Proofs.LoweredCalls
import JmmCompiler.Proofs.PackedArguments
import JmmCompiler.Proofs.Strict
/-! The code of every typed expression computes what the expression means, with the arguments of its calls gathered as
the methods want them. -/
namespace JmmCompiler
namespace SymbolTable
variable (t : SymbolTable) (method : String) {W : Type} (ask : Query → Act W Value) (object : Option Value)

/-- An expression without effects: it has a value, and leaves the world as it is. -/
def Quiet (e : Node) : Prop :=
  ∀ store, store.self = object → ∀ w, ∃ v, runOn (t.eval method ask store e) w = (.ok v, w)

/-- A node in which import names are nothing but receivers of calls, in which only a statement calls a void method of the
class, and in which the receiver of a call of a static method of the class has no effects. -/
structure Orderly (n : Node) : Prop where
  classes : ∀ c ∈ (if n.kind = .call then n.children.tail else n.children), t.isClassName method c = false
  voids : n.kind ≠ .exprStmt → n.kind ≠ .paren → ∀ c ∈ n.children, t.isVoidCall method c = false
  receivers : ∀ className, t.callee method n = .ok (.ofClass className true) →
    ∀ receiver ∈ n.children.head?, t.Quiet method ask object receiver

variable {t method}

/-- What a call reaches. -/
theorem callee_eq {name : String} {receiver : Node} (args : List Node) {own : Bool} {type : Ty} (p : Position)
    (hown : t.isOwnCall method name receiver = .ok own) (htype : t.typeOf method receiver = .ok type) :
    t.callee method ⟨.call, ⟨[("name", .text name)]⟩, receiver :: args, p⟩ =
      if own = false ∧ name = "length" ∧ args = [] ∧ type.isArray = true then .ok .length
      else if own = true ∧ t.isStatic name = true then .ok (.ofClass t.className (!t.isClassName method receiver))
      else if t.isClassName method receiver = true then (do return .ofClass (← receiver.name) false)
      else .ok .ofObject := by
  have hname : Node.name ⟨.call, ⟨[("name", .text name)]⟩, receiver :: args, p⟩ = .ok name := rfl
  have hchild : Node.child ⟨.call, ⟨[("name", .text name)]⟩, receiver :: args, p⟩ 0 = .ok receiver := rfl
  have hflag (k : Bool → Except Failure Callee) :
      (if (!own && decide (name = "length") && args.isEmpty) = true then pure type.isArray >>= k else pure false >>= k) =
        k (decide (own = false ∧ name = "length" ∧ args = [] ∧ type.isArray = true)) := by
    simp only [pure_bind]
    cases own with
    | true => simp
    | false => by_cases hlength : name = "length" <;> cases args <;> simp [hlength]
  unfold callee
  simp only [hname, hchild, hown, htype, ok_bind, List.tail_cons]
  rw [hflag]
  simp only [decide_eq_true_eq, Bool.and_eq_true]
  rfl

/-- A receiver that has a type is a class where it is the name of an import. -/
theorem isClassReceiver_eq {receiver : Node} {type : Ty} (htype : t.typeOf (some method) receiver = .ok type) :
    t.isClassReceiver method receiver = .ok (t.isClassName method receiver) := by
  by_cases hkind : receiver.kind = .varRef
  · obtain ⟨kind, attributes, children, p⟩ := receiver
    obtain rfl : kind = .varRef := hkind
    have hnamed : Node.name ⟨.varRef, attributes, children, p⟩ = Node.name ⟨.varRef, attributes, [], p⟩ := rfl
    simp only [typeOf, bind_eq_ok] at htype
    obtain ⟨name, hname, -⟩ := htype
    rw [← hnamed] at hname
    rw [t.isClassReceiver_of_name method rfl hname, isClassName, hname]
    simp
  · rw [t.isClassReceiver_of_kind method hkind]
    unfold isClassName
    split
    · simp [hkind]
    · rfl

theorem import_of_isClassName {receiver : Node} (h : t.isClassName method receiver = true) (isStatic : Bool) :
    ∃ name, receiver.kind = .varRef ∧ receiver.name = .ok name ∧
      Context.IsImportName ⟨t, method, isStatic, false⟩ name := by
  unfold isClassName at h
  split at h
  · rename_i name hname
    simp only [Bool.and_eq_true, decide_eq_true_eq, Option.isNone_iff_eq_none] at h
    obtain ⟨⟨⟨hkind, hbinding⟩, hfield⟩, himported⟩ := h
    exact ⟨name, hkind, hname, hbinding, hfield, himported⟩
  · cases h

/-- The name of an import is no array. -/
theorem isClassName_of_isArray {receiver : Node} {type : Ty} (htype : t.typeOf (some method) receiver = .ok type)
    (harray : type.isArray = true) : t.isClassName method receiver = false := by
  by_contra hclass
  obtain ⟨name, hkind, hname, himport⟩ := import_of_isClassName (Bool.eq_true_of_not_eq_false hclass) false
  obtain ⟨kind, attributes, children, p⟩ := receiver
  obtain rfl : kind = .varRef := hkind
  have hnamed : Node.name ⟨.varRef, attributes, [], p⟩ = .ok name := hname
  rw [typeOf, hnamed, ok_bind, pure_eq_ok] at htype
  have hany : (t.variableType? (some method) name).getD .any = .any := himport.variableType
  rw [← htype, hany] at harray
  cases harray

/-- Only calls of methods of the class pass arguments in arrays. -/
theorem packing_eq_none {name : String} {receiver : Node} {args : List Node} {p : Position} {packing : Option (Nat × String)}
    (hown : t.isOwnCall method name receiver = .ok false)
    (h : t.packing? method ⟨.call, ⟨[("name", .text name)]⟩, receiver :: args, p⟩ = .ok packing) : packing = none := by
  have hother : t.CallsOther (some method) ⟨[("name", .text name)]⟩ p receiver := by
    refine ⟨name, rfl, fun m hm => ?_⟩
    simpa [isOwnCall, hasMethod, hm] using hown
  exact Except.ok.inj (h.symm.trans (packing?_other hother))

end SymbolTable

theorem SymbolTable.isClassName_normalizeVarargs {t : SymbolTable} {method : String} {e e' : Node}
    (h : t.normalizeVarargs (some method) e = .ok e') :
    e'.name = e.name ∧ t.isClassName method e' = t.isClassName method e := by
  obtain ⟨hkind, hattributes⟩ := kind_normalizeVarargs h
  obtain ⟨kind, attributes, cs, p⟩ := e
  obtain ⟨kind', attributes', cs', p'⟩ := e'
  obtain rfl : kind' = kind := hkind
  obtain rfl : attributes' = attributes := hattributes
  exact ⟨rfl, rfl⟩

/-- What has no effects can be left out. -/
theorem Act.bind_of_quiet {W α : Type} {x : Act W Value} (h : ∀ w, ∃ v, runOn x w = (.ok v, w)) (y : Act W α) :
    (do
      let _ ← x
      y) = y := by
  funext w
  change runOn (x >>= fun _ => y) w = runOn y w
  obtain ⟨v, hv⟩ := h w
  rw [runOn_bind, hv]

theorem Act.all_append {W : Type} (xs : List (Act W Value)) (y : Act W Value) : Act.all (xs ++ [y]) = (do
    let vs ← Act.all xs
    return vs ++ [← y]) := by
  induction xs with
  | nil => simp [Act.all]
  | cons x xs ih => simp [Act.all, ih]

namespace MethodRun
variable {W : Type} {A : MethodRun W} {args args' : List Node} {packing : Option (Nat × String)} {p : Position}

variable (A) in
def normalize (e : Node) : Except Failure Node := A.context.table.normalizeVarargs (some A.context.method) e

/-- The arguments of a call, perhaps with the last ones gathered, compute what the call passes. -/
theorem exists_arguments {attributes : Assoc Attribute} {receiver' n' : Node}
    (hargs : List.Forall₂ (fun e e' => A.Computes (A.eval e) true e') args args')
    (hn' : packing = none ∧ n' = ⟨.call, attributes, receiver' :: args', p⟩ ∨ ∃ fixed element, packing = some (fixed, element) ∧
      n' = ⟨.call, attributes, receiver' :: (args'.take fixed ++
        [⟨.arrayLiteral, ⟨[("element_type", .text element)]⟩, args'.drop fixed, p⟩]), p⟩) :
    ∃ xs es, n' = ⟨.call, attributes, receiver' :: es, p⟩ ∧ List.Forall₂ (fun x e => A.Computes x true e) xs es ∧
      (packing = none → es.length = args.length) ∧
      ∀ store, SymbolTable.argumentsOf A.ask packing (args.map (A.eval · store)) = Act.all (xs.map (· store)) := by
  have hcomputes {es es' : List Node} (h : List.Forall₂ (fun e e' => A.Computes (A.eval e) true e') es es') :
      List.Forall₂ (fun x e => A.Computes x true e) (es.map A.eval) es' := List.forall₂_map_left_iff.2 h
  have hmap (es : List Node) (store : Store) : (es.map A.eval).map (· store) = es.map (A.eval · store) := by simp
  rcases hn' with ⟨rfl, rfl⟩ | ⟨fixed, element, rfl, rfl⟩
  · refine ⟨_, args', rfl, hcomputes hargs, fun _ => hargs.length_eq.symm, fun store => ?_⟩
    rw [hmap, SymbolTable.argumentsOf]
  · have htype : A.context.typeOf ⟨.arrayLiteral, ⟨[("element_type", .text element)]⟩, args'.drop fixed, p⟩ =
        .ok ⟨element, true⟩ := SymbolTable.typeOf_gatheredLiteral _ _ element _ p
    have hlast : A.Computes _ true _ := computes_arrayLiteral htype (hcomputes (List.forall₂_drop fixed hargs))
    have hpassed := List.rel_append (hcomputes (List.forall₂_take fixed hargs)) (.cons hlast .nil)
    refine ⟨_, _, rfl, hpassed, by simp, fun store => ?_⟩
    rw [List.map_append, hmap, List.map_singleton, Act.all_append, SymbolTable.argumentsOf]
    simp only [List.map_take, List.map_drop, hmap]

variable {name : String} {receiver n' : Node} {type : Ty}

theorem eval_call {callee : Callee}
    (hpacking : A.context.table.packing? A.context.method ⟨.call, ⟨[("name", .text name)]⟩, receiver :: args, p⟩ = .ok packing)
    (hcallee : A.context.table.callee A.context.method ⟨.call, ⟨[("name", .text name)]⟩, receiver :: args, p⟩ = .ok callee)
    (store : Store) :
    A.eval ⟨.call, ⟨[("name", .text name)]⟩, receiver :: args, p⟩ store = (do
      let passed := SymbolTable.argumentsOf A.ask packing (args.map (A.eval · store))
      match callee with
      | .length => A.ask (.length (← A.eval receiver store))
      | .ofClass className evaluated =>
        if evaluated then
          let _ ← A.eval receiver store
        A.ask (.invokeStatic className (some name) (← passed))
      | .ofObject =>
        let object ← A.eval receiver store
        A.ask (.invoke (some name) object (← passed))) := by
  have hname? : Node.name? ⟨.call, ⟨[("name", .text name)]⟩, receiver :: args, p⟩ = .ok (some name) := rfl
  rw [eval_eq]
  cases callee <;>
    simp only [SymbolTable.valueOf, List.map_cons, hname?, hpacking, hcallee, Act.ofExcept_ok, pure_bind]

/-- What a call goes to is found before its arguments are computed, and then it makes its request. -/
theorem exists_target {receiver' : Node} {own : Bool}
    (horderly : A.context.table.Orderly A.context.method A.ask A.self ⟨.call, ⟨[("name", .text name)]⟩, receiver :: args, p⟩)
    (hpacking : A.context.table.packing? A.context.method ⟨.call, ⟨[("name", .text name)]⟩, receiver :: args, p⟩ = .ok packing)
    (hcallee : A.context.table.callee A.context.method ⟨.call, ⟨[("name", .text name)]⟩, receiver :: args, p⟩ =
      if own = true ∧ A.context.table.isStatic name = true then
        .ok (.ofClass A.context.table.className (!A.context.table.isClassName A.context.method receiver))
      else if A.context.table.isClassName A.context.method receiver = true then (do return .ofClass (← receiver.name) false)
      else .ok .ofObject)
    (hname : receiver'.name = receiver.name)
    (hreceiver : A.context.table.isClassName A.context.method receiver = false →
      A.Computes (A.eval receiver) false receiver') :
    ∃ (β : Type) (before : Store → Act W β) (query : β → List Value → Query),
      (∀ ns, A.Reserves ns → Lower.Leaves ns (A.context.table.callTarget A.context.method own
        (A.context.table.isClassName A.context.method receiver) name receiver') (A.Aims name before query ns)) ∧
      ∀ store, store.self = A.self → A.eval ⟨.call, ⟨[("name", .text name)]⟩, receiver :: args, p⟩ store = (do
        let b ← before store
        A.ask (query b (← SymbolTable.argumentsOf A.ask packing (args.map (A.eval · store))))) := by
  unfold SymbolTable.callTarget
  cases hstatic : own && A.context.table.isStatic name with
  | true =>
    rw [if_pos (by simpa using hstatic)] at hcallee
    refine ⟨Unit, fun _ => pure (), fun _ vs => .invokeStatic A.context.table.className (some name) vs, fun ns _ => ?_, ?_⟩
    · exact .pure (aims_class name _ _ (.refl ns))
    · intro store hself
      rw [eval_call hpacking hcallee]
      cases hclass : A.context.table.isClassName A.context.method receiver with
      | true => simp
      | false =>
        rw [hclass] at hcallee
        have hquiet := horderly.receivers _ hcallee receiver rfl store hself
        simp only [Bool.not_false, if_true, pure_bind]
        exact Act.bind_of_quiet hquiet _
  | false =>
    rw [if_neg (by simpa using hstatic)] at hcallee
    cases hclass : A.context.table.isClassName A.context.method receiver with
    | true =>
      obtain ⟨imported, -, himported, -⟩ := SymbolTable.import_of_isClassName hclass false
      rw [hclass, if_pos rfl, himported, ok_bind] at hcallee
      refine ⟨Unit, fun _ => pure (), fun _ vs => .invokeStatic imported (some name) vs, fun ns _ => ?_, fun store _ => ?_⟩
      · rw [hname, himported]
        exact .pure (aims_class name imported _ (.refl ns))
      · rw [eval_call hpacking hcallee]
        simp
    | false =>
      rw [hclass, if_neg Bool.false_ne_true] at hcallee
      refine ⟨Value, A.eval receiver, fun object vs => .invoke (some name) object vs, fun ns hns => ?_, fun store _ => ?_⟩
      · exact (leaves_operand (hreceiver hclass) (by decide) hns).bind fun l ns' hl => .pure (aims_object name hl.1 hl.2)
      · rw [eval_call hpacking hcallee]

/-- A call computes what it means, given that its receiver and its arguments do, unless they are names of classes. -/
theorem computes_call (htype : A.context.typeOf receiver = .ok type)
    (horderly : A.context.table.Orderly A.context.method A.ask A.self ⟨.call, ⟨[("name", .text name)]⟩, receiver :: args, p⟩)
    (hcomputes : ∀ e ∈ receiver :: args, A.context.table.isClassName A.context.method e = false →
      ∀ e', A.normalize e = .ok e' → A.Computes (A.eval e) (A.context.table.isVoidCall A.context.method e) e')
    (hn' : A.normalize ⟨.call, ⟨[("name", .text name)]⟩, receiver :: args, p⟩ = .ok n') :
    A.Computes (A.eval ⟨.call, ⟨[("name", .text name)]⟩, receiver :: args, p⟩)
      (A.context.table.isVoidCall A.context.method ⟨.call, ⟨[("name", .text name)]⟩, receiver :: args, p⟩) n' := by
  obtain ⟨receiver', args', packing, hnormal, hnormals, hpacking, hshape⟩ := SymbolTable.parts_of_normalizeVarargs hn'
  have hreceiver (hclass : A.context.table.isClassName A.context.method receiver = false) :
      A.Computes (A.eval receiver) false receiver' :=
    horderly.voids (by simp) (by simp) receiver List.mem_cons_self ▸
      hcomputes receiver List.mem_cons_self hclass receiver' hnormal
  have hargs (e : Node) (he : e ∈ args) (e' : Node) (h : A.normalize e = .ok e') : A.Computes (A.eval e) true e' :=
    (hcomputes e (List.mem_cons_of_mem _ he) (horderly.classes e he) e' h).weaken
  have hall : List.Forall₂ (fun e e' => A.Computes (A.eval e) true e') args args' :=
    ((List.forall₂_and_left args args').2 ⟨hargs, hnormals⟩).imp fun e e' h => h.1 e' h.2
  obtain ⟨xs, es, rfl, hes, hlengths, hpassed⟩ := exists_arguments hall hshape
  -- the rewritten receiver has the type and the name of the original one
  have htype' : A.context.typeOf receiver' = .ok type := (SymbolTable.typeOf_normalizeVarargs hnormal).trans htype
  obtain ⟨own, hown⟩ : ∃ own, A.context.table.isOwnCall A.context.method name receiver = .ok own :=
    ⟨_, A.context.table.isOwnCall_eq _ htype⟩
  have hown' : A.context.table.isOwnCall A.context.method name receiver' = .ok own := by
    rw [← hown, A.context.table.isOwnCall_eq _ htype', A.context.table.isOwnCall_eq _ htype]
  obtain ⟨hname, hclassName⟩ := SymbolTable.isClassName_normalizeVarargs hnormal
  have hclass' : A.context.table.isClassReceiver A.context.method receiver' =
      .ok (A.context.table.isClassName A.context.method receiver) := hclassName ▸ SymbolTable.isClassReceiver_eq htype'
  have hcallee := SymbolTable.callee_eq args p hown htype
  have hpassing (hother : own = false) : es.length = args.length :=
    hlengths (SymbolTable.packing_eq_none (hother ▸ hown) hpacking)
  by_cases hlength : own = false ∧ name = "length" ∧ args = [] ∧ type.isArray = true
  · rw [if_pos hlength] at hcallee
    obtain ⟨rfl, rfl, rfl, harray⟩ := hlength
    obtain rfl : es = [] := List.length_eq_zero_iff.1 (hpassing rfl)
    have hvalue := hreceiver (SymbolTable.isClassName_of_isArray htype harray)
    refine Computes.congr (computes_of_value fun expected ns hns => ?_) fun store _ => eval_call hpacking hcallee store
    rw [SymbolTable.lower_call _ _ _ _ hown' htype' hclass', if_pos ⟨rfl, rfl, rfl, harray⟩]
    exact (leaves_operand hvalue (by decide) hns).bind fun array ns₁ h => leaves_lengthOf hns h.1 h.2
  · rw [if_neg hlength] at hcallee
    have hlength' : ¬(own = false ∧ name = "length" ∧ es = [] ∧ type.isArray = true) := by
      rintro ⟨hother, hname, rfl, harray⟩
      exact hlength ⟨hother, hname, List.length_eq_zero_iff.1 (hpassing hother).symm, harray⟩
    have hvoid (howns : own = true) (h : (A.context.table.method? name).any (·.returnType = .void) = true) :
        A.context.table.isVoidCall A.context.method ⟨.call, ⟨[("name", .text name)]⟩, receiver :: args, p⟩ = true := by
      have hcalled : Node.name ⟨.call, ⟨[("name", .text name)]⟩, receiver :: args, p⟩ = .ok name := rfl
      rw [SymbolTable.isVoidCall, hcalled]
      simp only [hown, howns, h, Except.toOption, decide_true, Bool.and_self]
    obtain ⟨β, before, query, htarget, hmeans⟩ := exists_target horderly hpacking hcallee hname hreceiver
    refine (computes_target hown' htype' hclass' hlength' htarget hes hvoid p).congr fun store hself => ?_
    rw [hmeans store hself, hpassed]

/-- What becomes of a node that is no call: its children are rewritten. -/
theorem children_of_normalize {kind : Kind} {attributes : Assoc Attribute} {cs : List Node}
    (h : A.normalize ⟨kind, attributes, cs, p⟩ = .ok n') (hcall : kind ≠ .call) (hdecl : kind ≠ .methodDecl) :
    ∃ cs', List.Forall₂ (fun c c' => A.normalize c = .ok c') cs cs' ∧ n' = ⟨kind, attributes, cs', p⟩ := by
  obtain ⟨below, cs', hbelow, hcs, hn'⟩ := SymbolTable.normalizeVarargs_eq_ok.1 h
  obtain rfl : some A.context.method = below := Except.ok.inj ((if_neg hdecl).symm.trans hbelow)
  rw [if_neg hcall] at hn'
  exact ⟨cs', mapM_eq_ok_iff.1 hcs, hn'⟩

variable (A) in
/-- A tree in which every node is orderly. -/
def Orderly (n : Node) : Prop := n.Everywhere (A.context.table.Orderly A.context.method A.ask A.self)

variable (A) in
/-- Where an operand stands, there is no name of a class, and nothing without a value. -/
structure Operand (e : Node) : Prop where
  orderly : A.Orderly e
  noClass : A.context.table.isClassName A.context.method e = false
  value : A.context.table.isVoidCall A.context.method e = false

/-- The children of an expression are operands, but for what is in parentheses and the receivers of calls. -/
theorem Orderly.operand {n c : Node} {type : Ty} (h : A.Orderly n) (hc : c ∈ n.children) (htyped : Typed A.context c type)
    (hkind : n.kind ∉ [Kind.call, .paren, .exprStmt]) : A.Operand c := by
  obtain ⟨hcall, hparen, hstmt⟩ : n.kind ≠ .call ∧ n.kind ≠ .paren ∧ n.kind ≠ .exprStmt := by simpa using hkind
  exact ⟨h.child hc htyped.kind_ne, h.here.classes c (by rwa [if_neg hcall]), h.here.voids hstmt hparen c hc⟩

theorem isClassName_of_import (h : A.context.IsImportName name) (p : Position) :
    A.context.table.isClassName A.context.method ⟨.varRef, ⟨[("name", .text name)]⟩, [], p⟩ = true := by
  have hname : Node.name ⟨.varRef, ⟨[("name", .text name)]⟩, [], p⟩ = .ok name := rfl
  rw [SymbolTable.isClassName, hname]
  simp [h.1, h.2.1, h.2.2]

/-- An array literal computes what it means, given that its elements do. -/
theorem computes_elements {attributes : Assoc Attribute} {es : List Node} {void : Bool}
    (htype : A.context.typeOf ⟨.arrayLiteral, attributes, es, p⟩ = .ok type)
    (hes : ∀ e ∈ es, ∀ e', A.normalize e = .ok e' → A.Computes (A.eval e) true e')
    (hn' : A.normalize ⟨.arrayLiteral, attributes, es, p⟩ = .ok n') :
    A.Computes (A.eval ⟨.arrayLiteral, attributes, es, p⟩) void n' := by
  have htype' : A.context.typeOf n' = .ok type := (SymbolTable.typeOf_normalizeVarargs hn').trans htype
  obtain ⟨es', hes', rfl⟩ := children_of_normalize hn' (by simp) (by simp)
  have hcomputes : List.Forall₂ (fun x e => A.Computes x true e) (es.map A.eval) es' :=
    List.forall₂_map_left_iff.2 (((List.forall₂_and_left es es').2 ⟨hes, hes'⟩).imp fun e e' h => h.1 e' h.2)
  refine (computes_arrayLiteral htype' hcomputes).congr fun store _ => ?_
  have htype : A.context.table.typeOf A.context.method ⟨.arrayLiteral, attributes, es, p⟩ = .ok type := htype
  rw [eval_eq]
  simp only [SymbolTable.valueOf, htype, Act.ofExcept_ok, pure_bind, List.map_map]
  rfl

/-- The code of a typed expression computes what the expression means. -/
theorem computes_of_typed {e e' : Node} (h : Typed A.context e type) (horderly : A.Orderly e)
    (hclass : A.context.table.isClassName A.context.method e = false) (he' : A.normalize e = .ok e') :
    A.Computes (A.eval e) (A.context.table.isVoidCall A.context.method e) e' := by
  -- operands have values
  have hoperand {c c' : Node} (hc : A.Operand c)
      (ih : A.Orderly c → A.context.table.isClassName A.context.method c = false →
        A.Computes (A.eval c) (A.context.table.isVoidCall A.context.method c) c') : A.Computes (A.eval c) false c' :=
    hc.value ▸ ih hc.orderly hc.noClass
  induction h generalizing e' with
  | intLiteral i p =>
    obtain ⟨_, _ | _, rfl⟩ := children_of_normalize he' (by simp) (by simp)
    exact (computes_intLiteral i p).congr fun store _ => by rw [eval_eq]; rfl
  | boolLiteral b p =>
    obtain ⟨_, _ | _, rfl⟩ := children_of_normalize he' (by simp) (by simp)
    exact (computes_boolLiteral b p).congr fun store _ => by rw [eval_eq]; rfl
  | @varRef name h p =>
    obtain ⟨_, _ | _, rfl⟩ := children_of_normalize he' (by simp) (by simp)
    rcases h with h | ⟨-, himport⟩
    · exact computes_varRef h p
    · rw [isClassName_of_import himport] at hclass
      cases hclass
  | thisRef h p =>
    obtain ⟨_, _ | _, rfl⟩ := children_of_normalize he' (by simp) (by simp)
    exact computes_thisRef h p
  | @paren inner type hinner p ih =>
    obtain ⟨_, _ | ⟨hinner', _ | _⟩, rfl⟩ := children_of_normalize he' (by simp) (by simp)
    have hnoClass := horderly.here.classes inner (by simp)
    have hvalue := computes_paren (ih (horderly.child (by simp) hinner.kind_ne) hnoClass hinner') p
    rw [SymbolTable.isVoidCall]
    exact hvalue.congr fun store _ => by rw [eval_eq]; rfl
  | newObject name hknown p =>
    obtain ⟨_, _ | _, rfl⟩ := children_of_normalize he' (by simp) (by simp)
    exact (computes_newObject name p).congr fun store _ => by rw [eval_eq]; rfl
  | newArray name hsize hint hknown p ih =>
    obtain ⟨_, _ | ⟨hsize', _ | _⟩, rfl⟩ := children_of_normalize he' (by simp) (by simp)
    have hvalue := hoperand (horderly.operand (by simp) hsize (by simp)) fun ho hc => ih ho hc hsize'
    exact (computes_newArray name hvalue p).congr fun store _ => by rw [eval_eq]; rfl
  | emptyLiteral p => exact computes_elements (Typed.emptyLiteral p).typeOf (by simp) he'
  | @arrayLiteral first rest types helements hfit hadmits p ih =>
    refine computes_elements (Typed.arrayLiteral helements hfit hadmits p).typeOf (fun e he e' he' => ?_) he'
    exact (hoperand (horderly.operand he (helements e he) (by simp)) fun ho hc => ih e he ho hc he').weaken
  | gatheredLiteral name helements hfit hadmits hknown p ih =>
    refine computes_elements (Typed.gatheredLiteral name helements hfit hadmits hknown p).typeOf (fun e he e' he' => ?_) he'
    exact (hoperand (horderly.operand he (helements e he) (by simp)) fun ho hc => ih e he ho hc he').weaken
  | arrayAccess harray hindex htype hint hknown p ih ihindex =>
    obtain ⟨_, _ | ⟨harray', _ | ⟨hindex', _ | _⟩⟩, rfl⟩ := children_of_normalize he' (by simp) (by simp)
    have hvalue := hoperand (horderly.operand (by simp) harray (by simp)) fun ho hc => ih ho hc harray'
    have hnumber := hoperand (horderly.operand (by simp) hindex (by simp)) fun ho hc => ihindex ho hc hindex'
    exact (computes_arrayAccess hvalue hnumber p).congr fun store _ => by rw [eval_eq]; rfl
  | length harray htype p ih =>
    obtain ⟨_, _ | ⟨harray', _ | _⟩, rfl⟩ := children_of_normalize he' (by simp) (by simp)
    have hvalue := hoperand (horderly.operand (by simp) harray (by simp)) fun ho hc => ih ho hc harray'
    exact (computes_length hvalue p).congr fun store _ => by rw [eval_eq]; rfl
  | unary ho hboolean p ih =>
    obtain ⟨_, _ | ⟨hoperand', _ | _⟩, rfl⟩ := children_of_normalize he' (by simp) (by simp)
    have hvalue := hoperand (horderly.operand (by simp) ho (by simp)) fun ho hc => ih ho hc hoperand'
    exact (computes_unary hvalue p).congr fun store _ => by rw [eval_eq]; rfl
  | @binary op o left right leftType rightType hop hl hr halike hwanted hadmits p ihl ihr =>
    obtain ⟨_, _ | ⟨hl', _ | ⟨hr', _ | _⟩⟩, rfl⟩ := children_of_normalize he' (by simp) (by simp)
    have hleft := hoperand (horderly.operand (by simp) hl (by simp)) fun ho hc => ihl ho hc hl'
    have hright := hoperand (horderly.operand (by simp) hr (by simp)) fun ho hc => ihr ho hc hr'
    have hnamed : Node.op ⟨.binary, ⟨[("op", .text op)]⟩, [left, right], p⟩ = .ok op := rfl
    by_cases hand : op = "&&"
    · subst hand
      exact (computes_and hleft hright p).congr fun store _ => by rw [eval_eq]; rfl
    · refine (computes_binary hop hand hleft hright p).congr fun store _ => ?_
      rw [eval_eq]
      simp only [SymbolTable.valueOf, List.map_cons, hnamed, Act.ofExcept_ok, pure_bind, hand, if_false, hop]
  | @ownCall name m receiver args types hm hreceiver hargs haccepts p ihr iha =>
    refine computes_call hreceiver.typeOf horderly.here
      (List.forall_mem_cons.2 ⟨fun hclass e' h => ?_, fun e he hclass e' h => ?_⟩) he'
    · exact ihr (horderly.child (by simp) hreceiver.kind_ne) hclass h
    · exact iha e he (horderly.child (by simp [he]) (hargs e he).kind_ne) hclass h
  | @lengthCall receiver type hreceiver hother harray p ihr =>
    refine computes_call hreceiver.typeOf horderly.here (List.forall_mem_singleton.2 fun hclass e' h => ?_) he'
    exact ihr (horderly.child (by simp) hreceiver.kind_ne) hclass h
  | @foreignCall name receiver type args types hreceiver hother hlength himports hargs hadmits p ihr iha =>
    refine computes_call hreceiver.typeOf horderly.here
      (List.forall_mem_cons.2 ⟨fun hclass e' h => ?_, fun e he hclass e' h => ?_⟩) he'
    · exact ihr (horderly.child (by simp) hreceiver.kind_ne) hclass h
    · exact iha e he (horderly.child (by simp [he]) (hargs e he).kind_ne) hclass h
  | @importCall name imported args types hreceiver hother hargs hadmits p q iha =>
    refine computes_call hreceiver.typeOf horderly.here
      (List.forall_mem_cons.2 ⟨fun hclass => ?_, fun e he hclass e' h => ?_⟩) he'
    · rw [isClassName_of_import hreceiver] at hclass
      cases hclass
    · exact iha e he (horderly.child (by simp [he]) (hargs e he).kind_ne) hclass h

end MethodRun
end JmmCompiler

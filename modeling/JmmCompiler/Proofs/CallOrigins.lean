import JmmCompiler.Proofs.LoweredStatements
import JmmCompiler.Proofs.LoweredTypes
import JmmCompiler.Proofs.Passing
import JmmCompiler.Proofs.WrittenLines
/-! Where the calls in lowered code come from. Every instruction that calls a method ends the code of a call in the tree,
and a call of a method of the class ends in an instruction that follows from its name, its receiver and its arguments. -/
namespace JmmCompiler

/-! ## Trees -/

/-- A node of a tree, the root included. -/
def Node.Contains (root n : Node) : Prop := ∃ path, root.at? path = some n

namespace Node.Contains
variable {root c n : Node}

theorem refl (n : Node) : n.Contains n := ⟨[], rfl⟩

theorem child (hc : c ∈ root.children) (h : c.Contains n) : root.Contains n := by
  obtain ⟨path, hpath⟩ := h
  obtain ⟨i, hi⟩ := List.getElem?_of_mem hc
  exact ⟨i :: path, by simp [at?, hi, hpath]⟩

theorem trans (hc : root.Contains c) (h : c.Contains n) : root.Contains n := by
  obtain ⟨path, hpath⟩ := hc
  induction path generalizing root with
  | nil => exact Option.some.inj hpath ▸ h
  | cons i path ih =>
    obtain ⟨c', hc', hat⟩ := Option.bind_eq_some_iff.1 hpath
    exact (ih hat).child (List.mem_of_getElem? hc')

end Node.Contains

namespace SymbolTable
variable (t : SymbolTable) (method : String)
open Lower

/-- The code of an expression ends with an instruction, for some type that is wanted and some names that are free. -/
def EndsWith (e : Node) (i : Instruction) : Prop :=
  ∃ expected ns l ns', (t.lower method expected e).run ns = .ok (l, ns') ∧ l.computation.getLast? = some i

/-- An instruction that calls a method ends the code of a call in one of some trees. -/
def FromCall (trees : List Node) (i : Instruction) : Prop :=
  i.invokes = true → ∃ root ∈ trees, ∃ e, root.Contains e ∧ e.kind = .call ∧ t.EndsWith method e i

/-- Lowered code calls methods only where the expression has calls. -/
def Traced (e : Node) : Prop :=
  ∀ expected, Yields (t.lower method expected e) fun l => ∀ i ∈ l.computation, t.FromCall method [e] i

variable {t method} {trees : List Node} {e : Node} {i : Instruction} {before : List Instruction}

theorem FromCall.of_mem (h : t.FromCall method [e] i) (he : e ∈ trees) : t.FromCall method trees i := fun hi => by
  obtain ⟨root, hroot, n, hn, hkind, hends⟩ := h hi
  exact ⟨e, he, n, List.mem_singleton.1 hroot ▸ hn, hkind, hends⟩

theorem FromCall.of_subset {trees' : List Node} (h : t.FromCall method trees i) (hsubset : trees ⊆ trees') :
    t.FromCall method trees' i := fun hi => by
  obtain ⟨root, hroot, n, hn, hkind, hends⟩ := h hi
  exact ⟨root, hsubset hroot, n, hn, hkind, hends⟩

/-- What comes from trees in a node comes from the node. -/
theorem FromCall.within (h : t.FromCall method trees i) (hroots : ∀ root ∈ trees, e.Contains root) :
    t.FromCall method [e] i := fun hi => by
  obtain ⟨c, hc, n, hn, hkind, hends⟩ := h hi
  exact ⟨e, by simp, n, (hroots c hc).trans hn, hkind, hends⟩

theorem FromCall.parent (h : t.FromCall method e.children i) : t.FromCall method [e] i :=
  h.within fun c hc => (Node.Contains.refl c).child hc

theorem fromCall_of_not (h : i.invokes = false) : t.FromCall method trees i := fun hi => by simp [h] at hi

/-- An instruction that calls no method, behind code that has come from calls. -/
theorem fromCall_snoc {last : Instruction} (hbefore : ∀ i ∈ before, t.FromCall method trees i)
    (hlast : last.invokes = false) : ∀ i ∈ before ++ [last], t.FromCall method trees i := fun i hi => by
  rcases List.mem_append.1 hi with hi | hi
  · exact hbefore i hi
  · exact fromCall_of_not (List.mem_singleton.1 hi ▸ hlast)

theorem yields_fromCall_intoTemp {type : Ty} {value : Instruction} (hbefore : ∀ i ∈ before, t.FromCall method trees i)
    (hvalue : value.invokes = false) :
    Yields (intoTemp before type value) fun l => ∀ i ∈ l.computation, t.FromCall method trees i :=
  .last fun _ => .pure (fromCall_snoc hbefore hvalue)

theorem traced_lowerVariable (name : String) :
    Yields (t.lowerVariable method name) fun l => ∀ i ∈ l.computation, t.FromCall method trees i := by
  intro ns v ns' hrun
  cases leaves_reading name ns v ns' hrun with
  | field hbinding hf hv => exact (yields_fromCall_intoTemp (by simp) rfl).of_run hv
  | _ => simp

theorem yields_fromCall_lowerArguments {args : List Node} (h : ∀ e ∈ args, t.Traced method e) (params : List Ty) :
    Yields (t.lowerArguments method params args) fun r => ∀ i ∈ r.1, t.FromCall method args i := by
  induction args generalizing params with
  | nil => exact .pure (by simp)
  | cons e es ih =>
    obtain ⟨he, hes⟩ := List.forall_mem_cons.1 h
    rw [lowerArguments]
    refine (he _).bind fun value hvalue => (ih hes _).bind fun rest hrest => .pure fun i hi => ?_
    rcases List.mem_append.1 hi with hi | hi
    · exact (hvalue i hi).of_mem (by simp)
    · exact (hrest i hi).of_subset (List.subset_cons_self e es)

theorem yields_fromCall_lowerElements {args : List Node} (h : ∀ e ∈ args, t.Traced method e) (array : String)
    (element : Ty) (index : Nat) :
    Yields (t.lowerElements method array element index args) fun is => ∀ i ∈ is, t.FromCall method args i := by
  induction args generalizing index with
  | nil => exact .pure (by simp)
  | cons e es ih =>
    obtain ⟨he, hes⟩ := List.forall_mem_cons.1 h
    rw [lowerElements]
    refine (he _).bind fun value hvalue => (ih hes _).bind fun rest hrest => .pure fun i hi => ?_
    rcases List.mem_append.1 hi with hi | hi
    · exact fromCall_snoc (fun i hi => (hvalue i hi).of_mem (by simp)) rfl i hi
    · exact (hrest i hi).of_subset (List.subset_cons_self e es)

/-- The target of a call comes from the receiver. -/
theorem Targeting.fromCall {own : Bool} {name : String} {receiver : Node} {invocation : Invocation} {target : Lowered}
    {ns ns' : Names} (h : t.Targeting method own name receiver ns invocation target ns')
    (hreceiver : t.Traced method receiver) : ∀ i ∈ target.computation, t.FromCall method [receiver] i := by
  cases h with
  | object hother hclass hobject => exact (hreceiver none).of_run hobject
  | _ => simp

/-- A call is the last instruction of its code. -/
theorem Calling.last_or_mem {call : Instruction} {type : Ty} {l : Lowered} {ns ns' : Names}
    (h : Calling before call type ns l ns') (hi : i ∈ l.computation) : l.computation.getLast? = some i ∨ i ∈ before := by
  have hlast {last : Instruction} (hi : i ∈ before ++ [last]) : (before ++ [last]).getLast? = some i ∨ i ∈ before := by
    rcases List.mem_append.1 hi with hi | hi
    · exact .inr hi
    · exact .inl (by simp [List.mem_singleton.1 hi])
  cases h with
  | discarded hvoid => exact hlast hi
  | kept hvoid hvalue =>
    have hyields : Yields (intoTemp before type call) fun l =>
        i ∈ l.computation → l.computation.getLast? = some i ∨ i ∈ before := .last fun _ => .pure hlast
    exact hyields.of_run hvalue hi

/-- The code of an expression calls methods only where the expression has calls. -/
theorem traced (e : Node) : t.Traced method e := by
  induction e using Node.induction_children with
  | step e ih =>
    intro expected ns l ns' hrun
    have hpart {c : Node} {wanted : Option Ty} {v : Lowered} {ns₁ ns₂ : Names} (hc : c ∈ e.children)
        (h : (t.lower method wanted c).run ns₁ = .ok (v, ns₂)) : ∀ i ∈ v.computation, t.FromCall method [e] i :=
      fun i hi => (((ih c hc wanted).of_run h i hi).of_mem hc).parent
    have happend {is js : List Instruction} (his : ∀ i ∈ is, t.FromCall method [e] i)
        (hjs : ∀ i ∈ js, t.FromCall method [e] i) : ∀ i ∈ is ++ js, t.FromCall method [e] i :=
      fun i hi => (List.mem_append.1 hi).elim (his i) (hjs i)
    cases leaves_lowering expected e ns l ns' hrun with
    | varRef hkind hname hv => exact (traced_lowerVariable _).of_run hv
    | paren hkind hchildren hv => exact hpart (by simp [hchildren]) hv
    | and hkind hop hchildren hlabel hl hr htemp =>
      have hl := hpart (by simp [hchildren]) hl
      have hr := hpart (by simp [hchildren]) hr
      refine happend (happend (fromCall_snoc hl rfl) hr) fun i hi => fromCall_of_not ?_
      simp only [List.mem_cons, List.not_mem_nil, or_false] at hi
      rcases hi with rfl | rfl | rfl | rfl | rfl <;> rfl
    | binary hkind hop hand ho hchildren hl hr hv =>
      have hsides := happend (hpart (by simp [hchildren]) hl) (hpart (by simp [hchildren]) hr)
      exact (yields_fromCall_intoTemp hsides rfl).of_run hv
    | unary hkind hop hchildren hu hv =>
      exact (yields_fromCall_intoTemp (hpart (by simp [hchildren]) hu) rfl).of_run hv
    | newObject hkind hname htemp =>
      refine fun i hi => fromCall_of_not ?_
      simp only [List.mem_cons, List.not_mem_nil, or_false] at hi
      rcases hi with rfl | rfl <;> rfl
    | newArray hkind hname hchildren hu hv =>
      exact (yields_fromCall_intoTemp (hpart (by simp [hchildren]) hu) rfl).of_run hv
    | arrayLiteral hkind htype harray hname hstores =>
      refine happend ((yields_fromCall_intoTemp (by simp) rfl).of_run harray) fun i hi => ?_
      exact ((yields_fromCall_lowerElements ih _ _ _).of_run hstores i hi).parent
    | arrayAccess hkind hchildren ha hi htype hname hv =>
      have hsides := happend (hpart (by simp [hchildren]) ha) (hpart (by simp [hchildren]) hi)
      exact (yields_fromCall_intoTemp hsides rfl).of_run hv
    | length hkind hchildren ha hv =>
      exact (yields_fromCall_intoTemp (hpart (by simp [hchildren]) ha) rfl).of_run hv
    | lengthCall hkind hname hchildren hown htype harray ha hv =>
      exact (yields_fromCall_intoTemp (hpart (by simp [hchildren]) ha) rfl).of_run hv
    | call hkind hname hname? hchildren hown hlength htarget hsignature hargs hv =>
      have htarget := htarget.fromCall (ih _ (by simp [hchildren]))
      have hargs := (yields_fromCall_lowerArguments (fun e he => ih e (by simp [hchildren, he])) _).of_run hargs
      have hbefore := happend (fun i hi => ((htarget i hi).of_mem (by simp [hchildren])).parent)
        fun i hi => ((hargs i hi).of_subset (by simp [hchildren])).parent
      intro i hi hinvokes
      obtain hlast | hi := hv.last_or_mem hi
      · exact ⟨e, by simp, e, .refl e, hkind, expected, ns, l, ns', hrun, hlast⟩
      · exact hbefore i hi hinvokes
    | _ => simp

/-! ## Statements -/

/-- The code of a condition calls methods only where the condition has calls. -/
theorem yields_fromCall_lowerBranch (n : Node) (label : String) :
    Yields (t.lowerBranch method n label) fun is => ∀ i ∈ is, t.FromCall method [n] i := by
  intro ns is ns' hrun
  have hpart {c : Node} {k : Nat} {wanted : Option Ty} {v : Lowered} {ns₁ ns₂ : Names} (hc : n.child k = .ok c)
      (h : (t.lower method wanted c).run ns₁ = .ok (v, ns₂)) : ∀ i ∈ v.computation, t.FromCall method [n] i :=
    fun i hi => (((traced c wanted).of_run h i hi).of_mem (Node.mem_children_of_child hc)).parent
  cases leaves_testing n label ns is ns' hrun with
  | comparison hkind hop hcompares hleft hright hl hr =>
    refine fromCall_snoc (fun i hi => ?_) rfl
    exact (List.mem_append.1 hi).elim (hpart hleft hl i) (hpart hright hr i)
  | negation hkind hop hoperand hv => exact fromCall_snoc (hpart hoperand hv) rfl
  | value hbinary hunary hv => exact fromCall_snoc ((traced n _).of_run hv) rfl

/-- The code of a store into an array calls methods only where the array, the index and the value have calls. -/
theorem yields_fromCall_lowerStore (array index value : Node) :
    Yields (t.lowerStore method array index value) fun is => ∀ i ∈ is, t.FromCall method [array, index, value] i := by
  intro ns is ns' hrun
  cases leaves_storing array index value ns is ns' hrun with
  | intro ha hk htype hv hname =>
    refine fromCall_snoc (fun i hi => ?_) rfl
    simp only [List.mem_append] at hi
    rcases hi with (hi | hi) | hi
    · exact ((traced array _).of_run ha i hi).of_mem (by simp)
    · exact ((traced index _).of_run hk i hi).of_mem (by simp)
    · exact ((traced value _).of_run hv i hi).of_mem (by simp)

/-- The code of an assignment calls methods only where the value has calls. -/
theorem yields_fromCall_lowerAssign (name : String) (value : Node) :
    Yields (t.lowerAssign method name value) fun is => ∀ i ∈ is, t.FromCall method [value] i := by
  intro ns is ns' hrun
  cases leaves_assigning name value ns is ns' hrun with
  | update hs hupdate =>
    obtain ⟨op, literal, rfl, -⟩ := eq_of_selfUpdate hupdate
    exact fun i hi => fromCall_of_not (List.mem_singleton.1 hi ▸ rfl)
  | binding hs hupdate hv => exact fromCall_snoc ((traced value _).of_run hv) rfl
  | field hbinding hf hv => exact fromCall_snoc ((traced value _).of_run hv) rfl

theorem yields_fromCall_lowerSequence {returnType : Ty} {ns : List Node}
    (h : ∀ n ∈ ns, Yields (t.lowerStatement method returnType n) fun is => ∀ i ∈ is, t.FromCall method [n] i) :
    Yields (t.lowerSequence method returnType ns) fun is => ∀ i ∈ is, t.FromCall method ns i := by
  induction ns with
  | nil => exact .pure (by simp)
  | cons n ns ih =>
    obtain ⟨hn, hns⟩ := List.forall_mem_cons.1 h
    rw [lowerSequence]
    refine hn.bind fun first hfirst => (ih hns).bind fun rest hrest => .pure fun i hi => ?_
    rcases List.mem_append.1 hi with hi | hi
    · exact (hfirst i hi).of_mem (by simp)
    · exact (hrest i hi).of_subset (List.subset_cons_self n ns)

/-- The code of a statement calls methods only where the statement has calls. -/
theorem yields_fromCall (returnType : Ty) (n : Node) :
    Yields (t.lowerStatement method returnType n) fun is => ∀ i ∈ is, t.FromCall method [n] i := by
  induction n using Node.induction_children with
  | step n ih =>
    intro ns is ns' hrun
    have hjumps {is : List Instruction} (h : ∀ i ∈ is, i.invokes = false) : ∀ i ∈ is, t.FromCall method [n] i :=
      fun i hi => fromCall_of_not (h i hi)
    have hchild {c : Node} {is : List Instruction} (hc : c ∈ n.children) (h : ∀ i ∈ is, t.FromCall method [c] i) :
        ∀ i ∈ is, t.FromCall method [n] i := fun i hi => ((h i hi).of_mem hc).parent
    cases leaves_loweringCode returnType n ns is ns' hrun with
    | block hkind his => exact fun i hi => ((yields_fromCall_lowerSequence ih).of_run his i hi).parent
    | exprStmt hkind hchildren hv => exact hchild (by simp [hchildren]) ((traced _ _).of_run hv)
    | @assignElement target _ _ _ _ _ hkind hchildren htarget harray hindex his =>
      refine fun i hi => ((yields_fromCall_lowerStore _ _ _).of_run his i hi).within ?_
      have hpart {c : Node} {k : Nat} (hc : target.child k = .ok c) : n.Contains c :=
        ((Node.Contains.refl c).child (Node.mem_children_of_child hc)).child (by simp [hchildren])
      simp only [List.forall_mem_cons, List.not_mem_nil, false_imp_iff, implies_true, and_true]
      exact ⟨hpart harray, hpart hindex, (Node.Contains.refl _).child (by simp [hchildren])⟩
    | assign hkind hchildren htarget hname his =>
      exact hchild (by simp [hchildren]) ((yields_fromCall_lowerAssign _ _).of_run his)
    | arrayAssign hkind hchildren his =>
      exact fun i hi => FromCall.parent (hchildren ▸ (yields_fromCall_lowerStore _ _ _).of_run his i hi)
    | returnNothing hkind hchildren => exact hjumps (by simp [Instruction.invokes])
    | returnValue hkind hchildren hv =>
      exact fromCall_snoc (hchild (by simp [hchildren]) ((traced _ _).of_run hv)) rfl
    | ifElse hkind hchildren hlabel htest hfirst hsecond =>
      have htest := hchild (by simp [hchildren]) ((yields_fromCall_lowerBranch _ _).of_run htest)
      have hfirst := hchild (by simp [hchildren]) ((ih _ (by simp [hchildren])).of_run hfirst)
      have hsecond := hchild (by simp [hchildren]) ((ih _ (by simp [hchildren])).of_run hsecond)
      simp only [List.forall_mem_append]
      exact ⟨⟨⟨⟨⟨htest, hjumps (by simp [Instruction.invokes])⟩, hfirst⟩, hjumps (by simp [Instruction.invokes])⟩,
        hsecond⟩, hjumps (by simp [Instruction.invokes])⟩
    | ifThen hkind hchildren hrest hlabel htest hsecond =>
      have htest := hchild (by simp [hchildren]) ((yields_fromCall_lowerBranch _ _).of_run htest)
      have hsecond := hchild (by simp [hchildren]) ((ih _ (by simp [hchildren])).of_run hsecond)
      simp only [List.forall_mem_append]
      exact ⟨⟨⟨htest, hjumps (by simp [Instruction.invokes])⟩, hsecond⟩, hjumps (by simp [Instruction.invokes])⟩
    | whileLoop hkind hchildren hlabel hfirst htest =>
      have hfirst := hchild (by simp [hchildren]) ((ih _ (by simp [hchildren])).of_run hfirst)
      have htest := hchild (by simp [hchildren]) ((yields_fromCall_lowerBranch _ _).of_run htest)
      simp only [List.forall_mem_append]
      exact ⟨⟨⟨⟨hjumps (by simp [Instruction.invokes]), hfirst⟩, hjumps (by simp [Instruction.invokes])⟩, htest⟩,
        hjumps (by simp [Instruction.invokes])⟩

end SymbolTable

/-! ## Methods -/

/-- A node in the statements of a method declaration. -/
def Node.HasPart (d n : Node) : Prop := ∃ root ∈ d.statements, root.Contains n

/-- Every instruction of a method that calls a method ends the code of a call in its statements. -/
theorem Context.Holds.fromCall {s : Context} {m : MethodInfo} {P : Node → Prop} {d : Node} {code : CodeMethod}
    {ns ns' : JmmCompiler.Names} (hd : s.Holds m P d) (h : (s.table.lowerMethod d).run ns = .ok (code, ns'))
    {i : Instruction} (hi : i ∈ code.code) (hinvokes : i.invokes = true) :
    ∃ n, d.HasPart n ∧ n.kind = .call ∧ s.table.EndsWith m.name n i := by
  obtain ⟨is, m₁, ns₁, ns₂, his, hextend, hfinish⟩ := SymbolTable.lowerMethod_of_found hd.name hd.found h
  obtain ⟨hextended, hcode₁⟩ := (SymbolTable.isFor_emptyMethod m).extend hextend
  obtain ⟨-, hcode₂⟩ := hextended.finish hfinish
  have hlowered : i ∈ is := by
    obtain hi | rfl := hcode₂ i hi
    · exact (hcode₁ i hi).resolve_left (by simp [SymbolTable.emptyMethod])
    · cases hinvokes
  have hcalls := (SymbolTable.yields_fromCall_lowerSequence fun n _ => SymbolTable.yields_fromCall _ n).of_run his
  obtain ⟨root, hroot, n, hn, hkind, hends⟩ := hcalls i hlowered hinvokes
  exact ⟨n, ⟨root, hroot, hn⟩, hkind, hends⟩

end JmmCompiler

import JmmCompiler.Proofs.Labels
import JmmCompiler.Proofs.LivePaths
import JmmCompiler.Proofs.LoweredStatements
import JmmCompiler.Proofs.StagedProgram
/-! Lowering gives code for every statement that fits strictly, for every method of such statements, and for programs of
such methods. -/
namespace JmmCompiler

namespace Lower
variable {α : Type} {x : Lower α} {P Q : α → Prop}

theorem Succeeds.and (hx : Succeeds x P) (hQ : Yields x Q) : Succeeds x fun a => P a ∧ Q a := by
  intro ns
  obtain ⟨a, ns', hrun, ha⟩ := hx ns
  exact ⟨a, ns', hrun, ha, hQ ns a ns' hrun⟩

theorem Succeeds.lift {y : Except Failure α} {a : α} (hy : y = .ok a) (ha : P a) : Succeeds (liftM y) P :=
  fun ns => ⟨a, ns, by rw [hy]; rfl, ha⟩

theorem Succeeds.mapM {β : Type} {f : β → Lower α} {xs : List β} (h : ∀ x ∈ xs, Succeeds (f x) P) :
    Succeeds (xs.mapM f) fun _ => True := by
  induction xs with
  | nil => exact .pure trivial
  | cons x xs ih =>
    obtain ⟨hx, hxs⟩ := List.forall_mem_cons.1 h
    rw [List.mapM_cons]
    exact hx.bind fun _ _ => (ih hxs).bind fun _ _ => .pure trivial

theorem succeeds_modify (f : Names → Names) : Succeeds (modify f : Lower Unit) fun _ => True :=
  fun ns => ⟨(), f ns, rfl, trivial⟩

end Lower

namespace Typed
variable {s : Context} {e : Node} {type : Ty}
open Lower SymbolTable

/-- A condition is lowered, whichever of the three ways it is tested in. -/
theorem succeeds_lowerBranch (h : Typed s e type) (label : String) :
    Succeeds (s.table.lowerBranch s.method e label) fun _ => True := by
  have hvalue (hunary : e.kind ≠ .unary)
      (hbinary : e.kind = .binary → ∃ op, e.op = .ok op ∧ Comparison.ofSymbol? op = none) :
      Succeeds (s.table.lowerBranch s.method e label) fun _ => True := by
    rw [lowerBranch_value _ _ hunary hbinary]
    exact (h.succeeds_lower _).bind fun _ _ => .pure trivial
  by_cases hunary : e.kind = .unary
  · cases h with
    | unary hoperand hboolean p =>
      rw [lowerBranch_not]
      exact (hoperand.succeeds_lower _).bind fun _ _ => .pure trivial
    | _ => cases hunary
  by_cases hbinary : e.kind = .binary
  · cases h with
    | @binary op o left right leftType rightType hop hleft hright halike hwanted hadmits p =>
      cases hcomparison : Comparison.ofSymbol? op with
      | none => exact hvalue hunary fun _ => ⟨op, rfl, hcomparison⟩
      | some c =>
        rw [lowerBranch_compare _ _ _ hcomparison]
        exact (hleft.succeeds_lower _).bind fun _ _ => (hright.succeeds_lower _).bind fun _ _ => .pure trivial
    | _ => cases hbinary
  · exact hvalue hunary fun hkind => absurd hkind hbinary

end Typed

namespace Context
variable {s : Context} {name : String} {value : Node} {target : Ty}
open Lower SymbolTable

theorem Names.hasVariable_of_strict (hstrict : s.strict = true) (h : s.Names name) : s.HasVariable name :=
  h.resolve_right fun himport => by simp [hstrict] at himport

/-- A variable takes what may be assigned to it. -/
theorem Assigns.succeeds_lowerAssign (hname : s.HasVariable name) (h : s.Assigns target value) :
    Succeeds (s.table.lowerAssign s.method name value) fun _ => True := by
  obtain ⟨type, hvalue⟩ := h.exists_typed
  unfold lowerAssign
  cases hbinding : s.table.binding? (some s.method) name with
  | some v =>
    obtain ⟨update, hupdate⟩ := hvalue.exists_selfUpdate name v.type
    refine .known hupdate ?_
    cases update with
    | some update => exact .pure trivial
    | none => exact (hvalue.succeeds_lower _).bind fun _ _ => .pure trivial
  | none =>
    cases hfield : s.table.field? name with
    | some f => exact (hvalue.succeeds_lower _).bind fun _ _ => .pure trivial
    | none => exact absurd hname (by simp [HasVariable, hbinding, hfield])

end Context

namespace Fits
variable {s : Context} {returnType : Ty} {n : Node}
open Lower SymbolTable

theorem succeeds_lowerSequence {ns : List Node}
    (h : ∀ n ∈ ns, Succeeds (s.table.lowerStatement s.method returnType n) fun _ => True) :
    Succeeds (s.table.lowerSequence s.method returnType ns) fun _ => True := by
  induction ns with
  | nil => exact .pure trivial
  | cons n ns ih =>
    obtain ⟨hn, hns⟩ := List.forall_mem_cons.1 h
    rw [lowerSequence]
    exact hn.bind fun _ _ => (ih hns).bind fun _ _ => .pure trivial

/-- A statement that fits strictly is lowered, whatever names have been given out. -/
theorem succeeds_lowerStatement (hstrict : s.strict = true) (h : Fits s returnType n) :
    Succeeds (s.table.lowerStatement s.method returnType n) fun _ => True := by
  induction h with
  | block hparts p ih =>
    rw [lowerStatement]
    exact succeeds_lowerSequence ih
  | exprStmt he p =>
    rw [lowerStatement]
    exact (he.succeeds_lower _).bind fun _ _ => .pure trivial
  | assign hname hvalue p q =>
    rw [lowerStatement]
    exact hvalue.succeeds_lowerAssign (hname.hasVariable_of_strict hstrict)
  | arrayAssign hname hindex hvalue htype hint hfit p q =>
    rw [lowerStatement]
    refine ((Typed.varRef hname p).succeeds_lower _).bind fun array harray => (hindex.succeeds_lower _).bind fun _ _ => ?_
    obtain ⟨arrayName, harrayName⟩ := harray htype (by simp [Ty.intArray, Ty.void])
    obtain ⟨type, htype⟩ := Element.exists_type_of_name harrayName
    exact .known htype ((hvalue.succeeds_lower _).bind fun _ _ => .known harrayName (.pure trivial))
  | returnNothing hvoid p =>
    rw [lowerStatement]
    exact .pure trivial
  | returnValue hvalue hvoid hfit p =>
    rw [lowerStatement]
    exact (hvalue.succeeds_lower _).bind fun _ _ => .pure trivial
  | ifThen hc hboolean ht p ih =>
    rw [lowerStatement]
    exact succeeds_label.bind fun _ _ => (hc.succeeds_lowerBranch _).bind fun _ _ => ih.bind fun _ _ => .pure trivial
  | ifElse hc hboolean ht he p ih ihe =>
    rw [lowerStatement]
    exact succeeds_label.bind fun _ _ => (hc.succeeds_lowerBranch _).bind fun _ _ => ihe.bind fun _ _ =>
      ih.bind fun _ _ => .pure trivial
  | whileLoop hc hboolean hb p ih =>
    rw [lowerStatement]
    exact succeeds_label.bind fun _ _ => ih.bind fun _ _ => (hc.succeeds_lowerBranch _).bind fun _ _ => .pure trivial

end Fits

/-! ## Methods -/

namespace CodeMethod
variable {m m₁ : CodeMethod} {is : List Instruction}

/-- A method of whole instructions can be ended. -/
theorem exists_finish (h : ∀ i ∈ m.code, i.isWhole = true) : ∃ m', m.finish = .ok m' := by
  have hassign {m : CodeMethod} (h : ∀ i ∈ m.code, i.isWhole = true) : ∃ m', m.assignSlots = .ok m' := by
    obtain ⟨names, hnames⟩ : ∃ names, m.code.mapM mentions = .ok names := exists_mapM_eq_ok fun i hi => by
      obtain ⟨ds, hds⟩ := Instruction.exists_defs (h i hi)
      obtain ⟨us, hus⟩ := Instruction.exists_uses (h i hi)
      exact ⟨ds ++ us, by rw [mentions, hds, hus]; rfl⟩
    exact ⟨_, by rw [assignSlots, hnames]; rfl⟩
  unfold finish
  split
  · exact hassign h
  · refine hassign fun i hi => ?_
    rcases List.mem_append.1 hi with hi | hi
    · exact h i hi
    · exact List.mem_singleton.1 hi ▸ rfl

end CodeMethod

namespace Context
variable {s : Context} {m : MethodInfo} {P : Node → Prop} {d : Node}
open Lower SymbolTable

/-- A method whose statements fit strictly is lowered, if its instructions have all their operands. -/
theorem Holds.succeeds_lowerMethod (hs : s.Proper) (hstrict : s.strict = true) (hd : s.Holds m P d)
    (hnormal : ∀ n, P n → s.IsNormal n) (hwhole : ∀ i, s.Makes P m.returnType i → i.isWhole = true) :
    Succeeds (s.table.lowerMethod d) fun _ => True := by
  have hmethod : s.table.method m.name = .ok m := by rw [SymbolTable.method, hd.found]
  have hcode : Succeeds (s.table.lowerSequence m.name m.returnType d.statements) fun is =>
      (∀ i ∈ is, s.Makes P m.returnType i) ∧ (labelsOf is).Nodup := by
    have hfits := fun n hn => hd.fits (n := n) hn
    rw [← hd.method]
    refine ((Fits.succeeds_lowerSequence fun n hn => (hfits n hn).1.succeeds_lowerStatement hstrict).and
      (Fits.yields_makes_lowerSequence fun n hn =>
        (hfits n hn).1.yields_makes hs (hfits n hn).2 ((hfits n hn).2.imp hnormal))).imp (fun _ h => h.2) |>.and ?_
    intro ns is ns' hrun
    have hlabelled : From ns.nextLabel (s.table.lowerSequence s.method m.returnType d.statements) _ :=
      from_lowerSequence fun n _ k => from_lowerStatement n k
    have his := hlabelled ns rfl
    rw [hrun] at his
    exact his.nodup
  unfold lowerMethod
  refine .known hd.name (.known hmethod ((succeeds_modify _).bind fun _ _ => hcode.bind fun is his => ?_))
  -- the method that the code is added to has no labels yet
  have hempty : (emptyMethod m.name m).HasLabels [] := ⟨rfl, List.nodup_nil, by simp [emptyMethod]⟩
  obtain ⟨m₁, hextend, -, hadded⟩ := hempty.extend is (by simpa using his.2)
  obtain ⟨code, hfinish⟩ := CodeMethod.exists_finish (m := m₁) fun i hi => by
    have hmem : i ∈ is ∧ CodeMethod.isLabel i = false := by simpa [emptyMethod, hadded] using hi
    exact hwhole i (his.1 i hmem.1)
  exact .known hextend (.lift hfinish trivial)

end Context

/-! ## Programs -/

/-- A program is lowered if its methods are. -/
theorem Node.HasClass.exists_generate {Q : Node → Prop} {imports : List Node} {c : Node} {p : Position}
    {table : SymbolTable} (h : HasClass Q imports c)
    (hmethod : ∀ d, d.kind = .methodDecl → Q d → Lower.Succeeds (table.lowerMethod d) fun _ => True) :
    ∃ code, table.generate ⟨.program, {}, imports ++ [c], p⟩ = .ok code := by
  have hprogram : Lower.Succeeds (table.lowerProgram ⟨.program, {}, imports ++ [c], p⟩) fun _ => True := by
    refine .known (classDecl_program h.leaves h.kind) ((Lower.succeeds_modify _).bind fun _ _ => ?_)
    refine (Lower.Succeeds.mapM (P := fun _ => True) fun d hd => ?_).bind fun _ _ => .pure trivial
    obtain ⟨hmem, hkind⟩ := Accepted.mem_childrenOf hd
    rcases h.members d hmem with hdecl | hd
    · exact absurd hkind hdecl.kind_ne.1
    · exact hmethod d hd.1 hd.2
  obtain ⟨code, ns, hrun, -⟩ := hprogram {}
  exact ⟨code, by rw [SymbolTable.generate, hrun]; rfl⟩

end JmmCompiler

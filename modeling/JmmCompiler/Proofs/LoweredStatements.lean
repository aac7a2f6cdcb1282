import JmmCompiler.Proofs.LoweredCode
import JmmCompiler.Proofs.ReturnPaths
import JmmCompiler.Proofs.StagedMethods
/-! The code of statements and of methods. Every instruction of a method that no check objects to is of one of the forms
that are made of the values of its expressions, and at the end there may be one without effect. -/
namespace JmmCompiler

namespace Lower

theorem Succeeds.yields {α : Type} {x : Lower α} {P : α → Prop} (h : Succeeds x P) : Yields x P := by
  intro ns a ns' hrun
  obtain ⟨b, ns₁, hrun', hb⟩ := h ns
  obtain ⟨rfl, -⟩ := Prod.mk.inj (Except.ok.inj (hrun.symm.trans hrun'))
  exact hb

end Lower

namespace Typed
variable {s : Context} {P : Node → Prop} (returnType : Ty) {type : Ty} {e : Node} {name : String}
open Lower SymbolTable

/-- Every typed expression is lowered to its value, where it is lowered at all. -/
theorem yields_values (hs : s.Proper) (h : Typed s e type) (hP : e.Everywhere P) (hnormal : e.Everywhere s.IsNormal)
    (expected : Option Ty) : Yields (s.table.lower s.method expected e) (s.Values P returnType expected e type) :=
  (h.succeeds_values hs hP hnormal expected).yields

/-- A condition is tested by a comparison, by a negation or by its truth. -/
theorem yields_makes_lowerBranch (hs : s.Proper) (h : Typed s e type) (hboolean : Ty.assignable .boolean type = true)
    (hP : e.Everywhere P) (hnormal : e.Everywhere s.IsNormal) (label : String) :
    Yields (s.table.lowerBranch s.method e label) fun is => ∀ i ∈ is, s.Makes P returnType i := by
  intro ns is ns' hrun
  cases leaves_testing e label ns is ns' hrun with
  | comparison hkind hop hcompares hleft hright hl hr =>
    cases h with
    | binary hoperator hleft' hright' halike hwanted hadmits p =>
      obtain rfl := Except.ok.inj hop
      obtain rfl := Except.ok.inj hleft
      obtain rfl := Except.ok.inj hright
      obtain ⟨c, hcomparison⟩ := Option.isSome_iff_exists.1 hcompares
      obtain rfl := Option.some.inj (hoperator.symm.trans (Comparison.operator_ofSymbol hcomparison))
      have hl := (hleft'.yields_values returnType hs (hP.child (by simp) hleft'.kind_ne)
        (hnormal.child (by simp) hleft'.kind_ne) _).of_run hl
      have hr := (hright'.yields_values returnType hs (hP.child (by simp) hright'.kind_ne)
        (hnormal.child (by simp) hright'.kind_ne) _).of_run hr
      have hordering (hordering : c.isOrdering = true) := hwanted .int (by simp [Operator.operandType?, hordering])
      simpa [or_imp, forall_and] using
        ⟨hl.2, hr.2, .test label (.comparison hoperator hl.1 hr.1 halike hordering hadmits)⟩
    | _ => cases hkind
  | negation hkind hop hoperand hv =>
    cases h with
    | unary hoperand' hbool p =>
      obtain rfl := Except.ok.inj hoperand
      have hv := (hoperand'.yields_values returnType hs (hP.child (by simp) hoperand'.kind_ne)
        (hnormal.child (by simp) hoperand'.kind_ne) _).of_run hv
      simpa [or_imp, forall_and] using ⟨hv.2, .test label (.negation hv.1 hbool)⟩
    | _ => cases hkind
  | value hbinary hunary hv =>
    have hv := (h.yields_values returnType hs hP hnormal _).of_run hv
    simpa [or_imp, forall_and] using ⟨hv.2, .test label (.truth hv.1 hboolean)⟩

/-- A literal is its own value. -/
theorem operand_of_literal (h : Typed s e type) (hP : e.Everywhere P) {expected : Option Ty} {literal : Element}
    (hliteral : literalElement? e = .ok (some literal)) : s.Operand P expected e type literal := by
  cases h with
  | intLiteral i p =>
    obtain rfl : .literal i .int = literal := Option.some.inj (Except.ok.inj hliteral)
    exact ⟨.intLiteral i p, hP, .int i⟩
  | boolLiteral b p =>
    obtain rfl : .literal (if b then 1 else 0) .boolean = literal := Option.some.inj (Except.ok.inj hliteral)
    exact ⟨.boolLiteral b p, hP, .boolean b⟩
  | _ => cases hliteral

/-- `x = x op literal` updates a variable. -/
theorem makes_update (hs : s.Proper) {v : Symbol} (hname : s.table.binding? (some s.method) name = some v)
    (hassigns : s.Assigns v.type e) (hP : e.Everywhere P) {update : Instruction}
    (hupdate : selfUpdate? name v.type e = .ok (some update)) : s.Makes P returnType (.assign (.var name v.type) update) := by
  have hkind : e.kind = .binary := by
    by_contra hkind
    simp [selfUpdate?, hkind, pure, Except.pure] at hupdate
  cases hassigns with
  | elementwise hvalue hliteral => cases hliteral.symm.trans hkind
  | whole hvalue hfit =>
    cases hvalue with
    | @binary op o left right leftType rightType hop hleft hright halike hwanted hadmits p =>
      rw [selfUpdate?_binary name v.type hop] at hupdate
      have hplain : ∀ c, o ≠ .comparison c := by
        rintro c rfl
        cases hupdate
      have hparts : left.kind = .varRef ∧ left.name = .ok name ∧ ∃ literal, literalElement? right = .ok (some literal) ∧
          update = .binary op (.var name v.type) literal v.type := by
        have hrest : (if left.kind ≠ .varRef then .ok none else do
            if (← left.name) ≠ name then return none
            return (← literalElement? right).map fun literal => .binary op (.var name v.type) literal v.type :
              Except Failure (Option Instruction)) = .ok (some update) := by
          cases o with
          | comparison c => cases hupdate
          | _ => exact hupdate
        split at hrest
        · cases hrest
        rename_i hvariable
        rw [bind_eq_ok] at hrest
        obtain ⟨variableName, hvariableName, hrest⟩ := hrest
        split at hrest
        · cases hrest
        rename_i hsame
        simp only [bind_eq_ok, pure_eq_ok, Option.map_eq_some_iff] at hrest
        obtain ⟨found, hfound, literal, rfl, rfl⟩ := hrest
        exact ⟨not_not.1 hvariable, by rw [hvariableName, not_not.1 hsame], literal, hfound, rfl⟩
      obtain ⟨hvariable, hleftName, literal, hliteral, rfl⟩ := hparts
      have hleftType : leftType = v.type := by
        cases hleft with
        | varRef h p =>
          obtain rfl := Except.ok.inj hleftName
          exact hs.unshadowed.variableType_binding hname
        | _ => cases hvariable
      exact .update hname hop hplain (hright.operand_of_literal (hP.child (by simp) hright.kind_ne) hliteral)
        (hleftType ▸ hwanted) hfit
    | _ => cases hkind

end Typed

namespace Context.Assigns
variable {s : Context} {P : Node → Prop} {returnType target : Ty} {value : Node} {name : String}
open Lower SymbolTable

/-- An assignment to a name that is a variable writes the variable. -/
theorem yields_makes_lowerAssign (hs : s.Proper) (hname : s.Names name)
    (h : s.Assigns (s.variableType name) value) {p q : Position}
    (hnode : P ⟨.assign, {}, [⟨.varRef, ⟨[("name", .text name)]⟩, [], p⟩, value], q⟩) (hP : value.Everywhere P)
    (hnormal : value.Everywhere s.IsNormal) :
    Yields (s.table.lowerAssign s.method name value) fun is => ∀ i ∈ is, s.Makes P returnType i := by
  obtain ⟨type, htyped⟩ := h.exists_typed
  intro ns is ns' hrun
  cases leaves_assigning name value ns is ns' hrun with
  | @update v _ hbinding hupdate =>
    have hassigns : s.Assigns v.type value := hs.unshadowed.variableType_binding hbinding ▸ h
    simpa using Typed.makes_update returnType hs hbinding hassigns hP hupdate
  | @binding v _ _ hbinding hupdate hv =>
    have hassigns : s.Assigns v.type value := hs.unshadowed.variableType_binding hbinding ▸ h
    have hv := (htyped.yields_values returnType hs hP hnormal _).of_run hv
    simpa [or_imp, forall_and] using ⟨hv.2, .assign hnode hbinding hv.1 hassigns⟩
  | @field f _ _ hbinding hfield hv =>
    have hinstance : s.isStatic = false := by
      rcases hname with (hvariable | hvariable) | ⟨-, -, hnone, -⟩
      · simp [hbinding] at hvariable
      · exact hvariable.2
      · simp [hfield] at hnone
    have hassigns : s.Assigns f.type value := Context.variableType_field hfield ▸ h
    have hv := (htyped.yields_values returnType hs hP hnormal _).of_run hv
    simpa [or_imp, forall_and] using ⟨hv.2, .putField hnode hfield hinstance hv.1 hassigns⟩

end Context.Assigns

namespace Fits
variable {s : Context} {P : Node → Prop} {returnType : Ty} {n : Node}
open Lower SymbolTable

theorem yields_makes_lowerSequence {ns : List Node}
    (h : ∀ n ∈ ns, Yields (s.table.lowerStatement s.method returnType n) fun is => ∀ i ∈ is, s.Makes P returnType i) :
    Yields (s.table.lowerSequence s.method returnType ns) fun is => ∀ i ∈ is, s.Makes P returnType i := by
  induction ns with
  | nil => exact .pure (by simp)
  | cons n ns ih =>
    obtain ⟨hn, hns⟩ := List.forall_mem_cons.1 h
    rw [lowerSequence]
    exact hn.bind fun first hfirst => (ih hns).bind fun rest hrest =>
      .pure (by simpa [or_imp, forall_and] using ⟨hfirst, hrest⟩)

/-- A store goes to an element of an array, and what is stored is wanted as its elements. -/
theorem yields_makes_lowerStore {name : String} {p : Position} {index value : Node} {indexType valueType : Ty}
    (hs : s.Proper) (hname : s.Names name) (hindex : Typed s index indexType) (hvalue : Typed s value valueType)
    (htype : s.variableType name = .any ∨ (s.variableType name).isArray = true)
    (hint : Ty.assignable .int indexType = true)
    (hfit : (s.variableType name).isArray = true → Ty.assignable (s.variableType name).base valueType = true)
    (hP : ∀ c ∈ [⟨.varRef, ⟨[("name", .text name)]⟩, [], p⟩, index, value], c.Everywhere P)
    (hnormal : ∀ c ∈ [⟨.varRef, ⟨[("name", .text name)]⟩, [], p⟩, index, value], c.Everywhere s.IsNormal) :
    Yields (s.table.lowerStore s.method ⟨.varRef, ⟨[("name", .text name)]⟩, [], p⟩ index value)
      fun is => ∀ i ∈ is, s.Makes P returnType i := by
  have harray := Typed.varRef hname p
  have hknown (hstrict : s.strict = true) : s.variableType name ≠ .any :=
    hs.ne_any (hname.resolve_right fun himport => by simp [himport.1] at hstrict) hstrict
  intro ns is ns' hrun
  cases leaves_storing _ index value ns is ns' hrun with
  | @intro a i v elementType arrayName _ _ _ ha hi helement hv harrayName =>
    have ha := (harray.yields_values returnType hs (hP _ (by simp)) (hnormal _ (by simp)) _).of_run ha
    have hi := (hindex.yields_values returnType hs (hP _ (by simp)) (hnormal _ (by simp)) _).of_run hi
    have hv := (hvalue.yields_values returnType hs (hP _ (by simp)) (hnormal _ (by simp)) _).of_run hv
    have hstore : s.Makes P returnType (.assign (.item arrayName elementType.base i.code) (.single v.code)) :=
      .store ha.1 htype hknown harrayName helement hi.1 hint hv.1 hfit
    simpa [or_imp, forall_and] using ⟨ha.2, hi.2, hv.2, hstore⟩

/-- Every instruction of a statement that fits is of a known form. -/
theorem yields_makes (hs : s.Proper) (h : Fits s returnType n) (hP : n.Everywhere P)
    (hnormal : n.Everywhere s.IsNormal) :
    Yields (s.table.lowerStatement s.method returnType n) fun is => ∀ i ∈ is, s.Makes P returnType i := by
  induction h with
  | block hparts p ih =>
    rw [lowerStatement]
    exact yields_makes_lowerSequence fun n hn =>
      ih n hn (hP.child hn (hparts n hn).kind_ne) (hnormal.child hn (hparts n hn).kind_ne)
  | exprStmt he p =>
    rw [lowerStatement]
    exact (he.yields_values returnType hs (hP.child (by simp) he.kind_ne) (hnormal.child (by simp) he.kind_ne) _).bind
      fun value hvalue => .pure hvalue.2
  | @assign name value hname hvalue p q =>
    obtain ⟨type, htyped⟩ := hvalue.exists_typed
    rw [lowerStatement]
    exact hvalue.yields_makes_lowerAssign hs hname hP.here (hP.child (by simp) htyped.kind_ne)
      (hnormal.child (by simp) htyped.kind_ne)
  | @arrayAssign name index value indexType valueType hname hindex hvalue htype hint hfit p q =>
    have hkinds : ∀ c ∈ [⟨.varRef, ⟨[("name", .text name)]⟩, [], p⟩, index, value], c.kind ≠ .methodDecl := by
      simpa using ⟨hindex.kind_ne, hvalue.kind_ne⟩
    rw [lowerStatement]
    exact yields_makes_lowerStore hs hname hindex hvalue htype hint hfit (fun c hc => hP.child hc (hkinds c hc))
      fun c hc => hnormal.child hc (hkinds c hc)
  | returnNothing hvoid p =>
    rw [lowerStatement]
    exact .pure (by simpa using Context.Makes.retNothing hvoid)
  | returnValue hvalue hvoid hfit p =>
    rw [lowerStatement]
    refine (hvalue.yields_values returnType hs (hP.child (by simp) hvalue.kind_ne)
      (hnormal.child (by simp) hvalue.kind_ne) _).bind
      fun value hv => .pure ?_
    simpa [or_imp, forall_and] using ⟨hv.2, .ret hP.here hv.1 hvoid hfit⟩
  | ifThen hc hboolean ht p ih =>
    have hkinds := And.intro hc.kind_ne ht.kind_ne
    rw [lowerStatement]
    refine .last fun number => (hc.yields_makes_lowerBranch returnType hs hboolean (hP.child (by simp) hkinds.1)
      (hnormal.child (by simp) hkinds.1) _).bind fun test htest =>
        (ih (hP.child (by simp) hkinds.2) (hnormal.child (by simp) hkinds.2)).bind fun thenCode hthen => .pure ?_
    simpa [or_imp, forall_and] using ⟨htest, .goto _, .label _, hthen, .label _⟩
  | ifElse hc hboolean ht he p ih ihe =>
    have hkinds := And.intro hc.kind_ne (And.intro ht.kind_ne he.kind_ne)
    rw [lowerStatement]
    refine .last fun number => (hc.yields_makes_lowerBranch returnType hs hboolean (hP.child (by simp) hkinds.1)
      (hnormal.child (by simp) hkinds.1) _).bind fun test htest =>
        (ihe (hP.child (by simp) hkinds.2.2) (hnormal.child (by simp) hkinds.2.2)).bind fun elseCode helse =>
          (ih (hP.child (by simp) hkinds.2.1) (hnormal.child (by simp) hkinds.2.1)).bind fun thenCode hthen => .pure ?_
    simpa [or_imp, forall_and] using ⟨htest, .label _, helse, .goto _, .label _, hthen, .label _⟩
  | whileLoop hc hboolean hb p ih =>
    have hkinds := And.intro hc.kind_ne hb.kind_ne
    rw [lowerStatement]
    refine .last fun number => (ih (hP.child (by simp) hkinds.2) (hnormal.child (by simp) hkinds.2)).bind fun body hbody =>
      (hc.yields_makes_lowerBranch returnType hs hboolean (hP.child (by simp) hkinds.1)
        (hnormal.child (by simp) hkinds.1) _).bind fun test htest => .pure ?_
    simpa [or_imp, forall_and] using ⟨.goto _, .label _, hbody, .label _, htest, .label _⟩

end Fits

/-- Every instruction of a method is of a known form, but for one without effect that may be at its end. -/
theorem Context.Holds.makes {s : Context} {m : MethodInfo} {P : Node → Prop} {d : Node} {code : CodeMethod}
    {ns ns' : JmmCompiler.Names}
    (hs : s.Proper) (hd : s.Holds m P d) (hnormal : ∀ n, P n → s.IsNormal n)
    (h : (s.table.lowerMethod d).run ns = .ok (code, ns')) :
    code.IsFor m ∧ ∀ i ∈ code.code, s.Makes P m.returnType i ∨ i = .nop := by
  obtain ⟨is, m₁, ns₁, ns₂, his, hextend, hfinish⟩ := SymbolTable.lowerMethod_of_found hd.name hd.found h
  obtain ⟨hextended, hcode₁⟩ := (SymbolTable.isFor_emptyMethod m).extend hextend
  obtain ⟨hfinished, hcode₂⟩ := hextended.finish hfinish
  have hmakes : ∀ i ∈ is, s.Makes P m.returnType i :=
    Fits.yields_makes_lowerSequence (fun n hn => by
      obtain ⟨hfits, hevery⟩ := hd.fits hn
      exact hfits.yields_makes hs hevery (hevery.imp hnormal)) _ _ _ (hd.method ▸ his)
  exact ⟨hfinished, fun i hi => (hcode₂ i hi).imp_left fun hi =>
    hmakes i ((hcode₁ i hi).resolve_left (by simp [SymbolTable.emptyMethod]))⟩

/-- The code of a program that no check objects to, with a property of its nodes that no stage takes away. -/
theorem Node.Accepted.makes {config : Config} {root tree : Node} {table : SymbolTable} {s : MethodInfo → Context}
    {P : MethodInfo → Node → Prop} {code : CodeProgram} (h : root.Accepted table)
    (hs : ∀ m, table.method? m.name = some m → (s m).Prepares root table m config.optimize (P m) ∧ (s m).Proper)
    (htree : (Compile.prepare config table root).events.1 = .ok tree) (hcode : table.generate tree = .ok code) :
    ∀ m ∈ code.methods, ∃ info, table.method? info.name = some info ∧ m.IsFor info ∧
      ∀ i ∈ m.code, (s info).Makes (fun n => P info n ∧ (s info).IsNormal n) info.returnType i ∨ i = .nop := by
  intro m hm
  have hprepared := h.holds_prepared (fun info hinfo => (hs info hinfo).1) htree
  obtain ⟨d, -, ⟨info, hinfo, hd⟩, ns, ns', hlowered⟩ := SymbolTable.exists_lowered hprepared hcode hm
  obtain ⟨hprepares, hproper⟩ := hs info hinfo
  exact ⟨info, hinfo, hd.makes hproper (fun _ hn => hn.2) (hprepares.table_eq ▸ hlowered)⟩

end JmmCompiler

import Mathlib
import JmmCompiler.Proofs.KnownTypes
import JmmCompiler.Proofs.SafeStatement
/-! The checks are sound: a program without reports does not go wrong. -/
namespace JmmCompiler

/-- Programs without imports that write known types only, hide no field, and take no value of a void call. -/
structure Node.IsPlain (root : Node) (t : SymbolTable) : Prop where
  imports : t.imports = []
  hidden : ∀ m ∈ t.methods, ∀ v ∈ m.params ++ m.locals, t.field? v.name = none
  written : ∀ type, root.Writes type → type.IsKnown
  values : ∀ v ∈ root.preorder, v.2.kind = .binary ∨ v.2.kind = .arrayLiteral →
    ∀ decl name, root.methodAt? v.1 v.2 = some decl → decl.name = .ok name →
      ∀ c ∈ v.2.children, t.isVoidCall name c = false

theorem Symbol.lookup?_of_zip {params : List Symbol} {args : List Datum} {name : String} {p : Symbol} {v : Datum}
    (h : (params.zip args).find? (·.1.name = name) = some (p, v)) : lookup? params name = some p := by
  induction params generalizing args with
  | nil => cases h
  | cons q params ih =>
    cases args with
    | nil => cases h
    | cons a args =>
      by_cases hname : q.name = name
      · rw [List.zip_cons_cons, List.find?_cons_of_pos (by simpa using hname)] at h
        obtain ⟨rfl, -⟩ := Prod.mk.inj (Option.some.inj h)
        simp [lookup?, hname]
      · rw [List.zip_cons_cons, List.find?_cons_of_neg (by simpa using hname)] at h
        rw [lookup?, List.find?_cons_of_neg (by simpa using hname)]
        exact ih h

/-- A method starts with parameters of their types. -/
theorem Context.Settled.serves_frame {table : SymbolTable} {m : MethodInfo} {heap : Heap} {self : Option Datum}
    {args : List Datum} (hs : (table.context m).strictly.Settled) (hm : table.method? m.name = some m)
    (hargs : m.receives table heap args = true)
    (hself : m.isStatic = false → ∃ v, self = some v ∧ v.isOf table heap table.classType = true) :
    (table.context m).strictly.Serves heap (m.frame self args) where
  self hinstance := by
    have hinstance : m.isStatic = false := hinstance
    obtain ⟨v, hv, hof⟩ := hself hinstance
    exact ⟨v, by simpa [MethodInfo.frame, hinstance] using hv, hof⟩
  vars name v hbinding hv := by
    obtain ⟨⟨p, v'⟩, hfound, rfl⟩ := Option.map_eq_some_iff.1 hv
    have hfield : table.field? name = none := hs.hidden name hbinding
    have hparam : Symbol.lookup? m.params name = some p := Symbol.lookup?_of_zip hfound
    have htype : (table.context m).strictly.variableType name = p.type := by
      simp [Context.variableType, SymbolTable.variableType?, Context.strictly, SymbolTable.context, SymbolTable.param?,
        hm, hfield, hparam]
    rw [htype]
    exact (List.forall₂_iff_zip.1 (MethodInfo.receives_iff.1 hargs)).2 (List.mem_of_find?_eq_some hfound)

namespace Node.Accepted
variable {root n decl : Node} {table : SymbolTable} {m : MethodInfo} {name : String} {path : Path}

/-- The declaration of a method is found by its name. -/
theorem exists_declaration? (h : root.Accepted table) (hm : table.method? name = some m) :
    m.name = name ∧ ∃ path decl, root.declaration? name = some decl ∧ root.at? path = some decl ∧
      decl.kind = .methodDecl ∧ table.Declares decl m := by
  have hname : m.name = name := by simpa using List.find?_some hm
  obtain ⟨i, c, hc, hat, -⟩ := h.shape.exists_class
  obtain ⟨decl, hdecl, hmade⟩ := exists_of_mem_mapM (h.table_eq hc).2 (List.mem_of_find?_eq_some hm)
  have hsome : ((c.childrenOf [.methodDecl]).find? fun d => d.name.toOption = some name).isSome := by
    rw [List.find?_isSome]
    exact ⟨decl, hdecl, by simp [(h.declares hc hdecl hmade).name, hname, Except.toOption]⟩
  obtain ⟨found, hfound⟩ := Option.isSome_iff_exists.1 hsome
  -- another declaration of the name would make another method of it
  have hmem := List.mem_of_find?_eq_some hfound
  obtain ⟨m', hm', hmade'⟩ := exists_of_mapM (h.table_eq hc).2 hmem
  have hdeclares := h.declares hc hmem hmade'
  have hname' : m'.name = name := by
    have hname' := List.find?_some hfound
    simpa [hdeclares.name, Except.toOption] using hname'
  have hsame : m' = m := by
    have hfound' := hdeclares.found
    rw [hname', hm] at hfound'
    exact (Option.some.inj hfound').symm
  obtain ⟨path, hpath⟩ := exists_at?_child hat (mem_childrenOf hmem).1
  refine ⟨hname, path, found, ?_, hpath, (mem_childrenOf hmem).2, hsame ▸ hdeclares⟩
  rw [declaration?, hc]
  exact hfound

/-- All of a method of a plain program is tame. -/
theorem tame (hplain : root.IsPlain table) (hat : root.at? path = some decl)
    (hkind : decl.kind = .methodDecl) (hdeclares : table.Declares decl m) (hn : n ∈ decl.statements) :
    n.Everywhere (table.context m).Tame := by
  have hvisited := (everywhere_visited hat hkind).child (List.mem_of_mem_filter hn)
    (hdeclares.shaped n hn).kind_ne
  refine (hvisited.and (hdeclares.shaped n hn).everywhere_isPart).imp ?_
  rintro n ⟨⟨p, hp, hmethod⟩, hpart⟩
  have himports : table.imports = [] := hplain.imports
  refine ⟨fun hvalues => ?_, fun hne => absurd himports hne, fun c hc ⟨name, _, _, himport⟩ => ?_,
    fun type htype => ?_, fun hnew type htype => ?_, fun hne => absurd himports hne⟩
  · exact hplain.values (p, n) hp hvalues decl m.name hmethod hdeclares.name
  · exact himport.imports_ne_nil himports
  · exact hplain.written type ⟨(p, n), hp, htype⟩
  · exact isReference_of_newObject hpart hnew htype

/-- Methods of a plain program are settled contexts. -/
theorem settled (h : root.Accepted table) (hplain : root.IsPlain table) (hclass : table.className ≠ "any")
    (hm : table.method? m.name = some m) :
    (table.context m).strictly.Settled where
  strict := rfl
  imports := hplain.imports
  declared :=
    have hdeclared := h.declared hclass hplain.written hm
    ⟨hdeclared.names, hdeclared.results, hdeclared.known, hdeclared.class_ne_void⟩
  regular := h.regular
  hidden name hbinding := by
    obtain ⟨v, hv⟩ := Option.isSome_iff_exists.1 hbinding
    have hmem : v ∈ m.params ++ m.locals ∧ v.name = name := by
      simp only [Context.strictly, SymbolTable.context, SymbolTable.binding?, SymbolTable.param?, SymbolTable.local?,
        Option.bind_some, hm] at hv
      rcases Option.or_eq_some_iff.1 hv with hv | ⟨-, hv⟩
      · exact ⟨List.mem_append_left _ (List.mem_of_find?_eq_some hv), by simpa using List.find?_some hv⟩
      · exact ⟨List.mem_append_right _ (List.mem_of_find?_eq_some hv), by simpa using List.find?_some hv⟩
    exact hmem.2 ▸ hplain.hidden m (List.mem_of_find?_eq_some hm) v hmem.1
  params name m hm p hp := by
    have hmethod := List.mem_of_find?_eq_some hm
    obtain ⟨path, decl, -, -, hdeclares⟩ := h.exists_declaration hmethod
    have hp := List.mem_append_left m.locals hp
    exact ⟨hplain.written _ (h.writes_variable hmethod hp), hdeclares.values p hp⟩

/-- Methods of a plain program are safe to invoke. -/
theorem invokes (h : root.Accepted table) (hplain : root.IsPlain table) (hclass : table.className ≠ "any")
    (fuel : Nat) : table.Invokes (root.invoke table fuel) := by
  induction fuel with
  | zero => exact fun name m heap self args hm hheap hargs hself => .throw (by decide)
  | succ fuel ih =>
    intro name m heap self args hm hheap hargs hself
    obtain ⟨rfl, path, decl, hdecl, hat, hkind, hdeclares⟩ := h.exists_declaration? hm
    have hsettled := h.settled hplain hclass hm
    have hreturn : m.returnType.IsKnown := hsettled.declared.results m.name m hm
    have hfits (n : Node) (hn : n ∈ decl.statements) : Fits (table.context m).strictly m.returnType n :=
      (hdeclares.fits hn).strictly (h.declared hclass hplain.written hm)
        (tame hplain hat hkind hdeclares hn)
    have hbody : (table.context m).strictly.Proceeds m.returnType (anyCompletes decl.statements)
        (Step.sequence (decl.statements.map (table.step m.name (root.invoke table fuel) fuel))) :=
      Context.proceeds_sequence fun n hn => (hfits n hn).proceeds hsettled ih hreturn
    have hframe : (table.context m).strictly.Serves heap (m.frame self args) :=
      hsettled.serves_frame hm hargs hself
    simp only [invoke, hm, hdecl]
    refine .get ?_
    rw [if_pos hargs]
    refine (hbody heap _ hheap hframe).bind fun heap₁ step hgrows₁ htyped₁ hstep => ?_
    cases step with
    | returned v => exact .pure htyped₁ hstep
    | next frame =>
      by_cases hvoid : m.returnType = .void
      · simp only [hvoid, if_true]
        exact .pure htyped₁ rfl
      · -- the body of a method that owes a value returns
        have hnot := hstep.2
        rw [hdeclares.completes hvoid] at hnot
        cases hnot

end Node.Accepted

namespace Node

/-- Whether all types that a program writes are known, and no operand or element is a void call. -/
def keepsToValues (root : Node) (t : SymbolTable) : Bool :=
  root.preorder.all fun (path, n) =>
    n.writtenType?.all (fun type => decide type.IsKnown) &&
      (!(n.kind = .binary || n.kind = .arrayLiteral) ||
        ((root.methodAt? path n).bind fun decl => decl.name.toOption).all fun name =>
          n.children.all fun c => !t.isVoidCall name c)

theorem isPlain_of_keepsToValues {root : Node} {t : SymbolTable} (himports : t.imports = [])
    (hhidden : ∀ m ∈ t.methods, ∀ v ∈ m.params ++ m.locals, t.field? v.name = none)
    (h : root.keepsToValues t = true) : root.IsPlain t := by
  simp only [keepsToValues, List.all_eq_true, Bool.and_eq_true, Prod.forall] at h
  refine ⟨himports, hhidden, fun type ⟨(path, n), hv, htype⟩ => ?_,
    fun (path, n) hv hkind decl name hdecl hname c hc => ?_⟩
  · have hknown := (h path n hv).1
    simpa [show n.writtenType? = some type from htype] using hknown
  · have hcalls := (h path n hv).2
    have hkind : (decide (n.kind = .binary) || decide (n.kind = .arrayLiteral)) = true := by simpa using hkind
    have hdecl : root.methodAt? path n = some decl := hdecl
    simp only [hkind, Bool.not_true, Bool.false_or, hdecl, Option.bind_some, hname, Except.toOption,
      Option.all_some, List.all_eq_true] at hcalls
    simpa using hcalls c hc

/-- In a plain program that is analyzed without reports, and whose class has not the name of the unknown type, no
method goes wrong, no expression has a value that is not of its type, and what a method returns is of its return
type, however long it runs. -/
theorem invoke_safe {source : String} {root : Node} {table : SymbolTable}
    (hparse : Node.parse source = .ok root)
    (hanalyze : root.analyze = .ok { reports := [], table := some table })
    (hplain : root.IsPlain table) (hclass : table.className ≠ "any") {m : MethodInfo} (hm : m ∈ table.methods)
    {heap : Heap} (hheap : heap.IsTyped table) {self : Option Datum}
    (hself : m.isStatic = false → ∃ v, self = some v ∧ v.isOf table heap table.classType = true)
    {args : List Datum} (hargs : m.receives table heap args = true) (fuel : Nat) :
    Run.Safe table heap (root.invoke table fuel m.name self args) (m.returnType.Gives table) := by
  have haccepted := accepted_of_analyze hparse hanalyze
  obtain ⟨path, decl, -, -, hdeclares⟩ := haccepted.exists_declaration hm
  exact haccepted.invokes hplain hclass fuel m.name m heap self args hdeclares.found hheap hargs hself


/-- A method that gathers arguments, with an object that stands in for its superclass. -/
theorem invoke_safe_first :
    ∃ root table, Node.parse
        ("class A extends B\x7bint g(int... x)\x7bB b;b=this;return x[0];\x7d" ++
          "int f(int k)\x7breturn this.g(k,2);\x7d\x7d") = .ok root ∧
      root.analyze = .ok { reports := [], table := some table } ∧
      (runOn (root.invoke table 9 "f" (some (.ref 0)) [.int 3]) [.object "A" fun _ => .null]).1.toOption =
        some (some (.int 3)) ∧
      Run.Safe table [.object "A" fun _ => .null] (root.invoke table 9 "f" (some (.ref 0)) [.int 3])
        (Ty.int.Gives table) := by
  obtain ⟨root, hroot, hfacts⟩ := exists_of_toOption (show (Node.parse
      ("class A extends B\x7bint g(int... x)\x7bB b;b=this;return x[0];\x7d" ++
        "int f(int k)\x7breturn this.g(k,2);\x7d\x7d")).toOption.map
      (fun root => (root.analyze, (root.analyze.toOption.bind (·.table)).map fun t => (root.keepsToValues t,
        (runOn (root.invoke t 9 "f" (some (.ref 0)) [.int 3]) [.object "A" fun _ => .null]).1.toOption))) =
        some (.ok { reports := [], table := some ⟨"A", some "B", [], [],
          [⟨"g", .int, [⟨"x", .intArray⟩], [⟨"b", ⟨"B", false⟩⟩], false, false, true⟩,
            ⟨"f", .int, [⟨"k", .int⟩], [], false, false, false⟩]⟩ }, some (true, some (some (.int 3)))) by decide +kernel)
  obtain ⟨hanalyze, hrun⟩ := Prod.mk.inj hfacts
  rw [hanalyze] at hrun
  obtain ⟨hkeeps, hvalue⟩ := Prod.mk.inj (Option.some.inj hrun)
  have hplain := isPlain_of_keepsToValues rfl (by decide) hkeeps
  have hheap : Heap.IsTyped ⟨"A", some "B", [], [], [⟨"g", .int, [⟨"x", .intArray⟩], [⟨"b", ⟨"B", false⟩⟩], false,
      false, true⟩, ⟨"f", .int, [⟨"k", .int⟩], [], false, false, false⟩]⟩ [.object "A" fun _ => .null] := by
    intro address cell hcell
    obtain rfl : .object "A" (fun _ => .null) = cell := by
      simpa using List.mem_of_getElem? hcell |> List.mem_singleton.1 |> Eq.symm
    intro _ name field hfield
    cases hfield
  exact ⟨root, _, hroot, hanalyze, hvalue, invoke_safe hroot hanalyze hplain (by decide)
    (m := ⟨"f", .int, [⟨"k", .int⟩], [], false, false, false⟩) (by simp) hheap
    (fun _ => ⟨.ref 0, rfl, by decide⟩) (by decide) 9⟩

/-- A number is added to an object of a class with the name of the unknown type, and an array that is declared to
hold what is unknown holds truth values. -/
theorem unsafe_any :
    (∃ root table, Node.parse "class any\x7bint f()\x7breturn this+1;\x7d\x7d" = .ok root ∧
      root.analyze = .ok { reports := [], table := some table } ∧ root.IsPlain table ∧
      runOn (root.invoke table 9 "f" (some (.ref 0)) []) [.object "any" fun _ => .null] =
        (.error .wrong, [.object "any" fun _ => .null])) ∧
    ∃ root table, Node.parse "class A\x7bstatic int f()\x7bany[] a;a=[true];return a[0];\x7d\x7d" = .ok root ∧
      root.analyze = .ok { reports := [], table := some table } ∧
      (∀ v ∈ root.preorder, v.2.writtenType? ≠ some .any) ∧
      (runOn (root.invoke table 9 "f" none []) []).1 = .error .mistyped := by
  constructor
  · obtain ⟨root, hroot, hfacts⟩ := exists_of_toOption (show (Node.parse
        "class any\x7bint f()\x7breturn this+1;\x7d\x7d").toOption.map
        (fun root => (root.analyze, (root.analyze.toOption.bind (·.table)).map fun t => (root.keepsToValues t,
          runOn (root.invoke t 9 "f" (some (.ref 0)) []) [.object "any" fun _ => .null]))) =
          some (.ok { reports := [], table := some ⟨"any", none, [], [],
            [⟨"f", .int, [], [], false, false, false⟩]⟩ },
            some (true, (.error .wrong, [.object "any" fun _ => .null]))) by cbv)
    obtain ⟨hanalyze, hrun⟩ := Prod.mk.inj hfacts
    rw [hanalyze] at hrun
    obtain ⟨hkeeps, hvalue⟩ := Prod.mk.inj (Option.some.inj hrun)
    exact ⟨root, _, hroot, hanalyze, isPlain_of_keepsToValues rfl (by decide) hkeeps, hvalue⟩
  · obtain ⟨root, hroot, hfacts⟩ := exists_of_toOption (show (Node.parse
        "class A\x7bstatic int f()\x7bany[] a;a=[true];return a[0];\x7d\x7d").toOption.map
        (fun root => (root.analyze, root.preorder.all (fun v => decide (v.2.writtenType? ≠ some .any)),
          (root.analyze.toOption.bind (·.table)).map fun t => (runOn (root.invoke t 9 "f" none []) []).1)) =
          some (.ok { reports := [], table := some ⟨"A", none, [], [],
            [⟨"f", .int, [], [⟨"a", ⟨"any", true⟩⟩], true, false, false⟩]⟩ }, true,
            some (.error .mistyped)) by decide +kernel)
    obtain ⟨hanalyze, hrest⟩ := Prod.mk.inj hfacts
    obtain ⟨hwritten, hrun⟩ := Prod.mk.inj hrest
    rw [hanalyze] at hrun
    exact ⟨root, _, hroot, hanalyze, by simpa using hwritten, Option.some.inj hrun⟩

end Node
end JmmCompiler

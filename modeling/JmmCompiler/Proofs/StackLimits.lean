import Mathlib
import JmmCompiler.Proofs.FlatCode
import JmmCompiler.Proofs.OptimizedProgram
import JmmCompiler.Proofs.ReturnFlow
/-! Compiled methods keep within their limits: from a text that is accepted to the lines of its methods, with the depths
of the stack on every path through them and the slots that they name. -/
namespace JmmCompiler

namespace Node.Accepted
variable {root : Node} {table : SymbolTable} {m : MethodInfo}

theorem isName_field (h : root.Accepted table) {f : Symbol} (hf : f ∈ table.fields) : Lexeme.IsName f.name := by
  obtain ⟨i, c, hc, -, hclass⟩ := h.shape.exists_class
  obtain ⟨d, hd, hsymbol⟩ := exists_of_mem_mapM (h.table_eq hc).1 hf
  obtain ⟨hmem, hkind⟩ := mem_childrenOf hd
  have hmember : d.IsMember := by
    cases hclass with
    | alone hname hmembers p => exact hmembers d hmem
    | extending hname hparent hmembers p => exact hmembers d hmem
  cases hmember with
  | field hvar =>
    obtain ⟨hname, htype, p⟩ := hvar
    exact Except.ok.inj (Symbol.name_ofNode hsymbol) ▸ hname
  | method hname htype hparams hbody p => cases hkind

/-- The surroundings of a method in a program whose names are apart. -/
theorem separate (h : root.Accepted table) (hm : table.method? m.name = some m)
    (hclass : table.className ≠ "any" ∧ table.className ∉ table.importNames)
    (hnames : ∀ v ∈ m.params ++ m.locals, v.name ∉ table.importNames)
    (hfields : ∀ f ∈ table.fields, f.type = ⟨table.className, true⟩ → f.name ∉ table.importNames) :
    (table.context m).Separate := by
  have hmem : m ∈ table.methods := List.mem_of_find?_eq_some hm
  obtain ⟨d, hmember, hkind, hdecl⟩ := h.exists_member hmem
  refine ⟨h.spelled hm, h.isName_className, hclass.1, ?_, fun name himported hname htype => ?_, fun name hname hmark => ?_⟩
  · rw [← Bool.not_eq_true]
    exact fun himported => hclass.2 (mem_importNames h.isName_className himported)
  · -- parameters and local variables have other names than imports, and so have fields that are such arrays
    have hnone : table.binding? (some m.name) name = none := importsApart hmember hdecl hkind hnames name himported
    obtain ⟨f, hf⟩ : ∃ f, table.field? name = some f := by
      rcases hname with hvariable | ⟨hfield, -⟩
      · exact absurd hvariable (by simp [SymbolTable.context, hnone])
      · exact Option.isSome_iff_exists.1 hfield
    have hmem : f ∈ table.fields := List.mem_of_find?_eq_some hf
    obtain rfl : f.name = name := by simpa using List.find?_some hf
    exact hfields f hmem ((Context.variableType_field (s := table.context m) hf).symm.trans htype)
      (mem_importNames (h.isName_field hmem) himported)
  · exact absurd (h.mem_import hname hmark) (by decide)

end Node.Accepted

/-- Code has the class, the imports and the fields of the table. -/
theorem SymbolTable.eq_of_generate {t : SymbolTable} {tree : Node} {code : CodeProgram} (h : t.generate tree = .ok code) :
    code = ⟨t.className, t.superClass, t.imports, t.fields, code.methods⟩ := by
  simp only [generate, bind_eq_ok, pure_eq_ok] at h
  obtain ⟨⟨code', ns⟩, hrun, rfl⟩ := h
  obtain ⟨_, _, -, hrun⟩ := lower_bind_eq_ok.1 hrun
  obtain ⟨_, _, -, hrun⟩ := lower_bind_eq_ok.1 hrun
  obtain ⟨_, _, -, hrun⟩ := lower_bind_eq_ok.1 hrun
  obtain ⟨rfl, -⟩ := Prod.mk.inj (Except.ok.inj hrun)
  rfl

theorem SymbolTable.program_of_generate {t : SymbolTable} {tree : Node} {code : CodeProgram} (h : t.generate tree = .ok code) :
    code.className = t.className ∧ code.imports = t.imports := by
  rw [eq_of_generate h]
  exact ⟨rfl, rfl⟩

theorem Compile.program_of_allocate {config : Config} {code final : CodeProgram} {reports : List Report}
    (h : (allocate config code).events.1 = .ok (final, reports)) :
    final.className = code.className ∧ final.imports = code.imports := by
  rw [(forall₂_of_allocate h).1]
  exact ⟨rfl, rfl⟩

namespace Lowers

-- What is compared below are long tuples.
set_option synthInstance.maxSize 4000

variable {config : Config} {source : String} {root tree : Node} {table : SymbolTable} {code : CodeProgram}

/-- The lines of compiled methods keep within their limits, with or without folded constants and allocated registers, in
a program whose variables hide neither fields nor imports and whose types are known, and whose class is neither unknown
nor named like an import. No field that is an array of objects of the class may have the name of an import: what is
called on it would be taken for a method of the class. -/
theorem keeps_limits (h : Lowers config source root table tree code)
    (hnames : ∀ m ∈ table.methods, ∀ v ∈ m.params ++ m.locals, table.field? v.name = none ∧ v.name ∉ table.importNames)
    (hwritten : ∀ type, root.Writes type → type.name ≠ "any")
    (hclass : table.className ≠ "any" ∧ table.className ∉ table.importNames)
    (hfields : ∀ f ∈ table.fields, f.type = ⟨table.className, true⟩ → f.name ∉ table.importNames) {final : CodeProgram}
    {reports : List Report} (hfinal : (Compile.allocate config code).events.1 = .ok (final, reports)) {m : CodeMethod}
    (hm : m ∈ final.methods) {lines : List Jasmin.Line} (hlines : (Jasmin.Scope.mk final m).bodyLines = .ok lines) :
    (Jasmin.Scope.mk final m).KeepsLimits lines := by
  have haccepted := Node.accepted_of_analyze h.parsed h.analyzed
  have hmem {info : MethodInfo} (hinfo : table.method? info.name = some info) : info ∈ table.methods :=
    List.mem_of_find?_eq_some hinfo
  have himports (info : MethodInfo) (hinfo : info ∈ table.methods) : (table.context info).ImportsApart := by
    obtain ⟨d, hmember, hkind, hdecl⟩ := haccepted.exists_member hinfo
    exact Node.Accepted.importsApart hmember hdecl hkind fun v hv => (hnames info hinfo v hv).2
  have hmakes := haccepted.makes (s := table.context) (P := fun info n => (table.context info).Reaches n ∧ n.SpellsNames)
    (fun info hinfo => by
      refine ⟨⟨rfl, rfl, (Context.stable_reaches (himports info (hmem hinfo))).and (haccepted.spelled hinfo).stable,
        fun _ => haccepted.variablesKnown (hmem hinfo) hwritten, nofun, fun _ d _ _ hd n hn => ⟨hd.fits hn, ?_⟩⟩, ?_⟩
      · have hreaches := (hd.fits hn).everywhere_reaches hd.within (hd.clears n hn)
        have hspells := (hd.shaped n hn).everywhere_isPart.imp fun _ hpart => hpart.spellsNames
        exact (hreaches.and hspells).imp fun _ hn => ⟨hn.1.1, hn.2⟩
      · refine ⟨fun name v hv => ?_, nofun⟩
        obtain ⟨hbound, rfl⟩ := Node.Accepted.mem_of_binding hinfo hv
        exact (hnames info (hmem hinfo) v hbound).1) h.prepared h.generated
  obtain ⟨hclassName, himported⟩ := Compile.program_of_allocate hfinal
  obtain ⟨hclassName', himported'⟩ := SymbolTable.program_of_generate h.generated
  obtain ⟨m₀, hm₀, slots, rfl⟩ := Compile.exists_of_mem_allocate hfinal hm
  obtain ⟨info, hinfo, hfor, hcode⟩ := hmakes m₀ hm₀
  have hscope : (Jasmin.Scope.mk final (m₀.withSlots slots)).Emits (table.context info) := by
    refine ⟨hclassName.trans hclassName', himported.trans himported', fun m hm => ?_, hfor.isStatic⟩
    obtain ⟨m₁, hm₁, slots₁, rfl⟩ := Compile.exists_of_mem_allocate hfinal hm
    obtain ⟨info₁, hinfo₁, hfor₁, -⟩ := hmakes m₁ hm₁
    exact ⟨info₁, hinfo₁, hfor₁.name, hfor₁.returnType, hfor₁.params, hfor₁.isStatic⟩
  have hseparate := haccepted.separate hinfo hclass (fun v hv => (hnames info (hmem hinfo) v hv).2) hfields
  have hflat : (Jasmin.Scope.mk final (m₀.withSlots slots)).CodeIsFlat := fun i hi =>
    (hcode i hi).elim (fun hmakes => hmakes.isFlat hseparate hscope) fun hnop => hnop ▸ trivial
  obtain ⟨k, hlabels⟩ := (table.labels_generate tree).2 code h.generated
  have hfit : (Jasmin.Scope.mk final (m₀.withSlots slots)).LabelsFit :=
    ⟨(hlabels.labelsFit hm₀).nodup, (hlabels.labelsFit hm₀).apart⟩
  exact Jasmin.Scope.keepsLimits hfit (hlabels.sound m₀ hm₀).jumps hflat hlines

/-- A method that stores what an imported class gives, with folded constants and allocated registers. -/
theorem keeps_limits_stores :
    ∃ root table tree code final reports, Lowers ⟨true, 0, by decide⟩
        "import Io;class A\x7bint[] a;int f(int n)\x7bif(!(n<0))a[n]=Io.g(this,n);return a[n-1];\x7d\x7d" root table tree code ∧
      (Compile.allocate ⟨true, 0, by decide⟩ code).events.1 = .ok (final, reports) ∧ final.methods.length = 1 ∧
      ∀ m ∈ final.methods, ∃ lines, (Jasmin.Scope.mk final m).bodyLines = .ok lines ∧
        (Jasmin.Scope.mk final m).KeepsLimits lines := by
  obtain ⟨root, table, tree, code, h, hfacts⟩ := exists_lowers (show (lowered? ⟨true, 0, by decide⟩
      "import Io;class A\x7bint[] a;int f(int n)\x7bif(!(n<0))a[n]=Io.g(this,n);return a[n-1];\x7d\x7d").map
      (fun r => (r.1.preorder.all (fun v => v.2.writtenType?.all fun type => type.name != "any"), r.2.1,
        (Compile.allocate ⟨true, 0, by decide⟩ r.2.2.2).events.1.toOption.map fun f => (f.1.methods.length,
          f.1.methods.all fun m => (Jasmin.Scope.mk f.1 m).bodyLines.toOption.isSome))) =
        some (true, ⟨"A", none, ["Io"], [⟨"a", .intArray⟩], [⟨"f", .int, [⟨"n", .int⟩], [], false, false, false⟩]⟩,
          some (1, true)) by decide +kernel)
  simp only [Prod.mk.injEq] at hfacts
  obtain ⟨hall, rfl, hcode⟩ := hfacts
  obtain ⟨⟨final, reports⟩, hfinal, hlines⟩ := exists_of_toOption hcode
  obtain ⟨hlength, hbodies⟩ := Prod.mk.inj hlines
  have hwritten : ∀ type, root.Writes type → type.name ≠ "any" := fun type hwrites => by
    obtain ⟨v, hv, htype⟩ := hwrites
    have hknown := List.all_eq_true.1 hall v hv
    simpa [htype] using hknown
  refine ⟨root, _, tree, code, final, reports, h, hfinal, hlength, fun m hm => ?_⟩
  obtain ⟨lines, hbody⟩ := Option.isSome_iff_exists.1 (List.all_eq_true.1 hbodies m hm)
  exact ⟨lines, eq_ok_of_toOption hbody,
    h.keeps_limits (by decide) hwritten (by decide) (by decide) hfinal hm (eq_ok_of_toOption hbody)⟩

/-- A field that is an array of objects of the class and has the name of an import: what is called on it is taken for a
method of the class with fewer parameters, and an argument stays on the stack. -/
theorem leaves_argument :
    ∃ root table tree code final reports, Lowers {}
        "import Io;class A\x7bA[] Io;int foo(int a)\x7breturn a;\x7dint g()\x7breturn Io.foo(1,2);\x7d\x7d" root table tree code ∧
      (Compile.allocate {} code).events.1 = .ok (final, reports) ∧
      (∀ m ∈ table.methods, ∀ v ∈ m.params ++ m.locals, table.field? v.name = none ∧ v.name ∉ table.importNames) ∧
      (∀ type, root.Writes type → type.name ≠ "any") ∧ table.className = "A" ∧ table.imports = ["Io"] ∧
      ∃ m ∈ final.methods, ∃ lines, (Jasmin.Scope.mk final m).bodyLines = .ok lines ∧ 2 < m.code.length ∧
        Jasmin.Depths lines ((Jasmin.Scope.mk final m).first 2) 1 ∧ ¬(Jasmin.Scope.mk final m).KeepsLimits lines := by
  obtain ⟨root, table, tree, code, h, hfacts⟩ := exists_lowers (show (lowered? {}
      "import Io;class A\x7bA[] Io;int foo(int a)\x7breturn a;\x7dint g()\x7breturn Io.foo(1,2);\x7d\x7d").map
      (fun r => (r.1.preorder.all (fun v => v.2.writtenType?.all fun type => type.name != "any"), r.2.1,
        (Compile.allocate {} r.2.2.2).events.1.toOption.map fun f => f.1.methods.getLast?.map fun m =>
          ((Jasmin.Scope.mk f.1 m).bodyLines.toOption, m.code.length, (Jasmin.Scope.mk f.1 m).first 2))) =
        some (true, ⟨"A", none, ["Io"], [⟨"Io", ⟨"A", true⟩⟩],
          [⟨"foo", .int, [⟨"a", .int⟩], [], false, false, false⟩, ⟨"g", .int, [], [], false, false, false⟩]⟩,
          some (some (some [.slot .aload 0, .field .get "A" "Io" "[LA;", .slot .astore 1, .slot .aload 1, .const 1,
            .const 2, .invoke .virtual "A" "foo" "(I)I", .slot .istore 2, .slot .iload 2, .plain .iret], 3, 8))) by decide +kernel)
  simp only [Prod.mk.injEq] at hfacts
  obtain ⟨hall, rfl, hcode⟩ := hfacts
  obtain ⟨⟨final, reports⟩, hfinal, hlast⟩ := exists_of_toOption hcode
  obtain ⟨m, hm, hfacts⟩ := Option.map_eq_some_iff.1 hlast
  simp only [Prod.mk.injEq] at hfacts
  obtain ⟨hlines, hlength, hfirst⟩ := hfacts
  have hwritten : ∀ type, root.Writes type → type.name ≠ "any" := fun type hwrites => by
    obtain ⟨v, hv, htype⟩ := hwrites
    have hknown := List.all_eq_true.1 hall v hv
    simpa [htype] using hknown
  have hcall : (Jasmin.Line.invoke .virtual "A" "foo" "(I)I").effect? = some (2, 1) := by cbv
  have hstart : Jasmin.Depths [.slot .aload 0, .field .get "A" "Io" "[LA;", .slot .astore 1, .slot .aload 1, .const 1,
      .const 2, .invoke .virtual "A" "foo" "(I)I", .slot .istore 2, .slot .iload 2, .plain .iret] 0 0 := .start
  have hreceiver := (((hstart.next rfl rfl rfl).next rfl rfl rfl).next rfl rfl rfl).next rfl rfl rfl
  have hdepth := (((hreceiver.next rfl rfl rfl).next rfl rfl rfl).next rfl hcall rfl).next rfl rfl rfl
  refine ⟨root, _, tree, code, final, reports, h, hfinal, by decide, hwritten, rfl, rfl, m, List.mem_of_getLast? hm, _,
    eq_ok_of_toOption hlines, by omega, hfirst ▸ hdepth, fun hkeeps => ?_⟩
  have hempty := hkeeps.empty 2 (by simp [hlength]) 8 (by simp [hfirst]) (by simp [hfirst]) 1 hdepth
  cases hempty

end Lowers
end JmmCompiler

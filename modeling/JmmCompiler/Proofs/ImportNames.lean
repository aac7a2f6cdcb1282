import JmmCompiler.Jasmin.Descriptor
import JmmCompiler.Proofs.OptimizedProgram
/-! Where the name of a class comes from. The checks look it up among the last segments of the imports, the
printed code takes the first import that ends in it. Both find the same import. -/
namespace JmmCompiler

namespace Jasmin

/-- Slashes stand between the segments of an internal name. -/
theorem slashed_eq (name : String) : slashed name = String.intercalate "/" (segments name) := by
  have hchars (xs : List Char) : xs.map (fun c => if c = '.' then '/' else c) = ['/'].intercalate (xs.splitOn '.') := by
    induction xs with
    | nil => rfl
    | cons c rest ih =>
      obtain ⟨first, others, hsplit⟩ := List.exists_cons_of_ne_nil (List.splitOnP_ne_nil (· == '.') rest)
      rw [List.splitOn, hsplit] at ih
      rw [List.map_cons, ih, List.splitOn, List.splitOnP_cons_eq_if_modifyHead, hsplit]
      by_cases hc : c = '.'
      · simp [hc, List.intercalate]
      · cases others <;> simp [hc, List.intercalate]
  rw [← String.toList_inj, String.toList_intercalate, slashed, String.toList_map, hchars, segments, List.map_map]
  simp [Function.comp_def]

/-- An import ends in a name without dots if that is its simple name. -/
theorem imports_iff {imported name : String} (hname : '.' ∉ name.toList) :
    imports imported name = true ↔ simpleName imported = name := by
  rw [imports, Bool.or_eq_true, decide_eq_true_eq, List.isSuffixOf_iff_suffix]
  constructor
  · rintro (rfl | ⟨front, hfront⟩)
    · exact simpleName_of_notMem hname
    · rw [simpleName_of_toList hfront.symm hname, String.ofList_toList]
  · rintro rfl
    by_cases hdot : '.' ∈ imported.toList
    · obtain ⟨front, last, htext, hlast⟩ := exists_last_dot hdot
      refine .inr ⟨front, ?_⟩
      rw [simpleName_of_toList htext hlast, String.toList_ofList, htext]
    · exact .inl (simpleName_of_notMem hdot).symm

/-- The import that gives a class its internal name: the first that ends in the name. -/
def source? (imported : List String) (name : String) : Option String := imported.find? (imports · name)

theorem internalName_of_source? {imported : List String} {name i : String} (h : source? imported name = some i) :
    internalName imported name = slashed i := by
  rw [internalName, ← source?, h]

/-- A class that no import gives a name is called as if nothing were imported. -/
theorem internalName_of_source?_none {imported : List String} {name : String} (h : source? imported name = none) :
    internalName imported name = internalName [] name := by
  rw [internalName, ← source?, h]
  rfl

theorem source?_isSome {imported : List String} {name : String} (hname : '.' ∉ name.toList) :
    (source? imported name).isSome ↔ name ∈ imported.map simpleName := by
  simp [source?, List.find?_isSome, imports_iff hname]

end Jasmin

namespace SymbolTable
variable {t : SymbolTable}

/-- Checks and printed code agree on what is imported, if the imports end in different segments. In any order of
the imports a class is imported exactly if an import gives it its internal name, and that is then the one import
with the class as its last segment, with slashes between its segments. -/
theorem isImported_iff_source? (t : SymbolTable) (hdistinct : t.importNames.Nodup) {name : String}
    (hname : '.' ∉ name.toList) {imported : List String} (horder : imported.Perm t.imports) :
    (t.isImported name = true ↔ ∃ i, Jasmin.source? imported name = some i) ∧
      (∀ i, Jasmin.source? imported name = some i →
        i ∈ t.imports ∧ (segments i).getLast? = some name ∧
          (∀ j ∈ t.imports, (segments j).getLast? = some name → j = i) ∧
          Jasmin.internalName imported name = String.intercalate "/" (segments i)) ∧
      (Jasmin.source? imported name = none → Jasmin.internalName imported name = Jasmin.internalName [] name) := by
  have hnames : (imported.map simpleName).Perm t.importNames := horder.map simpleName
  refine ⟨?_, fun i hi => ?_, Jasmin.internalName_of_source?_none⟩
  · rw [isImported_iff hname, ← hnames.mem_iff, ← Jasmin.source?_isSome hname, Option.isSome_iff_exists]
  · have hfound : imported.find? (Jasmin.imports · name) = some i := hi
    have hmem : i ∈ t.imports := horder.mem_iff.1 (List.mem_of_find?_eq_some hfound)
    have hlast : simpleName i = name := (Jasmin.imports_iff hname).1 (by simpa using List.find?_some hfound)
    have hunique (j : String) (hj : j ∈ t.imports) (hjlast : (segments j).getLast? = some name) : j = i := by
      rw [getLast?_segments, Option.some_inj] at hjlast
      exact List.inj_on_of_nodup_map hdistinct hj hmem (hjlast.trans hlast.symm)
    exact ⟨hmem, by rw [getLast?_segments, hlast], hunique, by rw [Jasmin.internalName_of_source? hi, Jasmin.slashed_eq]⟩

end SymbolTable

/-- The imports of a program that no check objects to end in different segments. -/
theorem Node.Accepted.nodup_importNames {root : Node} {table : SymbolTable} (h : root.Accepted table) :
    table.importNames.Nodup := by
  have hat : root.at? [] = some root := rfl
  have hrule := h.passes hat Check.duplicateDeclarations (by simp [Check.all])
  have hkind : root.kind = .program := by
    obtain ⟨hleaves, hclass, p⟩ := h.shape
    rfl
  simp only [Check.duplicateDeclarations, hkind, bind_eq_ok, pure_eq_ok] at hrule
  obtain ⟨named, hnamed, hrepeated⟩ := hrule
  have hbuilt := h.built
  simp only [SymbolTable.build, bind_eq_ok, pure_eq_ok] at hbuilt
  obtain ⟨c, -, imports, himports, name, -, fields, -, methods, -, rfl⟩ := hbuilt
  -- the check and the table read the same texts
  have hchecked : (root.childrenOf [.importDecl]).mapM (fun n => simpleName <$> n.text "name") = .ok (named.map (·.2)) :=
    mapM_eq_ok_map hnamed fun n pair hpair => by
      simp only [bind_eq_ok, pure_eq_ok] at hpair
      obtain ⟨text, htext, rfl⟩ := hpair
      rw [htext]
      rfl
  have hbuilt : (root.childrenOf [.importDecl]).mapM (fun n => simpleName <$> n.text "name") = .ok (imports.map simpleName) :=
    mapM_eq_ok_map himports fun n text htext => by rw [htext]; rfl
  have hdistinct := (Check.nodup_of_repeated hrepeated).1
  rwa [Except.ok.inj (hchecked.symm.trans hbuilt)] at hdistinct

/-- A segment that another segment ends in, in a program that is checked. -/
theorem SymbolTable.isImported_iff_source?_suffix :
    ∃ root table, Node.parse "import a.xC;import b.C;import C.d;class A\x7bint f()\x7breturn C.g();\x7d\x7d" = .ok root ∧
      root.analyze = .ok { reports := [], table := some table } ∧ table.imports = ["a.xC", "b.C", "C.d"] ∧
      table.isImported "C" = true ∧ Jasmin.internalName ["C.d", "a.xC", "b.C"] "C" = String.intercalate "/" (segments "b.C") ∧
      table.isImported "A" = false ∧ Jasmin.internalName ["C.d", "a.xC", "b.C"] "A" = Jasmin.internalName [] "A" := by
  obtain ⟨root, hroot, hanalyze⟩ := exists_of_toOption (show (Node.parse
      "import a.xC;import b.C;import C.d;class A\x7bint f()\x7breturn C.g();\x7d\x7d").toOption.map Node.analyze =
        some (.ok { reports := [], table := some ⟨"A", none, ["a.xC", "b.C", "C.d"], [], [⟨"f", .int, [], [], false, false, false⟩]⟩ })
    by decide +kernel)
  have hdistinct := (Node.accepted_of_analyze hroot hanalyze).nodup_importNames
  have horder : ["C.d", "a.xC", "b.C"].Perm ["a.xC", "b.C", "C.d"] := by decide
  obtain ⟨hC, hsource, -⟩ := isImported_iff_source? _ hdistinct (show '.' ∉ "C".toList by decide) horder
  obtain ⟨hA, -, hnone⟩ := isImported_iff_source? _ hdistinct (show '.' ∉ "A".toList by decide) horder
  have hfound : Jasmin.source? ["C.d", "a.xC", "b.C"] "C" = some "b.C" := by decide
  have hmissing : Jasmin.source? ["C.d", "a.xC", "b.C"] "A" = none := by decide
  refine ⟨root, _, hroot, hanalyze, rfl, hC.2 ⟨_, hfound⟩, (hsource _ hfound).2.2.2, ?_, hnone hmissing⟩
  rw [← Bool.not_eq_true, hA, hmissing]
  simp

end JmmCompiler

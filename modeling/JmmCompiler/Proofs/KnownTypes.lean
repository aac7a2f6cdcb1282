import JmmCompiler.Proofs.Strict
import JmmCompiler.Proofs.ValidProgram
/-! The types that a program without reports has: those that it writes, of variables that have values, and
classes with names. -/
namespace JmmCompiler

/-- A program writes a type. -/
def Node.Writes (root : Node) (type : Ty) : Prop := ∃ v ∈ root.preorder, v.2.writtenType? = some type

theorem Ty.isReference_of_isName {name : String} (h : Lexeme.IsName name) :
    Ty.isReference ⟨name, false⟩ = true := by
  have hne : name ≠ "int" ∧ name ≠ "boolean" ∧ name ≠ "void" := by
    refine ⟨?_, ?_, ?_⟩
    all_goals
      rintro rfl
      exact absurd h.2 (by decide)
  simp [isReference, isPrimitive, hne]

theorem Ty.writtenType?_of_ofNode {n : Node} {type : Ty} (h : Ty.ofNode n = .ok type) :
    n.writtenType? = some type := by
  have hkind : n.kind = .typeRef := by
    by_contra hkind
    simp [Ty.ofNode, hkind] at h
  simp [Node.writtenType?, hkind, h, Except.toOption]

namespace Node

theorem exists_at?_child {root n c : Node} {path : Path} (h : root.at? path = some n) (hc : c ∈ n.children) :
    ∃ path, root.at? path = some c := by
  obtain ⟨i, hi⟩ := List.getElem?_of_mem hc
  exact ⟨_, at?_append_singleton h hi⟩

theorem mem_children_of_child {n c : Node} {i : Nat} (h : n.child i = .ok c) : c ∈ n.children := by
  unfold child at h
  split at h
  · rename_i hc
    obtain rfl := Except.ok.inj h
    exact List.mem_of_getElem? hc
  · cases h

theorem writes_of_ofNode {root n : Node} {path : Path} {type : Ty} (h : root.at? path = some n)
    (htype : Ty.ofNode n = .ok type) : root.Writes type :=
  ⟨_, mem_preorder h, Ty.writtenType?_of_ofNode htype⟩

theorem writes_of_symbol {root n : Node} {path : Path} {v : Symbol} (h : root.at? path = some n)
    (hv : Symbol.ofNode n = .ok v) : root.Writes v.type := by
  simp only [Symbol.ofNode, bind_eq_ok, pure_eq_ok] at hv
  obtain ⟨name, -, written, hwritten, type, htype, rfl⟩ := hv
  obtain ⟨path, hpath⟩ := exists_at?_child h (mem_children_of_child hwritten)
  exact writes_of_ofNode hpath htype

namespace Accepted
variable {root c : Node} {table : SymbolTable} {m : MethodInfo} {v : Symbol} {name : String}

/-- The declaration that a method is made from. -/
theorem exists_declaration (h : root.Accepted table) (hm : m ∈ table.methods) :
    ∃ path decl, root.at? path = some decl ∧ decl.kind = .methodDecl ∧ table.Declares decl m := by
  obtain ⟨i, c, hc, hat, -⟩ := h.shape.exists_class
  obtain ⟨decl, hdecl, hmade⟩ := exists_of_mem_mapM (h.table_eq hc).2 hm
  obtain ⟨hmem, hkind⟩ := mem_childrenOf hdecl
  obtain ⟨path, hpath⟩ := exists_at?_child hat hmem
  exact ⟨path, decl, hpath, hkind, h.declares hc hdecl hmade⟩

theorem writes_field (h : root.Accepted table) (hv : v ∈ table.fields) : root.Writes v.type := by
  obtain ⟨i, c, hc, hat, -⟩ := h.shape.exists_class
  obtain ⟨d, hd, hmade⟩ := exists_of_mem_mapM (h.table_eq hc).1 hv
  obtain ⟨path, hpath⟩ := exists_at?_child hat (mem_childrenOf hd).1
  exact writes_of_symbol hpath hmade

theorem writes_variable (h : root.Accepted table) (hm : m ∈ table.methods) (hv : v ∈ m.params ++ m.locals) :
    root.Writes v.type := by
  obtain ⟨path, decl, hpath, -, hdeclares⟩ := h.exists_declaration hm
  have hmade := MethodInfo.madeFrom hdeclares.made
  obtain ⟨d, hd, hsymbol⟩ : ∃ d ∈ decl.children, Symbol.ofNode d = .ok v := by
    rcases List.mem_append.1 hv with hv | hv
    · obtain ⟨d, hd, hsymbol⟩ := exists_of_mem_mapM hmade.params hv
      exact ⟨d, (mem_childrenOf hd).1, hsymbol⟩
    · obtain ⟨d, hd, hsymbol⟩ := exists_of_mem_mapM hmade.locals hv
      exact ⟨d, (mem_childrenOf hd).1, hsymbol⟩
  obtain ⟨path, hpath⟩ := exists_at?_child hpath hd
  exact writes_of_symbol hpath hsymbol

theorem writes_returnType (h : root.Accepted table) (hm : m ∈ table.methods) : root.Writes m.returnType := by
  obtain ⟨path, decl, hpath, -, hdeclares⟩ := h.exists_declaration hm
  obtain ⟨written, hwritten, hreturn⟩ := hdeclares.returnType
  have hmem : written ∈ decl.children := by
    unfold Node.returnType at hwritten
    split at hwritten
    · cases hwritten
    · rename_i c cs hchildren
      obtain rfl := Except.ok.inj hwritten
      simp [hchildren]
  obtain ⟨path, hpath⟩ := exists_at?_child hpath hmem
  exact writes_of_ofNode hpath hreturn

/-- Objects are made of classes. -/
theorem isReference_of_newObject {n : Node} (hn : n.IsPart) (hkind : n.kind = .newObject) {type : Ty}
    (htype : n.writtenType? = some type) : type.isReference = true := by
  rcases hn with hn | hn
  · cases hn with
    | newObject hname p =>
      obtain rfl := Option.some.inj htype
      exact Ty.isReference_of_isName hname
    | _ => cases hkind
  · cases hn with
    | simple hn => cases hn <;> cases hkind
    | _ => cases hkind

/-- The class and its superclass are classes, and fields have values. -/
theorem regular (h : root.Accepted table) : table.Regular := by
  obtain ⟨i, c, hc, hat, hclass⟩ := h.shape.exists_class
  have hpasses := h.passes hat
  obtain ⟨hfields, -⟩ := h.table_eq hc
  have hkind : c.kind = .classDecl := by cases hclass <;> rfl
  have hflow := hpasses Check.controlFlow (by simp [Check.all])
  simp only [Check.controlFlow, hkind] at hflow
  have hvalues := ne_void_of_notVoid hfields hflow
  have hbuilt := h.built
  simp only [SymbolTable.build, bind_eq_ok, pure_eq_ok, hc, Except.ok.injEq, exists_eq_left'] at hbuilt
  obtain ⟨imports, -, name, hname, fields, -, methods, -, rfl⟩ := hbuilt
  have hfield (name : String) (field : Symbol)
      (hfield : (fields.find? (·.name = name)) = some field) : field.type ≠ .void :=
    hvalues field (List.mem_of_find?_eq_some hfield)
  cases hclass with
  | alone hown hmembers p =>
    obtain rfl := Except.ok.inj hname
    refine ⟨Ty.isReference_of_isName hown, fun _ hother => ?_, hfield⟩
    cases hother
  | @extending own parent members hown hparent hmembers p =>
    obtain rfl := Except.ok.inj hname
    refine ⟨Ty.isReference_of_isName hown, fun other hother => ?_, hfield⟩
    obtain rfl : parent = other := Option.some.inj hother
    exact Ty.isReference_of_isName hparent

/-- What a variable has its type from. -/
theorem exists_variable (hm : table.method? m.name = some m) (h : (table.context m).HasVariable name) :
    ∃ v, (table.field? name = some v ∨ v ∈ m.params ++ m.locals) ∧
      (table.context m).variableType name = v.type := by
  have hor : (((table.field? name).or (Symbol.lookup? m.params name)).or
      (Symbol.lookup? m.locals name)).isSome := by
    simp only [Context.HasVariable, SymbolTable.context, SymbolTable.binding?, SymbolTable.param?,
      SymbolTable.local?, Option.bind_some, hm] at h
    simp only [Option.isSome_or, Bool.or_eq_true] at h ⊢
    tauto
  obtain ⟨v, hv⟩ := Option.isSome_iff_exists.1 hor
  refine ⟨v, ?_, ?_⟩
  · rcases Option.or_eq_some_iff.1 hv with hv | ⟨-, hv⟩
    · rcases Option.or_eq_some_iff.1 hv with hv | ⟨-, hv⟩
      · exact .inl hv
      · exact .inr (List.mem_append_left _ (List.mem_of_find?_eq_some hv))
    · exact .inr (List.mem_append_right _ (List.mem_of_find?_eq_some hv))
  · simp [Context.variableType, SymbolTable.variableType?, SymbolTable.context, SymbolTable.param?,
      SymbolTable.local?, hm, hv]

/-- Where a program writes known types only, its variables have known types. -/
theorem declared (h : root.Accepted table) (hclass : table.className ≠ "any")
    (hwritten : ∀ type, root.Writes type → type.IsKnown) (hm : table.method? m.name = some m) :
    (table.context m).Declared := by
  have hregular := h.regular
  have hmem (name : String) (m : MethodInfo) (hm : table.method? name = some m) : m ∈ table.methods :=
    List.mem_of_find?_eq_some hm
  obtain ⟨path, decl, -, -, hdeclares⟩ := h.exists_declaration (hmem _ m hm)
  refine ⟨fun name hname => ?_, fun name m hm => hwritten _ (h.writes_returnType (hmem name m hm)), ?_, ?_⟩
  · obtain ⟨v, hv, htype⟩ := exists_variable hm hname
    rw [htype]
    rcases hv with hv | hv
    · have hfield : v ∈ table.fields := List.mem_of_find?_eq_some hv
      exact ⟨hwritten _ (h.writes_field hfield), hregular.fields name v hv⟩
    · exact ⟨hwritten _ (h.writes_variable (hmem _ m hm) hv), hdeclares.values v hv⟩
  · exact ⟨hclass, by simp [SymbolTable.context, SymbolTable.classType]⟩
  · intro hvoid
    have hreference := hregular.classType
    rw [show table.classType = .void from hvoid] at hreference
    cases hreference

end Accepted
end Node
end JmmCompiler

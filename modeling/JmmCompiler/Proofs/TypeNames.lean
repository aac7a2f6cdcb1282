import JmmCompiler.Proofs.KnownTypes
import JmmCompiler.Proofs.LoweredCode
/-! The names of types. A program spells them like words, and the values of its expressions have no types but those of
the expressions, those that are wanted, and those of imports. -/
namespace JmmCompiler

/-- A name that consists of the characters of words. -/
def Lexeme.IsSpelled (s : String) : Prop := ∀ c ∈ s.toList, Lexer.isWordPart c = true

namespace Lexeme

theorem IsSpelled.not_mem {name : String} (h : IsSpelled name) {c : Char} (hc : Lexer.isWordPart c = false) :
    c ∉ name.toList := fun hmem => by simp [h c hmem] at hc

theorem IsName.isSpelled {s : String} (h : IsName s) : IsSpelled s := h.1.isWordPart

theorem IsTypeName.isSpelled {s : String} (h : IsTypeName s) : IsSpelled s := h.isWord.isWordPart

theorem isSpelled_int : IsSpelled "int" := IsTypeName.isSpelled (.inr (.inl rfl))

theorem isSpelled_boolean : IsSpelled "boolean" := IsTypeName.isSpelled (.inr (.inr (.inl rfl)))

theorem isSpelled_any : IsSpelled "any" := by
  have hword : IsWord "any" := ⟨'a', ['n', 'y'], by simp, by decide, by simp; decide⟩
  exact hword.isWordPart

end Lexeme

/-! ## Trees -/

namespace Node

/-- The names in a node are spelled like words, and objects are created of what is no keyword. -/
structure SpellsNames (n : Node) : Prop where
  name : ∀ name, n.name = .ok name → Lexeme.IsSpelled name
  element : ∀ name, n.text "element_type" = .ok name → Lexeme.IsSpelled name
  created : n.kind = .newObject → ∀ name, n.name = .ok name → Lexeme.IsName name

section
variable {kind : Kind} {children : List Node} {p : Position} {name : String}

theorem spellsNames_empty : SpellsNames ⟨kind, {}, children, p⟩ := ⟨nofun, nofun, fun _ => nofun⟩

theorem spellsNames_name (hkind : kind ≠ .newObject) (hname : Lexeme.IsSpelled name) :
    SpellsNames ⟨kind, ⟨[("name", .text name)]⟩, children, p⟩ :=
  ⟨fun _ h => Except.ok.inj h ▸ hname, nofun, fun h => absurd h hkind⟩

end

theorem word_of_text {n : Node} {key s : String} (h : n.text key = .ok s) : n.word key = .ok s := by
  unfold text at h
  unfold word
  obtain ⟨value, hvalue, h⟩ := bind_eq_ok.1 h
  rw [hvalue, ok_bind]
  cases value with
  | text t =>
    obtain rfl := Except.ok.inj h
    rfl
  | _ => cases h

theorem IsType.spellsNames {n : Node} (h : n.IsType) : n.SpellsNames := by
  obtain ⟨hname, harray, p⟩ := h
  exact ⟨fun _ h => Except.ok.inj h ▸ hname.isSpelled, nofun, nofun⟩

theorem IsExpression.spellsNames {e : Node} (h : e.IsExpression) : e.SpellsNames := by
  cases h with
  | varRef hname p => exact spellsNames_name (by simp) hname.isSpelled
  | newObject hname p =>
    exact ⟨fun _ h => Except.ok.inj h ▸ hname.isSpelled, nofun, fun _ _ h => Except.ok.inj h ▸ hname⟩
  | newArray hname hsize p => exact spellsNames_name (by simp) hname.isSpelled
  | call hname hreceiver hargs htight p =>
    refine spellsNames_name (by simp) (hname.elim Lexeme.IsName.isSpelled ?_)
    rintro rfl
    exact (TokenKind.isWord_of_mem_keywords (w := ("length", .lengthWord)) (by decide)).isWordPart
  | _ => exact ⟨nofun, nofun, nofun⟩

theorem IsPart.spellsNames {n : Node} (h : n.IsPart) : n.SpellsNames := by
  rcases h with h | h
  · exact h.spellsNames
  · cases h with
    | simple hn => cases hn <;> exact spellsNames_empty
    | _ => exact spellsNames_empty

/-- The trees that stand in programs. -/
inductive IsPiece : Node → Prop
  | program {n : Node} (h : n.IsProgram) : IsPiece n
  | importDecl {n : Node} (h : n.IsImport) : IsPiece n
  | classDecl {n : Node} (h : n.IsClass) : IsPiece n
  | member {n : Node} (h : n.IsMember) : IsPiece n
  | param {n : Node} (h : n.IsParam) : IsPiece n
  | type {n : Node} (h : n.IsType) : IsPiece n
  | part {n : Node} (h : n.IsPart) : IsPiece n

theorem IsPiece.child {n c : Node} (h : n.IsPiece) (hc : c ∈ n.children) : c.IsPiece := by
  have htype {type d : Node} (htype : type.IsType) (hd : d ∈ [type]) : d.IsPiece :=
    List.mem_singleton.1 hd ▸ .type htype
  cases h with
  | program h =>
    obtain ⟨himports, hclass, p⟩ := h
    rcases List.mem_append.1 hc with hc | hc
    · exact .importDecl (himports c hc)
    · exact List.mem_singleton.1 hc ▸ .classDecl hclass
  | importDecl h =>
    obtain ⟨hfirst, hothers, p⟩ := h
    cases hc
  | classDecl h =>
    cases h with
    | alone hname hmembers p => exact .member (hmembers c hc)
    | extending hname hparent hmembers p => exact .member (hmembers c hc)
  | member h =>
    cases h with
    | field hn =>
      obtain ⟨hname, hwritten, p⟩ := hn
      exact htype hwritten hc
    | method hname hwritten hparams hbody p =>
      simp only [List.cons_append, List.mem_cons, List.mem_append] at hc
      rcases hc with rfl | (hc | hc) | hc
      · exact .type hwritten
      · exact .param (hparams c hc)
      · exact .member (.field (Item.isVarDecl_of_mem_allLocals hbody c hc))
      · exact .part (.inr (Item.isStatement_of_mem_allNodes hbody c hc))
  | param h =>
    obtain ⟨hname, hwritten, p⟩ := h
    exact htype hwritten hc
  | type h =>
    obtain ⟨hname, harray, p⟩ := h
    cases hc
  | part h => exact .part (h.child hc)

/-- Every tree that is visited is a piece of the program. -/
theorem IsProgram.isPiece_of_mem {root : Node} (h : root.IsProgram) : ∀ v ∈ root.preorder, v.2.IsPiece :=
  forall_mem_visit (Q := fun _ n => n.IsPiece) (fun _ _ _ _ hn hc => hn.child (List.mem_of_getElem? hc))
    (by simpa using .program h)

namespace Accepted
variable {root : Node} {table : SymbolTable} {m : MethodInfo} {type : Ty}

/-- The types that a program writes are spelled like words. -/
theorem isSpelled_of_writes (h : root.Accepted table) (htype : root.Writes type) : Lexeme.IsSpelled type.name := by
  obtain ⟨v, hv, hwritten⟩ := htype
  have hpiece := h.shape.isPiece_of_mem v hv
  generalize v.2 = n at hpiece hwritten
  -- only written types and expressions write types
  have hspells (hkind : n.kind = .typeRef ∨ n.kind = .newObject ∨ n.kind = .newArray ∨ n.kind = .arrayLiteral) :
      n.SpellsNames := by
    cases hpiece with
    | type h => exact h.spellsNames
    | part h => exact h.spellsNames
    | program h =>
      cases h
      simp at hkind
    | importDecl h =>
      cases h
      simp at hkind
    | classDecl h => cases h <;> simp at hkind
    | param h =>
      cases h
      simp at hkind
    | member h =>
      cases h with
      | field h =>
        cases h
        simp at hkind
      | method => simp at hkind
  unfold writtenType? at hwritten
  split at hwritten
  · rename_i hkind
    have hn := hspells (.inl hkind)
    have hof := eq_ok_of_toOption hwritten
    unfold Ty.ofNode at hof
    split at hof
    · cases hof
    split at hof
    · simp only [bind_eq_ok, pure_eq_ok] at hof
      obtain ⟨name, hname, rfl⟩ := hof
      exact hn.name name hname
    · simp only [bind_eq_ok, pure_eq_ok] at hof
      obtain ⟨name, hname, rfl⟩ := hof
      exact hn.name name (word_of_text hname)
  · rename_i hkind
    obtain ⟨name, hname, rfl⟩ := Option.map_eq_some_iff.1 hwritten
    exact (hspells (.inr (.inl hkind))).name name (eq_ok_of_toOption hname)
  · rename_i hkind
    obtain ⟨name, hname, rfl⟩ := Option.map_eq_some_iff.1 hwritten
    exact (hspells (.inr (.inr (.inl hkind)))).name name (eq_ok_of_toOption hname)
  · rename_i hkind
    obtain ⟨name, hname, rfl⟩ := Option.map_eq_some_iff.1 hwritten
    exact (hspells (.inr (.inr (.inr hkind)))).element name (eq_ok_of_toOption hname)
  · cases hwritten

theorem isName_className (h : root.Accepted table) : Lexeme.IsName table.className := by
  obtain ⟨i, c, hc, -, hclass⟩ := h.shape.exists_class
  have hbuilt := h.built
  simp only [SymbolTable.build, bind_eq_ok, pure_eq_ok, hc, Except.ok.injEq, exists_eq_left'] at hbuilt
  obtain ⟨imports, -, name, hname, fields, -, methods, -, rfl⟩ := hbuilt
  cases hclass with
  | alone hown hmembers p => exact Except.ok.inj hname ▸ hown
  | extending hown hparent hmembers p => exact Except.ok.inj hname ▸ hown

/-- Imports are names with dots between them. -/
theorem exists_names_of_import (h : root.Accepted table) {imported : String} (himported : imported ∈ table.imports) :
    ∃ names, (∀ name ∈ names, Lexeme.IsName name) ∧ imported = String.intercalate "." names := by
  have hbuilt := h.built
  simp only [SymbolTable.build, bind_eq_ok, pure_eq_ok] at hbuilt
  obtain ⟨c, -, imports, himports, name, -, fields, -, methods, -, rfl⟩ := hbuilt
  obtain ⟨i, hi, htext⟩ := exists_of_mem_mapM himports himported
  obtain ⟨hmem, hkind⟩ := mem_childrenOf hi
  obtain ⟨hleaves, hclass, p⟩ := h.shape
  rcases List.mem_append.1 hmem with hmem | hmem
  · obtain ⟨hfirst, hothers, q⟩ := hleaves i hmem
    exact ⟨_, List.forall_mem_cons.2 ⟨hfirst, hothers⟩, (Except.ok.inj htext).symm⟩
  · obtain rfl := List.mem_singleton.1 hmem
    cases hclass <;> cases hkind

/-- An import has no other characters than those of words and dots. -/
theorem mem_import (h : root.Accepted table) {imported : String} (himported : imported ∈ table.imports) {c : Char}
    (hc : c ∈ imported.toList) : Lexer.isWordPart c = true ∨ c = '.' := by
  obtain ⟨names, hnames, rfl⟩ := h.exists_names_of_import himported
  rw [String.toList_intercalate] at hc
  clear himported
  induction names with
  | nil => cases hc
  | cons first rest ih =>
    obtain ⟨hfirst, hrest⟩ := List.forall_mem_cons.1 hnames
    cases rest with
    | nil => exact .inl (hfirst.isSpelled c (by simpa using hc))
    | cons next rest =>
      simp only [List.map_cons, List.intercalate_cons_cons, List.mem_append] at hc ih
      rcases hc with (hc | hc) | hc
      · exact .inl (hfirst.isSpelled c hc)
      · exact .inr (by simpa using hc)
      · exact ih hrest hc

end Accepted
end Node

/-! ## Contexts -/

namespace Context

/-- The types that a context has are spelled like words. -/
structure Spelled (s : Context) : Prop where
  className : Lexeme.IsSpelled s.table.className
  inScope : ∀ name, s.HasVariable name → Lexeme.IsSpelled (s.variableType name).name
  results : ∀ name m, s.table.method? name = some m → Lexeme.IsSpelled m.returnType.name
  params : ∀ name m, s.table.method? name = some m → ∀ p ∈ m.params, Lexeme.IsSpelled p.type.name

variable {s : Context}

/-- No stage makes a name that is spelled differently. -/
theorem Spelled.stable (hs : s.Spelled) : s.Stable Node.SpellsNames where
  constant c p := by cases c <;> exact ⟨nofun, nofun, nofun⟩
  children _ h := ⟨h.name, h.element, h.created⟩
  call _ _ _ _ _ h := ⟨h.name, h.element, nofun⟩
  gathered {name m last args p} hm hrest := by
    refine ⟨nofun, fun name hname => ?_, nofun⟩
    obtain rfl := Except.ok.inj hname
    refine hs.params _ m hm last ?_
    unfold MethodInfo.rest? at hrest
    split at hrest
    · exact List.mem_of_getLast? hrest
    · cases hrest

end Context

theorem Node.Accepted.spelled {root : Node} {table : SymbolTable} {m : MethodInfo} (h : root.Accepted table)
    (hm : table.method? m.name = some m) : (table.context m).Spelled := by
  have hmem (name : String) (m : MethodInfo) (hm : table.method? name = some m) : m ∈ table.methods :=
    List.mem_of_find?_eq_some hm
  refine ⟨h.isName_className.isSpelled, fun name hname => ?_,
    fun name m hm => h.isSpelled_of_writes (h.writes_returnType (hmem name m hm)),
    fun name m hm p hp => h.isSpelled_of_writes (h.writes_variable (hmem name m hm) (List.mem_append_left _ hp))⟩
  obtain ⟨v, hv, htype⟩ := exists_variable hm hname
  rw [htype]
  exact h.isSpelled_of_writes (hv.elim (fun hv => h.writes_field (List.mem_of_find?_eq_some hv))
    fun hv => h.writes_variable (hmem _ m hm) hv)

/-- The types of expressions are spelled like words. -/
theorem Typed.isSpelled {s : Context} {e : Node} {type : Ty} (h : Typed s e type) (hs : s.Spelled)
    (he : e.Everywhere Node.SpellsNames) : Lexeme.IsSpelled type.name := by
  induction h with
  | varRef h p =>
    rcases h with h | ⟨-, h⟩
    · exact hs.inScope _ h
    · rw [h.variableType]
      exact Lexeme.isSpelled_any
  | thisRef h p => exact hs.className
  | paren hinner p ih => exact ih (he.child (by simp) hinner.kind_ne)
  | newObject name hknown p => exact he.here.name name rfl
  | newArray name hsize hint hknown p ih => exact he.here.name name rfl
  | arrayLiteral helements hfit hadmits p ih =>
    exact ih _ (by simp) (he.child (by simp) (helements _ (by simp)).kind_ne)
  | gatheredLiteral name helements hfit hadmits hknown p => exact he.here.element name rfl
  | @arrayAccess array index type indexType harray hindex htype hint hknown p ih ihindex =>
    unfold Ty.indexed
    split
    · exact Lexeme.isSpelled_any
    · exact ih (he.child (by simp) harray.kind_ne)
  | @binary op o left right leftType rightType hop hleft hright halike hwanted hadmits p =>
    cases o with
    | arithmetic a => exact Lexeme.isSpelled_int
    | _ => exact Lexeme.isSpelled_boolean
  | ownCall hm hreceiver hargs haccepts p => exact hs.results _ _ hm
  | @foreignCall name receiver type args =>
    rcases Context.foreign_cases name args with h | h
    · exact h ▸ Lexeme.isSpelled_any
    · exact h ▸ Lexeme.isSpelled_int
  | @importCall name imported args =>
    rcases Context.foreign_cases name args with h | h
    · exact h ▸ Lexeme.isSpelled_any
    · exact h ▸ Lexeme.isSpelled_int
  | boolLiteral b p => exact Lexeme.isSpelled_boolean
  | unary hoperand hboolean p => exact Lexeme.isSpelled_boolean
  | _ => exact Lexeme.isSpelled_int

namespace Context.Gives
variable {s : Context} {P : Node → Prop} {kind : Kind} {expected : Option Ty} {type t : Ty} {code : Element}

/-- A property of names of types that the type of an expression has, that which is wanted and those of imports, is one
of the name of the type of its value. -/
theorem name_of {Q : String → Prop} (hint : Q "int") (hboolean : Q "boolean") (hany : Q "any")
    (himport : ∀ name, s.IsImportName name → Q name) (hexpected : ∀ t ∈ expected, Q t.name)
    (h : s.Gives P kind expected type code) (htype : Q type.name) (hcode : code.type = .ok t) : Q t.name := by
  induction h generalizing t with
  | int i => exact Except.ok.inj hcode ▸ hint
  | boolean b => exact Except.ok.inj hcode ▸ hboolean
  | var name hknown => exact Except.ok.inj hcode ▸ htype
  | @foreign kind expected name type _ _ =>
    obtain rfl := Except.ok.inj hcode
    unfold SymbolTable.askedType
    cases hfilter : expected.filter (· ≠ .any) with
    | none => exact hint
    | some wanted => exact hexpected wanted (Option.filter_eq_some_iff.1 hfilter).1
  | @element expected name array index p code type hnode harray hgives helement ih =>
    obtain rfl := Except.ok.inj hcode
    have helementWanted : Q (SymbolTable.elementWanted expected).name := by
      unfold SymbolTable.elementWanted
      split
      · split
        · exact hint
        · exact hexpected _ rfl
      · exact hint
    exact ih (fun wanted hwanted => Option.some.inj hwanted ▸ helementWanted) hany (t := type) helement
  | importRef h hlax => exact Except.ok.inj hcode ▸ himport _ h
  | nothing => cases hcode
  | discarded _ => cases hcode

end Context.Gives
end JmmCompiler

import JmmCompiler.Pipeline
import JmmCompiler.Proofs.Validated
/-! Programs that no check objects to: what is known of their methods. -/
namespace JmmCompiler

/-- A program that is read from a text, with its symbol table, and that no check objects to. -/
structure Node.Accepted (root : Node) (table : SymbolTable) : Prop where
  shape : root.IsProgram
  built : SymbolTable.build root = .ok table
  valid : Check.validate table root = .ok []

/-- The surroundings of the expressions of a method. -/
def SymbolTable.context (t : SymbolTable) (m : MethodInfo) : Context := ⟨t, m.name, m.isStatic, false⟩

/-- What is known of the declaration of a method in a program that no check objects to. -/
structure SymbolTable.Declares (t : SymbolTable) (decl : Node) (m : MethodInfo) : Prop where
  name : decl.name = .ok m.name
  made : MethodInfo.ofNode decl = .ok m
  found : t.method? m.name = some m
  within : (t.context m).Within decl
  returnType : ∃ written, decl.returnType = .ok written ∧ Ty.ofNode written = .ok m.returnType
  shaped : ∀ n ∈ decl.statements, n.IsStatement
  clears : ∀ n ∈ decl.statements, (t.context m).Clears decl n
  completes : m.returnType ≠ .void → Node.anyCompletes decl.statements = true
  distinct : ((m.params ++ m.locals).map (·.name)).Nodup
  values : ∀ v ∈ m.params ++ m.locals, v.type ≠ .void
  rest : ∀ last, m.rest? = some last → last.type.isArray = true

namespace Node

theorem IsExpression.everywhere {e : Node} (h : e.IsExpression) : e.Everywhere IsExpression := by
  induction h with
  | intLiteral value p => exact .intro (.intLiteral value p) (by simp)
  | boolLiteral value p => exact .intro (.boolLiteral value p) (by simp)
  | thisRef p => exact .intro (.thisRef p) (by simp)
  | varRef hname p => exact .intro (.varRef hname p) (by simp)
  | newObject hname p => exact .intro (.newObject hname p) (by simp)
  | paren hinner p ih => exact .intro (.paren hinner p) (by simpa using fun _ => ih)
  | newArray hname hsize p ih => exact .intro (.newArray hname hsize p) (by simpa using fun _ => ih)
  | arrayLiteral helements p ih => exact .intro (.arrayLiteral helements p) fun e he _ => ih e he
  | arrayAccess harray hindex htight p ih ihindex =>
    exact .intro (.arrayAccess harray hindex htight p) (by simpa using ⟨fun _ => ih, fun _ => ihindex⟩)
  | length harray htight p ih => exact .intro (.length harray htight p) (by simpa using fun _ => ih)
  | call hname hreceiver hargs htight p ih ihargs =>
    exact .intro (.call hname hreceiver hargs htight p)
      (List.forall_mem_cons.2 ⟨fun _ => ih, fun e he _ => ihargs e he⟩)
  | unary hoperand htight p ih => exact .intro (.unary hoperand htight p) (by simpa using fun _ => ih)
  | binary hop hleft hright hleftTight hrightTight p ihl ihr =>
    exact .intro (.binary hop hleft hright hleftTight hrightTight p)
      (by simpa using ⟨fun _ => ihl, fun _ => ihr⟩)

theorem IsStatement.isStatement_kind {n : Node} (h : n.IsStatement) : n.kind.isStatement := by
  cases h with
  | simple hn => cases hn <;> rfl
  | _ => rfl

/-- Expressions and statements. -/
def IsPart (n : Node) : Prop := n.IsExpression ∨ n.IsStatement

theorem IsExpression.everywhere_isPart {e : Node} (h : e.IsExpression) : e.Everywhere IsPart :=
  h.everywhere.imp fun _ => .inl

theorem IsStatement.everywhere_isPart {n : Node} (h : n.IsStatement) : n.Everywhere IsPart := by
  induction h with
  | simple hn =>
    refine .intro (.inr (.simple hn)) ?_
    cases hn with
    | assign hname hvalue p q =>
      simpa using ⟨(IsExpression.varRef hname p).everywhere_isPart,
        fun _ => hvalue.everywhere_isPart⟩
    | arrayAssign hname hindex hvalue p q =>
      simpa using ⟨(IsExpression.varRef hname p).everywhere_isPart,
        fun _ => hindex.everywhere_isPart, fun _ => hvalue.everywhere_isPart⟩
    | exprStmt he p => simpa using fun _ => he.everywhere_isPart
    | returnNothing p => simp
    | returnValue hvalue p => simpa using fun _ => hvalue.everywhere_isPart
  | block hns p ih => exact .intro (.inr (.block hns p)) fun n hn _ => ih n hn
  | ifThen hc ht p ih =>
    exact .intro (.inr (.ifThen hc ht p)) (by simpa using ⟨fun _ => hc.everywhere_isPart, fun _ => ih⟩)
  | ifElse hc ht he p iht ihe =>
    exact .intro (.inr (.ifElse hc ht he p))
      (by simpa using ⟨fun _ => hc.everywhere_isPart, fun _ => iht, fun _ => ihe⟩)
  | whileLoop hc hb p ih =>
    exact .intro (.inr (.whileLoop hc hb p)) (by simpa using ⟨fun _ => hc.everywhere_isPart, fun _ => ih⟩)

/-- The parts of expressions and statements are no method declarations. -/
theorem IsPart.kind_child {n : Node} (h : n.IsPart) : ∀ c ∈ n.children, c.kind ≠ .methodDecl := by
  rcases h with he | hn
  · cases he with
    | paren hinner p => simpa using hinner.kind_ne
    | newArray hname hsize p => simpa using hsize.kind_ne
    | arrayLiteral helements p => exact fun c hc => (helements c hc).kind_ne
    | arrayAccess harray hindex htight p => simpa using ⟨harray.kind_ne, hindex.kind_ne⟩
    | length harray htight p => simpa using harray.kind_ne
    | call hname hreceiver hargs htight p =>
      exact List.forall_mem_cons.2 ⟨hreceiver.kind_ne, fun c hc => (hargs c hc).kind_ne⟩
    | unary hoperand htight p => simpa using hoperand.kind_ne
    | binary hop hleft hright hleftTight hrightTight p => simpa using ⟨hleft.kind_ne, hright.kind_ne⟩
    | _ => simp
  · cases hn with
    | simple hn =>
      cases hn with
      | assign hname hvalue p q => simpa using hvalue.kind_ne
      | arrayAssign hname hindex hvalue p q => simpa using ⟨hindex.kind_ne, hvalue.kind_ne⟩
      | exprStmt he p => simpa using he.kind_ne
      | returnNothing p => simp
      | returnValue hvalue p => simpa using hvalue.kind_ne
    | block hns p => exact fun c hc => (hns c hc).kind_ne
    | ifThen hc ht p => simpa using ⟨hc.kind_ne, ht.kind_ne⟩
    | ifElse hc ht he p => simpa using ⟨hc.kind_ne, ht.kind_ne, he.kind_ne⟩
    | whileLoop hc hb p => simpa using ⟨hc.kind_ne, hb.kind_ne⟩

theorem IsPart.child {n c : Node} (h : n.IsPart) (hc : c ∈ n.children) : c.IsPart := by
  have heverywhere : n.Everywhere IsPart := Or.elim h IsExpression.everywhere_isPart IsStatement.everywhere_isPart
  exact (heverywhere.child hc (kind_child h c hc)).here

end Node

namespace Node.IsProgram
variable {root : Node}

/-- The class of a program. -/
theorem exists_class (h : root.IsProgram) :
    ∃ i c, root.classDecl = .ok c ∧ root.at? [i] = some c ∧ c.IsClass := by
  obtain ⟨himports, hdecl, p⟩ := h
  rename_i imports decl
  have hkind : decl.kind = .classDecl := by cases hdecl <;> rfl
  have hnone : imports.find? (·.kind = .classDecl) = none := by
    rw [List.find?_eq_none]
    intro i hi
    obtain ⟨hfirst, hothers, q⟩ := himports i hi
    simp
  refine ⟨imports.length, decl, ?_, ?_, hdecl⟩
  · simp [classDecl, List.find?_append, hnone, hkind]
  · simp [at?]

end Node.IsProgram

namespace Check

/-- Names that are not repeated. -/
theorem nodup_of_repeated {what : String} {seen : List String} {named : List (Node × String)}
    (h : repeated what seen named = []) :
    (named.map (·.2)).Nodup ∧ ∀ name ∈ named.map (·.2), name ∉ seen := by
  induction named generalizing seen with
  | nil => simp
  | cons first rest ih =>
    obtain ⟨n, name⟩ := first
    rw [repeated, List.append_eq_nil_iff] at h
    obtain ⟨hdistinct, hseen⟩ := ih h.2
    have hnew : name ∉ seen := by
      intro hmem
      simp [hmem] at h
    simp only [List.map_cons, List.nodup_cons, List.forall_mem_cons]
    refine ⟨⟨fun hmem => hseen name hmem (by simp), hdistinct⟩, hnew, fun x hx hmem => ?_⟩
    exact hseen x hx (List.mem_cons_of_mem _ hmem)

theorem nodup_of_unique {what : String} {nodes : List Node} (h : unique what nodes = .ok []) :
    ∃ names, nodes.mapM Node.name = .ok names ∧ names.Nodup := by
  simp only [unique, bind_eq_ok, pure_eq_ok] at h
  obtain ⟨named, hnamed, hrepeated⟩ := h
  refine ⟨named.map (·.2), ?_, (nodup_of_repeated hrepeated).1⟩
  refine mapM_eq_ok_map hnamed fun n pair hpair => ?_
  simp only [bind_eq_ok, pure_eq_ok] at hpair
  obtain ⟨name, hname, rfl⟩ := hpair
  exact hname

end Check
/-- Of elements with different names each is the one that is found under its name. -/
theorem find?_of_nodup {α : Type} {name : α → String} {xs : List α} {x : α}
    (h : (xs.map name).Nodup) (hx : x ∈ xs) : xs.find? (name · = name x) = some x := by
  induction xs with
  | nil => simp at hx
  | cons y ys ih =>
    rw [List.map_cons, List.nodup_cons] at h
    by_cases heq : name y = name x
    · have hnot : x ∉ ys := fun hmem => h.1 (heq ▸ List.mem_map_of_mem hmem)
      obtain rfl := (List.mem_cons.1 hx).resolve_right hnot
      simp
    · rw [List.find?_cons_of_neg (by simpa using heq)]
      refine ih h.2 ((List.mem_cons.1 hx).resolve_left ?_)
      rintro rfl
      exact heq rfl

theorem Symbol.name_ofNode {n : Node} {v : Symbol} (h : Symbol.ofNode n = .ok v) : n.name = .ok v.name := by
  simp only [Symbol.ofNode, bind_eq_ok, pure_eq_ok] at h
  obtain ⟨name, hname, written, hwritten, type, htype, rfl⟩ := h
  exact hname

namespace MethodInfo
variable {decl : Node} {m : MethodInfo}

/-- What a method is made from. -/
structure MadeFrom (m : MethodInfo) (decl : Node) : Prop where
  name : decl.name = .ok m.name
  returnType : ∃ written, decl.returnType = .ok written ∧ Ty.ofNode written = .ok m.returnType
  params : decl.params.mapM Symbol.ofNode = .ok m.params
  locals : decl.locals.mapM Symbol.ofNode = .ok m.locals
  isStatic : m.isStatic = decl.flag "is_static"
  rest : ∀ last, m.rest? = some last → last.type.isArray = true

theorem madeFrom (h : MethodInfo.ofNode decl = .ok m) : m.MadeFrom decl := by
  unfold MethodInfo.ofNode at h
  split at h
  · rename_i p hp
    simp only [bind_eq_ok, pure_eq_ok] at h
    obtain ⟨type, htype, _, rfl, name, hname, written, hwritten, returnType, hreturn, params, hparams,
      locals, hlocals, rfl⟩ := h
    refine ⟨hname, ⟨written, hwritten, hreturn⟩, hparams, hlocals, rfl, fun last hlast => ?_⟩
    -- the last parameter is made from the last declaration
    by_cases hvarargs : type.flag "is_varargs" = true
    · simp only [rest?, hvarargs, if_true] at hlast
      have hsymbol : Symbol.ofNode p = .ok last := by
        rw [List.getLast?_eq_getElem?] at hp hlast
        obtain ⟨v, hv, hp⟩ := getElem?_of_mapM hparams hp
        rw [length_of_mapM hparams, hv] at hlast
        exact Option.some.inj hlast ▸ hp
      simp only [Symbol.ofNode, bind_eq_ok, pure_eq_ok, htype, Except.ok.injEq, exists_eq_left'] at hsymbol
      obtain ⟨name, hname, t, ht, rfl⟩ := hsymbol
      unfold Ty.ofNode at ht
      by_cases hkind : type.kind = .typeRef
      · simp only [hkind, ne_eq, not_true, if_false, hvarargs, Bool.or_true, if_true, bind_eq_ok,
          pure_eq_ok] at ht
        obtain ⟨_, -, rfl⟩ := ht
        rfl
      · simp [hkind] at ht
    · simp [rest?, hvarargs] at hlast
  · simp only [bind_eq_ok, pure_eq_ok] at h
    obtain ⟨_, rfl, name, hname, written, hwritten, returnType, hreturn, params, hparams, locals, hlocals,
      rfl⟩ := h
    exact ⟨hname, ⟨written, hwritten, hreturn⟩, hparams, hlocals, rfl, by simp [rest?]⟩

end MethodInfo

/-- The fields and the methods of a symbol table. -/
theorem SymbolTable.members_of_build {root c : Node} {table : SymbolTable} (h : SymbolTable.build root = .ok table)
    (hc : root.classDecl = .ok c) :
    (c.childrenOf [.varDecl]).mapM Symbol.ofNode = .ok table.fields ∧
      (c.childrenOf [.methodDecl]).mapM MethodInfo.ofNode = .ok table.methods := by
  simp only [SymbolTable.build, bind_eq_ok, pure_eq_ok, hc, Except.ok.injEq, exists_eq_left'] at h
  obtain ⟨imports, -, name, -, fields, hfields, methods, hmethods, rfl⟩ := h
  exact ⟨hfields, hmethods⟩

namespace Node.Accepted
variable {root c decl : Node} {table : SymbolTable}

theorem table_eq (h : root.Accepted table) (hc : root.classDecl = .ok c) :
    (c.childrenOf [.varDecl]).mapM Symbol.ofNode = .ok table.fields ∧
      (c.childrenOf [.methodDecl]).mapM MethodInfo.ofNode = .ok table.methods := SymbolTable.members_of_build h.built hc

theorem passes (h : root.Accepted table) {path : Path} {n : Node} (hn : root.at? path = some n) :
    Check.Passes ⟨table, root.methodAt? path n, n⟩ := Check.passes_of_validate h.valid (mem_preorder hn)

/-- No two methods have one name. -/
theorem nodup_methods (h : root.Accepted table) : (table.methods.map (·.name)).Nodup := by
  obtain ⟨i, c, hc, hat, hclass⟩ := h.shape.exists_class
  obtain ⟨-, hmethods⟩ := h.table_eq hc
  have hrule := h.passes hat Check.duplicateDeclarations (by simp [Check.all])
  have hkind : c.kind = .classDecl := by cases hclass <;> rfl
  simp only [Check.duplicateDeclarations, hkind] at hrule
  obtain ⟨-, hunique⟩ := Check.append_eq_ok_nil.1 hrule
  obtain ⟨names, hnames, hnodup⟩ := Check.nodup_of_unique hunique
  have heq := mapM_eq_ok_map hmethods fun decl m hm => (MethodInfo.madeFrom hm).name
  rwa [← Except.ok.inj (hnames.symm.trans heq)]

theorem mem_childrenOf {n c : Node} {kind : Kind} (h : c ∈ n.childrenOf [kind]) :
    c ∈ n.children ∧ c.kind = kind := by
  simpa [childrenOf] using h

/-- A method declaration has the shape of one. -/
theorem shape_of_mem (hclass : c.IsClass) (hdecl : decl ∈ c.childrenOf [.methodDecl]) : decl.IsMember := by
  obtain ⟨hmem, -⟩ := mem_childrenOf hdecl
  cases hclass with
  | alone hname hmembers p => exact hmembers decl hmem
  | extending hname hparent hmembers p => exact hmembers decl hmem

/-- The statements of a method have the shape of statements. -/
theorem isStatement_of_mem (hdecl : decl.IsMember) (hkind : decl.kind = .methodDecl) {n : Node}
    (hn : n ∈ decl.statements) : n.IsStatement := by
  obtain ⟨hmem, hstatement⟩ := List.mem_filter.1 hn
  cases hdecl with
  | field hdecl =>
    obtain ⟨hname, htype, p⟩ := hdecl
    cases hkind
  | @method name isPublic isStatic type params body hname htype hparams hbody p =>
    simp only [List.cons_append, List.mem_cons, List.mem_append] at hmem
    rcases hmem with rfl | (hmem | hmem) | hmem
    · obtain ⟨hname, harray, q⟩ := htype
      cases hstatement
    · obtain ⟨hname, htype, q⟩ := hparams n hmem
      cases hstatement
    · obtain ⟨hname, htype, q⟩ := Item.isVarDecl_of_mem_allLocals hbody n hmem
      cases hstatement
    · exact Item.isStatement_of_mem_allNodes hbody n hmem

/-- The context of a method is within its declaration. -/
theorem within (hdecl : decl.IsMember) (hkind : decl.kind = .methodDecl) {m : MethodInfo}
    (hm : m.MadeFrom decl) : (table.context m).Within decl := by
  refine ⟨?_, hm.isStatic.symm, rfl⟩
  have hname := hm.name
  cases hdecl with
  | field hdecl =>
    obtain ⟨_, _, p⟩ := hdecl
    cases hkind
  | method _ _ _ _ p => exact congrArg (some <$> ·) hname

/-- Declarations without reports have values. -/
theorem ne_void_of_notVoid {what : String} {nodes : List Node} {symbols : List Symbol}
    (hsymbols : nodes.mapM Symbol.ofNode = .ok symbols) (h : Check.notVoid what nodes = .ok []) :
    ∀ v ∈ symbols, v.type ≠ .void := by
  intro v hv hvoid
  simp only [Check.notVoid, bind_eq_ok, pure_eq_ok] at h
  obtain ⟨found, hfound, hflat⟩ := h
  obtain ⟨d, hd, hdv⟩ := exists_of_mem_mapM hsymbols hv
  obtain ⟨reports, hmem, hreports⟩ := exists_of_mapM hfound hd
  simp only [Symbol.ofNode, bind_eq_ok, pure_eq_ok] at hdv
  obtain ⟨name, hname, written, hwritten, type, htype, rfl⟩ := hdv
  obtain rfl : type = .void := hvoid
  simp only [hwritten, ok_bind, htype, if_true, hname, pure_eq_ok,
    List.flatten_eq_nil_iff.1 hflat _ hmem] at hreports
  cases hreports

/-- What is known of a method declaration. -/
theorem declares (h : root.Accepted table) (hc : root.classDecl = .ok c)
    (hdecl : decl ∈ c.childrenOf [.methodDecl]) {m : MethodInfo} (hm : MethodInfo.ofNode decl = .ok m) :
    table.Declares decl m := by
  obtain ⟨i, c', hc', hat, hclass⟩ := h.shape.exists_class
  obtain rfl : c' = c := Except.ok.inj (hc'.symm.trans hc)
  obtain ⟨-, hmethods⟩ := h.table_eq hc
  have hmade := MethodInfo.madeFrom hm
  have hmember := shape_of_mem hclass hdecl
  obtain ⟨hmem, hkind⟩ := mem_childrenOf hdecl
  obtain ⟨j, hj⟩ := List.getElem?_of_mem hmem
  have hat : root.at? [i, j] = some decl := at?_append_singleton hat hj
  have hfound : m ∈ table.methods := by
    obtain ⟨m', hm', heq⟩ := exists_of_mapM hmethods hdecl
    exact Except.ok.inj (heq.symm.trans hm) ▸ hm'
  have hwithin : (table.context m).Within decl := within hmember hkind hmade
  have hpasses := h.passes hat
  rw [show root.methodAt? [i, j] decl = some decl from if_pos hkind] at hpasses
  obtain ⟨written, hwritten, hreturn⟩ := hmade.returnType
  have hsymbols : (decl.params ++ decl.locals).mapM Symbol.ofNode = .ok (m.params ++ m.locals) := by
    rw [List.mapM_append, hmade.params, hmade.locals]
    rfl
  have hflow := hpasses Check.controlFlow (by simp [Check.all])
  simp only [Check.controlFlow, hkind, Check.methodFlow] at hflow
  simp only [hwritten, hreturn, hmade.name, ok_bind] at hflow
  rw [bind_eq_ok] at hflow
  obtain ⟨voids, hvoids, hrest⟩ := hflow
  obtain ⟨rfl, hmissing⟩ : voids = [] ∧
      (decide (m.returnType ≠ .void) && !anyCompletes decl.statements) = false := by
    split at hrest
    · simp at hrest
    · rename_i hcomplete
      simp only [pure_eq_ok, List.append_eq_nil_iff, bind_eq_ok] at hrest
      obtain ⟨_, rfl, ⟨rfl, -⟩, -⟩ := hrest
      exact ⟨rfl, by simpa using hcomplete⟩
  have hshaped (n : Node) (hn : n ∈ decl.statements) : n.IsStatement := isStatement_of_mem hmember hkind hn
  have hclears : (table.context m).Clears decl decl :=
    (everywhere_visited hat hkind).imp fun n hn => by
      obtain ⟨p, hp, hmethod⟩ := hn
      have := Check.passes_of_validate h.valid hp
      rwa [hmethod] at this
  refine ⟨hmade.name, hm, find?_of_nodup h.nodup_methods hfound, hwithin, hmade.returnType, hshaped,
    fun n hn => ?_, fun hvoid => ?_, ?_, ?_, hmade.rest⟩
  · exact hclears.child (List.mem_of_mem_filter hn) (hshaped n hn).kind_ne
  · simpa [hvoid] using hmissing
  · have hrule := hpasses Check.duplicateDeclarations (by simp [Check.all])
    simp only [Check.duplicateDeclarations, hkind] at hrule
    obtain ⟨names, hnames, hnodup⟩ := Check.nodup_of_unique hrule
    have heq := mapM_eq_ok_map hsymbols fun d v hv => Symbol.name_ofNode hv
    rwa [← Except.ok.inj (hnames.symm.trans heq)]
  · exact ne_void_of_notVoid hsymbols hvoids

end Node.Accepted

namespace Compile
variable {table : SymbolTable} {root : Node} {events : List Event}

theorem runOn_ofExcept {α : Type} (x : Except Failure α) : runOn (ofExcept x) events = (x, events) := by
  cases x <;> rfl

/-- The reports of the checks, one after the other. -/
theorem validate_eq_ok {checks : List Check} {reports : List Report}
    {events' : List Event} (h : runOn (validate table root checks) events = (.ok reports, events')) :
    ∃ found, checks.mapM (·.run table root) = .ok found ∧ found.flatten = reports := by
  induction checks generalizing events reports events' with
  | nil =>
    obtain ⟨rfl, -⟩ : [] = reports ∧ events = events' := by simpa [validate] using h
    exact ⟨[], rfl, rfl⟩
  | cons c rest ih =>
    simp only [validate, runOn_bind_eq_ok, runOn_ofExcept] at h
    obtain ⟨found, _, hfound, _, _, -, more, _, hrest, h⟩ := h
    obtain ⟨others, hothers, rfl⟩ := ih hrest
    simp only [runOn_pure, Prod.mk.injEq, Except.ok.injEq] at h hfound
    refine ⟨found :: others, ?_, h.1⟩
    rw [mapM_eq_ok_iff]
    exact .cons hfound.1 (mapM_eq_ok_iff.1 hothers)

end Compile

/-- A tree that is analyzed without reports has a symbol table, and no check objects to it. -/
theorem Node.validate_of_analyze {root : Node} {table : SymbolTable}
    (h : root.analyze = .ok { reports := [], table := some table }) :
    SymbolTable.build root = .ok table ∧ Check.validate table root = .ok [] := by
  obtain ⟨events, hrun⟩ : ∃ events,
      runOn (Compile.analyze root) [] = (.ok { reports := [], table := some table }, events) := ⟨_, Prod.ext h rfl⟩
  unfold Compile.analyze at hrun
  cases hbuild : SymbolTable.build root with
  | error e =>
    rw [hbuild] at hrun
    cases e <;> cases congrArg Prod.fst hrun
  | ok built =>
    rw [hbuild] at hrun
    simp only [runOn_bind_eq_ok, runOn_pure, Prod.mk.injEq, Except.ok.injEq, Compilation.mk.injEq,
      Option.some.injEq] at hrun
    obtain ⟨_, _, -, reports, _, hvalidate, _, _, -, ⟨rfl, rfl, -⟩, -⟩ := hrun
    obtain ⟨found, hfound, hflat⟩ := Compile.validate_eq_ok hvalidate
    refine ⟨rfl, ?_⟩
    rw [Check.validate, hfound, ok_bind, hflat]
    rfl

/-- What is read and analyzed without reports. -/
theorem Node.accepted_of_analyze {source : String} {root : Node} {table : SymbolTable}
    (hparse : Node.parse source = .ok root)
    (hanalyze : root.analyze = .ok { reports := [], table := some table }) : root.Accepted table :=
  ⟨Node.isProgram_of_parse hparse, (Node.validate_of_analyze hanalyze).1, (Node.validate_of_analyze hanalyze).2⟩

namespace SymbolTable.Declares
variable {t : SymbolTable} {decl n : Node} {m : MethodInfo}

/-- A part of a statement of a method. -/
theorem typed (h : t.Declares decl m) (hclears : (t.context m).Clears decl n) (hn : n.IsExpression) :
    ∃ type, Typed (t.context m) n type := hn.exists_typed h.within hclears

theorem fits_part (h : t.Declares decl m) (hclears : (t.context m).Clears decl n) (hn : n.IsStatement) :
    Fits (t.context m) m.returnType n := by
  obtain ⟨written, hwritten, hreturn⟩ := h.returnType
  exact hn.fits h.within hwritten hreturn hclears

/-- The statements of a method fit. -/
theorem fits (h : t.Declares decl m) (hn : n ∈ decl.statements) : Fits (t.context m) m.returnType n :=
  h.fits_part (h.clears n hn) (h.shaped n hn)

end SymbolTable.Declares
end JmmCompiler

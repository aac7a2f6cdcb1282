import JmmCompiler.Proofs.KnownTypes
import JmmCompiler.Proofs.Prepared
import JmmCompiler.Proofs.StagedStatements
/-! Methods on the way to lowering. Every stage succeeds on a method whose statements fit, and leaves its declarations as
they are. -/
namespace JmmCompiler

/-- A written type, or a parameter or a variable with its type. -/
def Node.IsDeclaration (n : Node) : Prop :=
  (n.kind = .typeRef ∨ n.kind = .param ∨ n.kind = .varDecl) ∧ ∀ c ∈ n.children, c.kind = .typeRef ∧ c.children = []

namespace Node.IsDeclaration
variable {n : Node} {s : Context} {returnType : Ty}

theorem kind_ne (h : n.IsDeclaration) : n.kind ≠ .methodDecl ∧ n.kind ≠ .call ∧ n.kind.isStatement = false := by
  rcases h.1 with h | h | h <;> simp [h, Kind.isStatement]

theorem not_fits (h : n.IsDeclaration) : ¬Fits s returnType n := by
  intro hfits
  rcases h.1 with h | h | h <;> cases hfits <;> cases h

theorem mapM_eq {f : Node → Except Failure Node} (h : n.IsDeclaration)
    (hf : ∀ attributes p, f ⟨.typeRef, attributes, [], p⟩ = .ok ⟨.typeRef, attributes, [], p⟩) :
    n.children.mapM f = .ok n.children := by
  refine mapM_eq_ok_iff.2 (List.forall₂_same.2 fun c hc => ?_)
  obtain ⟨kind, attributes, children, p⟩ := c
  obtain ⟨rfl, rfl⟩ : kind = .typeRef ∧ children = [] := h.2 _ hc
  exact hf attributes p

theorem fold (h : n.IsDeclaration) : n.fold = .ok n := by
  have hchildren := h.mapM_eq (f := Node.fold) fun _ _ => rfl
  obtain ⟨kind, attributes, children, p⟩ := n
  rw [Node.fold, foldAll_eq_mapM, hchildren, ok_bind]
  rcases h.1 with h | h | h <;> cases h <;> rfl

theorem normalizeVarargs (h : n.IsDeclaration) (t : SymbolTable) (method : Option String) :
    t.normalizeVarargs method n = .ok n := by
  have hchildren := h.mapM_eq (f := t.normalizeVarargs method) fun _ _ => rfl
  obtain ⟨hdecl, hcall, -⟩ := h.kind_ne
  obtain ⟨kind, attributes, children, p⟩ := n
  rw [SymbolTable.normalizeVarargs, if_neg hdecl]
  simp only [normalizeAllVarargs_eq_mapM, hchildren, pure_bind, ok_bind]
  exact if_neg hcall

theorem propagateStatement (h : n.IsDeclaration) (scope : List String) (b : Bindings) :
    Node.propagateStatement scope b n = .ok (n, b) := by
  obtain ⟨kind, attributes, children, p⟩ := n
  rcases h.1 with h | h | h <;> cases h <;> rfl

end Node.IsDeclaration

namespace Context
variable {s : Context} {m : MethodInfo} {P : Node → Prop} {d d' : Node}

/-- A method declaration in a context: declarations, and statements that fit and have a property. -/
structure Holds (s : Context) (m : MethodInfo) (P : Node → Prop) (d : Node) : Prop where
  method : s.method = m.name
  kind : d.kind = .methodDecl
  name : d.name = .ok m.name
  name? : d.name? = .ok (some m.name)
  found : s.table.method? m.name = some m
  parts : ∀ c ∈ d.children, c.IsDeclaration ∨ Fits s m.returnType c ∧ c.Everywhere P
  scope : ∃ names, (d.params ++ d.locals).mapM Node.name = .ok names ∧
    ∀ name ∈ names, (s.table.binding? (some s.method) name).isSome

/-- What a stage makes of a child of a method declaration. -/
structure Keeps (s : Context) (returnType : Ty) (c c' : Node) : Prop where
  declaration : c.IsDeclaration → c' = c
  part : Fits s returnType c → Fits.Part s returnType c c'

theorem Keeps.of_declaration {returnType : Ty} {c : Node} (h : c.IsDeclaration) : s.Keeps returnType c c :=
  ⟨fun _ => rfl, fun hfits => absurd hfits h.not_fits⟩

theorem Keeps.of_part {returnType : Ty} {c c' : Node} (h : Fits s returnType c) (hpart : Fits.Part s returnType c c') :
    s.Keeps returnType c c' := ⟨fun hdecl => absurd h hdecl.not_fits, fun _ => hpart⟩

theorem Holds.fits (h : s.Holds m P d) {n : Node} (hn : n ∈ d.statements) :
    Fits s m.returnType n ∧ n.Everywhere P := by
  obtain ⟨hmem, hkind⟩ := List.mem_filter.1 hn
  refine (h.parts n hmem).resolve_left fun hdecl => ?_
  simp [hdecl.kind_ne.2.2] at hkind

theorem Holds.childrenOf_eq (h : s.Holds m P d) {cs : List Node}
    (hcs : List.Forall₂ (s.Keeps m.returnType) d.children cs) {kind : Kind} (hkind : kind = .param ∨ kind = .varDecl) :
    (d.withChildren cs).childrenOf [kind] = d.childrenOf [kind] := by
  have hparts := h.parts
  unfold Node.childrenOf Node.withChildren
  generalize d.children = ds at hcs hparts
  induction hcs with
  | nil => rfl
  | @cons c c' ds cs hc _ ih =>
    have hrest := ih fun c hc => hparts c (by simp [hc])
    simp only [List.filter_cons, hrest]
    rcases hparts c (by simp) with hdecl | ⟨hfits, -⟩
    · rw [hc.declaration hdecl]
    · have hother {n : Node} (hn : Fits s m.returnType n) : [kind].contains n.kind = false := by
        rcases hkind with rfl | rfl <;> cases hn <;> rfl
      rw [hother hfits, hother ((hc.part hfits).fits hfits)]
      rfl

/-- A stage that keeps the children of a method declaration keeps what is known of it. -/
theorem Holds.withChildren {Q : Node → Prop} (h : s.Holds m P d) (hP : s.Stable P) {cs : List Node}
    (hcs : List.Forall₂ (fun c c' => s.Keeps m.returnType c c' ∧ (Fits s m.returnType c → c'.Everywhere Q)) d.children cs) :
    s.Holds m (fun n => P n ∧ Q n) (d.withChildren cs) := by
  have hkeeps : List.Forall₂ (s.Keeps m.returnType) d.children cs := hcs.imp fun _ _ hc => hc.1
  refine ⟨h.method, h.kind, h.name, h.name?, h.found, fun c' hc' => ?_, ?_⟩
  · obtain ⟨c, hc, hkeeps, hQ⟩ := exists_of_mem_forall₂ hcs hc'
    rcases h.parts c hc with hdecl | ⟨hfits, hevery⟩
    · exact .inl (hkeeps.declaration hdecl ▸ hdecl)
    · have hpart := hkeeps.part hfits
      exact .inr ⟨hpart.fits hfits, (hpart.every P hP hevery).and (hQ hfits)⟩
  · rw [Node.params, Node.locals, h.childrenOf_eq hkeeps (.inl rfl), h.childrenOf_eq hkeeps (.inr rfl)]
    exact h.scope

theorem Holds.imp {Q : Node → Prop} (h : s.Holds m P d) (hPQ : ∀ n, P n → Q n) : s.Holds m Q d :=
  ⟨h.method, h.kind, h.name, h.name?, h.found, fun c hc => (h.parts c hc).imp_right fun hc => ⟨hc.1, hc.2.imp hPQ⟩, h.scope⟩

theorem Holds.withParts (h : s.Holds m P d) (hP : s.Stable P) {cs : List Node}
    (hcs : List.Forall₂ (s.Keeps m.returnType) d.children cs) : s.Holds m P (d.withChildren cs) :=
  (h.withChildren (Q := fun _ => True) hP (hcs.imp fun _ c' hc => ⟨hc, fun _ => .of_forall (fun _ => trivial) c'⟩)).imp
    fun _ hn => hn.1

/-- Propagation succeeds on a method, if its variables have known types. -/
theorem Holds.exists_propagateMethod (h : s.Holds m P d) (hregular : s.table.Regular) (hknown : s.VariablesKnown) :
    ∃ cs, d.propagateMethod = .ok (d.withChildren cs) ∧ List.Forall₂ (s.Keeps m.returnType) d.children cs := by
  obtain ⟨names, hnames, hscope⟩ := h.scope
  obtain ⟨cs, b, hcs, hkeeps, -⟩ : ∃ cs b, Node.propagateSequence names {} d.children = .ok (cs, b) ∧
      List.Forall₂ (s.Keeps m.returnType) d.children cs ∧ Bindings.Suit s b :=
    Fits.exists_propagateSequence (fun c hc b hb => by
      rcases h.parts c hc with hdecl | ⟨hfits, -⟩
      · exact ⟨c, b, hdecl.propagateStatement names b, .of_declaration hdecl, hb⟩
      · obtain ⟨c', b', hc', hpart, hb'⟩ := hfits.exists_propagateStatement hregular hknown hscope hb
        exact ⟨c', b', hc', .of_part hfits hpart, hb'⟩) (Bindings.suit_empty s)
  exact ⟨cs, by rw [Node.propagateMethod, hnames, ok_bind, hcs]; rfl, hkeeps⟩

theorem Holds.exists_fold (h : s.Holds m P d) :
    ∃ cs, d.fold = .ok (d.withChildren cs) ∧ List.Forall₂ (s.Keeps m.returnType) d.children cs := by
  obtain ⟨cs, hcs, hkeeps⟩ := exists_forall₂ (f := Node.fold) (R := s.Keeps m.returnType) fun c hc => by
    rcases h.parts c hc with hdecl | ⟨hfits, -⟩
    · exact ⟨c, hdecl.fold, .of_declaration hdecl⟩
    · exact hfits.exists_fold.imp fun c' hc' => ⟨hc'.1, .of_part hfits hc'.2⟩
  refine ⟨cs, ?_, hkeeps⟩
  have hkind := h.kind
  obtain ⟨kind, attributes, children, p⟩ := d
  obtain rfl : kind = .methodDecl := hkind
  rw [Node.fold, Node.foldAll_eq_mapM, hcs, ok_bind]
  rfl

theorem Holds.exists_normalizeVarargs (h : s.Holds m P d) (hrests : s.RestKnown) :
    ∃ cs, s.table.normalizeVarargs none d = .ok (d.withChildren cs) ∧
      List.Forall₂ (fun c c' => s.Keeps m.returnType c c' ∧ (Fits s m.returnType c → c'.Everywhere s.IsNormal))
        d.children cs := by
  obtain ⟨cs, hcs, hkeeps⟩ := exists_forall₂ (f := s.table.normalizeVarargs (some s.method))
    (R := fun c c' => s.Keeps m.returnType c c' ∧ (Fits s m.returnType c → c'.Everywhere s.IsNormal)) fun c hc => by
      rcases h.parts c hc with hdecl | ⟨hfits, -⟩
      · exact ⟨c, hdecl.normalizeVarargs s.table _, .of_declaration hdecl, fun hfits => absurd hfits hdecl.not_fits⟩
      · obtain ⟨c', hc', hpart, hnormal⟩ := hfits.exists_normalizeVarargs hrests
        exact ⟨c', hc', .of_part hfits hpart, fun _ => hnormal⟩
  refine ⟨cs, ?_, hkeeps⟩
  have hkind := h.kind
  have hname? := h.name?
  have hmethod := h.method
  obtain ⟨kind, attributes, children, p⟩ := d
  obtain rfl : kind = .methodDecl := hkind
  have hname : Node.name? ⟨.methodDecl, attributes, [], p⟩ = .ok (some s.method) := hmethod ▸ hname?
  simp only [SymbolTable.normalizeVarargs, if_true, hname, ok_bind, Node.normalizeAllVarargs_eq_mapM, hcs, reduceCtorEq,
    if_false]
  rfl

end Context

/-- A context for a method from the checks to lowering, in which its statements fit and have a property that no stage
takes away. -/
structure Context.Prepares (s : Context) (root : Node) (table : SymbolTable) (m : MethodInfo) (optimize : Bool)
    (P : Node → Prop) : Prop where
  table_eq : s.table = table
  method_eq : s.method = m.name
  stable : s.Stable P
  known : optimize = true → s.VariablesKnown
  rests : s.RestKnown
  parts : ∀ path d, root.at? path = some d → d.kind = .methodDecl → table.Declares d m →
    ∀ n ∈ d.statements, Fits s m.returnType n ∧ n.Everywhere P

namespace Node.Accepted
variable {root tree d : Node} {table : SymbolTable} {m : MethodInfo} {P : Node → Prop}

theorem isDeclaration_of_isType {n : Node} (h : n.IsType) : n.kind = .typeRef ∧ n.children = [] := by
  cases h
  exact ⟨rfl, rfl⟩

/-- The children of a method declaration are declarations, and then statements. -/
theorem exists_parts (hmember : d.IsMember) (hkind : d.kind = .methodDecl) : ∃ attributes decls stmts p,
    d = ⟨.methodDecl, attributes, decls ++ stmts, p⟩ ∧ (∀ c ∈ decls, c.IsDeclaration) ∧ ∀ c ∈ stmts, c.IsStatement := by
  cases hmember with
  | field hdecl =>
    obtain ⟨_, _, p⟩ := hdecl
    cases hkind
  | @method name isPublic isStatic type params body hname htype hparams hbody p =>
    refine ⟨_, _, _, p, rfl, fun c hc => ?_, Item.isStatement_of_mem_allNodes hbody⟩
    simp only [List.cons_append, List.mem_cons, List.mem_append] at hc
    rcases hc with rfl | hc | hc
    · obtain ⟨hkind, hchildren⟩ := isDeclaration_of_isType htype
      exact ⟨.inl hkind, by simp [hchildren]⟩
    · obtain ⟨hname, htype, q⟩ := hparams c hc
      exact ⟨.inr (.inl rfl), by simpa using isDeclaration_of_isType htype⟩
    · obtain ⟨hname, htype, q⟩ := Item.isVarDecl_of_mem_allLocals hbody c hc
      exact ⟨.inr (.inr rfl), by simpa using isDeclaration_of_isType htype⟩

theorem isDeclaration_or_mem (hmember : d.IsMember) (hkind : d.kind = .methodDecl) {c : Node} (hc : c ∈ d.children) :
    c.IsDeclaration ∨ c ∈ d.statements := by
  obtain ⟨attributes, decls, stmts, p, rfl, hdecls, hstmts⟩ := exists_parts hmember hkind
  exact (List.mem_append.1 hc).imp (hdecls c) fun hmem => List.mem_filter.2 ⟨hc, (hstmts c hmem).isStatement_kind⟩

/-- The table binds the parameters and the local variables of a method. -/
theorem exists_scope (hd : table.Declares d m) : ∃ names, (d.params ++ d.locals).mapM Node.name = .ok names ∧
    ∀ name ∈ names, (table.binding? (some m.name) name).isSome := by
  have hmade := MethodInfo.madeFrom hd.made
  have hsymbols : (d.params ++ d.locals).mapM Symbol.ofNode = .ok (m.params ++ m.locals) := by
    rw [List.mapM_append, hmade.params, hmade.locals]
    rfl
  refine ⟨_, mapM_eq_ok_map hsymbols fun d v hv => Symbol.name_ofNode hv, fun name hname => ?_⟩
  obtain ⟨v, hv, rfl⟩ := List.mem_map.1 hname
  have hlookup {symbols : List Symbol} (hv : v ∈ symbols) : (Symbol.lookup? symbols v.name).isSome :=
    List.find?_isSome.2 ⟨v, hv, by simp⟩
  simp only [SymbolTable.binding?, SymbolTable.param?, SymbolTable.local?, Option.bind_some, hd.found, Option.isSome_or,
    Bool.or_eq_true]
  exact (List.mem_append.1 hv).imp hlookup hlookup

/-- What is known of the declaration of a method before any stage. -/
theorem holds {optimize : Bool} {s : Context} (hs : s.Prepares root table m optimize P) {path : Path}
    (hat : root.at? path = some d) (hd : table.Declares d m) (hmember : d.IsMember) (hkind : d.kind = .methodDecl) :
    s.Holds m P d :=
  ⟨hs.method_eq, hkind, hd.name, hd.within.method, hs.table_eq ▸ hd.found,
    fun c hc => (isDeclaration_or_mem hmember hkind hc).imp_right (hs.parts path d hat hkind hd c),
    hs.table_eq ▸ hs.method_eq ▸ exists_scope hd⟩

/-- The methods that are lowered hold in the contexts that prepare them, with normal calls. -/
theorem holds_prepared {config : Config} {s : MethodInfo → Context} {P : MethodInfo → Node → Prop}
    (h : root.Accepted table)
    (hs : ∀ m, table.method? m.name = some m → (s m).Prepares root table m config.optimize (P m))
    (htree : (Compile.prepare config table root).events.1 = .ok tree) :
    tree.HasMethods fun d => ∃ m, table.method? m.name = some m ∧
      (s m).Holds m (fun n => P m n ∧ (s m).IsNormal n) d := by
  have hregular := h.regular
  have hmethods : root.HasMethods fun d => ∃ m, table.method? m.name = some m ∧ (s m).Holds m (P m) d := by
    refine ⟨h.hasMethods.kind, fun c hc hclass d hd hkind => ?_⟩
    obtain ⟨hmember, m, hdeclares⟩ := h.hasMethods.every c hc hclass d hd hkind
    obtain ⟨path, hpath⟩ := exists_at?_child (show root.at? [] = some root from rfl) hc
    obtain ⟨path', hpath'⟩ := exists_at?_child hpath hd
    exact ⟨m, hdeclares.found, holds (hs m hdeclares.found) hpath' hdeclares hmember hkind⟩
  refine hmethods.prepare ?_ ?_ ?_ htree
  · rintro hoptimize d d' - ⟨m, hm, hd⟩ hdd'
    have hm' := hs m hm
    obtain ⟨cs, hcs, hkeeps⟩ := hd.exists_propagateMethod (hm'.table_eq ▸ hregular) (hm'.known hoptimize)
    exact ⟨m, hm, Except.ok.inj (hcs.symm.trans hdd') ▸ hd.withParts hm'.stable hkeeps⟩
  · rintro hoptimize d d' - ⟨m, hm, hd⟩ hdd'
    obtain ⟨cs, hcs, hkeeps⟩ := hd.exists_fold
    exact ⟨m, hm, Except.ok.inj (hcs.symm.trans hdd') ▸ hd.withParts (hs m hm).stable hkeeps⟩
  · rintro d d' - ⟨m, hm, hd⟩ hdd'
    have hm' := hs m hm
    obtain ⟨cs, hcs, hkeeps⟩ := hd.exists_normalizeVarargs hm'.rests
    rw [hm'.table_eq] at hcs
    exact ⟨m, hm, Except.ok.inj (hcs.symm.trans hdd') ▸ hd.withChildren hm'.stable hkeeps⟩

end Node.Accepted
end JmmCompiler

import JmmCompiler.Proofs.PropagatedRuns
import JmmCompiler.Proofs.StagedProgram
/-! Folded programs. Rounds of propagation and folding succeed on a program that no check objects to, and each of its
methods does what it did before. -/
namespace JmmCompiler

namespace Node
variable {K : Constant → Prop} {n n' : Node}

theorem Reduces.isStatement {c : Constant} (h : n.Reduces c) : n.kind.isStatement = false := by cases h <;> rfl

theorem isStatement_node (c : Constant) (p : Position) : (c.node p).kind.isStatement = false := by cases c <;> rfl

/-- Statements stay statements, and nothing else becomes one. -/
theorem Simplified.isStatement_eq (h : Simplified K n n') : n'.kind.isStatement = n.kind.isStatement := by
  induction h with
  | refl => rfl
  | tail _ hstep ih =>
    rw [← ih]
    cases hstep with
    | child => rfl
    | read attributes children p hc => exact isStatement_node _ p
    | reduce h => rw [isStatement_node, h.isStatement]
    | trim => rfl

/-- A list of statements in which constants can be folded. -/
def FoldableStatements (ns : List Node) : Prop := ∀ n ∈ ns, n.kind.isStatement = true ∧ n.Everywhere Foldable

theorem FoldableStatements.of_simplified {ns ns' : List Node} (h : FoldableStatements ns)
    (hns : List.Forall₂ (Simplified AnyConstant) ns ns') : FoldableStatements ns' := by
  intro n' hn'
  obtain ⟨n, hn, hsimplified⟩ := exists_of_mem_forall₂ hns hn'
  obtain ⟨hkind, hfoldable⟩ := h n hn
  exact ⟨hsimplified.isStatement_eq.trans hkind, hsimplified.foldable hfoldable⟩

end Node

namespace SymbolTable
variable {t : SymbolTable} {method : String} {attributes : Assoc Attribute} {decls stmts : List Node} {p : Position}
  {d d' d'' : Node}

/-! ## Methods -/

variable (t) in
/-- A method with declarations of its variables, and statements in which constants can be folded. -/
inductive Folds (method : String) : Node → Prop
  | intro {attributes : Assoc Attribute} {decls stmts : List Node} {p : Position}
      (hname : Node.name ⟨.methodDecl, attributes, decls ++ stmts, p⟩ = .ok method)
      (hscope : ∃ names, (decls.filter ([Kind.param].contains ·.kind) ++ decls.filter ([Kind.varDecl].contains ·.kind)).mapM
        Node.name = .ok names ∧ ∀ name ∈ names, (t.binding? method name).isSome = true)
      (hdecls : ∀ c ∈ decls, c.IsDeclaration) (hstmts : Node.FoldableStatements stmts) :
      Folds method ⟨.methodDecl, attributes, decls ++ stmts, p⟩

theorem statements_append (hdecls : ∀ c ∈ decls, c.IsDeclaration) (hstmts : ∀ c ∈ stmts, c.kind.isStatement = true) :
    Node.statements ⟨.methodDecl, attributes, decls ++ stmts, p⟩ = stmts := by
  rw [Node.statements, List.filter_append, List.filter_eq_nil_iff.2 fun c hc => by simp [(hdecls c hc).kind_ne.2.2],
    List.nil_append, List.filter_eq_self.2 hstmts]

theorem childrenOf_append {kind : Kind} (hkind : kind.isStatement = false) (hstmts : ∀ c ∈ stmts, c.kind.isStatement = true) :
    Node.childrenOf ⟨.methodDecl, attributes, decls ++ stmts, p⟩ [kind] = decls.filter ([kind].contains ·.kind) := by
  rw [Node.childrenOf, List.filter_append]
  refine (congrArg _ (List.filter_eq_nil_iff.2 fun c hc hmem => ?_)).trans (List.append_nil _)
  obtain rfl : c.kind = kind := by simpa using hmem
  simp [hstmts c hc] at hkind

variable (t) in
/-- Two method declarations that do the same, from every store and whatever the surroundings answer. -/
def SameBody (method : String) (d d' : Node) : Prop :=
  ∀ (W : Type) (ask : Query → Act W Value) (rounds : Nat) (store : Store),
    t.plainBody method ask rounds d' store = t.plainBody method ask rounds d store

theorem Folds.name_eq (h : t.Folds method d) : d.name = .ok method := by
  cases h
  assumption

theorem Folds.kind_eq (h : t.Folds method d) : d.kind = .methodDecl := by
  cases h
  rfl

theorem propagateSequence_append {scope : List String} {b b' : Bindings} {stmts' : List Node}
    (hdecls : ∀ c ∈ decls, c.IsDeclaration) (h : Node.propagateSequence scope b stmts = .ok (stmts', b')) :
    Node.propagateSequence scope b (decls ++ stmts) = .ok (decls ++ stmts', b') := by
  induction decls with
  | nil => exact h
  | cons c decls ih =>
    simp only [List.cons_append, Node.propagateSequence, (hdecls c (by simp)).propagateStatement, ok_bind,
      ih fun c hc => hdecls c (by simp [hc])]
    rfl

/-- Propagation succeeds on a method and keeps what it does. No variable is known to hold a constant at its start. -/
theorem Folds.exists_propagateMethod (h : t.Folds method d) :
    ∃ d', d.propagateMethod = .ok d' ∧ t.Folds method d' ∧ t.SameBody method d d' := by
  obtain ⟨hname, ⟨names, hnames, hscope⟩, hdecls, hstmts⟩ := h
  rename_i attributes decls stmts p
  have hkinds : ∀ c ∈ stmts, c.kind.isStatement = true := fun c hc => (hstmts c hc).1
  have hpropagates : ∀ n ∈ stmts, ∀ b : Bindings, b.Within names → ∃ n' b', t.Propagates method names b n n' b' :=
    fun n hn b hb => exists_propagates hscope (hstmts n hn).2 hb
  obtain ⟨stmts', b', hsequence, -, hagree⟩ := exists_propagateSequence hpropagates (Bindings.within_empty names)
  have hstmts' : Node.FoldableStatements stmts' := hstmts.of_simplified
    (Node.propagates_sequence (fun n _ => Node.propagates Constant.closed_any (Node.everywhere_any n)) Bindings.holds_empty
      hsequence).1
  refine ⟨⟨.methodDecl, attributes, decls ++ stmts', p⟩, ?_, .intro hname ⟨names, hnames, hscope⟩ hdecls hstmts',
    fun W ask rounds store => ?_⟩
  · rw [Node.propagateMethod, Node.params, Node.locals, childrenOf_append rfl hkinds, childrenOf_append rfl hkinds, hnames,
      ok_bind, propagateSequence_append hdecls hsequence]
    rfl
  · rw [plainBody, plainBody, statements_append hdecls hkinds, statements_append hdecls fun c hc => (hstmts' c hc).1]
    exact (hagree W ask rounds).same store (Bindings.hold_empty store)

/-- Folding succeeds on a method and keeps what it does. -/
theorem Folds.exists_fold (h : t.Folds method d) : ∃ d', d.fold = .ok d' ∧ t.Folds method d' ∧ t.SameBody method d d' := by
  obtain ⟨hname, hscope, hdecls, hstmts⟩ := h
  rename_i attributes decls stmts p
  have hkinds : ∀ c ∈ stmts, c.kind.isStatement = true := fun c hc => (hstmts c hc).1
  obtain ⟨stmts', hmapM, hfolds⟩ := exists_forall₂ (R := fun c c' => c.fold = .ok c') fun n hn =>
    (Node.exists_fold (hstmts n hn).2).imp fun n' hn' => ⟨hn', hn'⟩
  have hdeclsMap : decls.mapM Node.fold = .ok decls :=
    mapM_eq_ok_iff.2 (List.forall₂_same.2 fun c hc => (hdecls c hc).fold)
  have hstmts' : Node.FoldableStatements stmts' := hstmts.of_simplified (hfolds.imp fun _ _ hc => Node.simplified_fold hc)
  refine ⟨⟨.methodDecl, attributes, decls ++ stmts', p⟩, ?_, .intro hname hscope hdecls hstmts', fun W ask rounds store => ?_⟩
  · have hall : (decls ++ stmts).mapM Node.fold = .ok (decls ++ stmts') := by
      rw [List.mapM_append, hdeclsMap, hmapM]
      rfl
    rw [Node.fold, Node.foldAll_eq_mapM, hall]
    rfl
  · rw [plainBody, plainBody, statements_append hdecls hkinds, statements_append hdecls fun c hc => (hstmts' c hc).1]
    congr 1
    clear hmapM hstmts' hstmts hkinds hname
    induction hfolds with
    | nil => rfl
    | cons hc _ ih => rw [List.map_cons, List.map_cons, ih, funext (plainExec_fold hc)]

/-! ## Programs -/

variable (t) in
/-- What rounds make of a member of a class: declarations stay, and methods do the same as before. -/
def KeepsMember (d d' : Node) : Prop :=
  d.IsDeclaration ∧ d' = d ∨ ∃ method, t.Folds method d ∧ t.Folds method d' ∧ t.SameBody method d d'

theorem KeepsMember.trans (h : t.KeepsMember d d') (h' : t.KeepsMember d' d'') : t.KeepsMember d d'' := by
  rcases h with ⟨hdecl, rfl⟩ | ⟨method, hd, hd', hsame⟩
  · exact h'
  · rcases h' with ⟨-, rfl⟩ | ⟨method', hd₁, hd₂, hsame'⟩
    · exact .inr ⟨method, hd, hd', hsame⟩
    · obtain rfl : method = method' := Except.ok.inj (hd'.name_eq.symm.trans hd₁.name_eq)
      exact .inr ⟨method, hd, hd₂, fun W ask rounds store => (hsame' W ask rounds store).trans (hsame W ask rounds store)⟩

theorem keepsMembers_trans {ds ds' ds'' : List Node} (h : List.Forall₂ t.KeepsMember ds ds')
    (h' : List.Forall₂ t.KeepsMember ds' ds'') : List.Forall₂ t.KeepsMember ds ds'' := by
  induction h generalizing ds'' with
  | nil => exact h'
  | cons hd _ ih =>
    cases h' with
    | cons hd' hds' => exact .cons (hd.trans hd') (ih hds')

/-- The methods among the members of a class. -/
theorem keepsMembers_methods {ds ds' : List Node} (h : List.Forall₂ t.KeepsMember ds ds') :
    List.Forall₂ (fun d d' => ∃ method, t.Folds method d ∧ t.Folds method d' ∧ t.SameBody method d d')
      (ds.filter ([Kind.methodDecl].contains ·.kind)) (ds'.filter ([Kind.methodDecl].contains ·.kind)) := by
  induction h with
  | nil => exact .nil
  | @cons d d' ds ds' hd _ ih =>
    rcases hd with ⟨hdecl, rfl⟩ | ⟨method, hfolds, hfolds', hsame⟩
    · have hkind : [Kind.methodDecl].contains d'.kind = false := by simpa using hdecl.kind_ne.1
      simpa only [List.filter_cons, hkind, Bool.false_eq_true, if_false] using ih
    · simp only [List.filter_cons, hfolds.kind_eq, hfolds'.kind_eq]
      exact .cons ⟨method, hfolds, hfolds', hsame⟩ ih

/-- A stage of methods that keeps what they do. -/
theorem exists_sameBody {f : Node → Except Failure Node}
    (hf : ∀ method d, t.Folds method d → ∃ d', f d = .ok d' ∧ t.Folds method d' ∧ t.SameBody method d d') (d : Node)
    (_ : d.kind = .methodDecl) (hd : ∃ method, t.Folds method d) :
    ∃ d', f d = .ok d' ∧ ∃ method, t.Folds method d ∧ t.Folds method d' ∧ t.SameBody method d d' := by
  obtain ⟨method, hd⟩ := hd
  obtain ⟨d', hd', hfolds, hsame⟩ := hf method d hd
  exact ⟨d', hd', method, hd, hfolds, hsame⟩

/-- A round succeeds on a class and keeps what its methods do. -/
theorem exists_foldRound {imports : List Node} {c : Node} (h : Node.HasClass (fun d => ∃ method, t.Folds method d) imports c) :
    ∃ c', Node.foldRound ⟨.program, {}, imports ++ [c], p⟩ = .ok ⟨.program, {}, imports ++ [c'], p⟩ ∧
      Node.HasClass (fun d => ∃ method, t.Folds method d) imports c' ∧ List.Forall₂ t.KeepsMember c.children c'.children := by
  have hkept (d d' : Node) (h : ∃ method, t.Folds method d ∧ t.Folds method d' ∧ t.SameBody method d d') :
      d'.kind = .methodDecl ∧ ∃ method, t.Folds method d' := by
    obtain ⟨method, -, hd', -⟩ := h
    exact ⟨hd'.kind_eq, method, hd'⟩
  obtain ⟨ds, hds, hrecasts⟩ := h.exists_propagate (p := p) (exists_sameBody fun _ _ hd => hd.exists_propagateMethod)
  have hpropagated := h.withMembers hrecasts hkept
  obtain ⟨ds', hds', hrecasts'⟩ := hpropagated.exists_fold (p := p) (exists_sameBody fun _ _ hd => hd.exists_fold)
  exact ⟨_, by rw [Node.foldRound, hds, ok_bind, hds'], hpropagated.withMembers hrecasts' hkept,
    keepsMembers_trans hrecasts hrecasts'⟩

end SymbolTable

namespace Node
variable {source : String} {root d : Node} {table : SymbolTable} {m : MethodInfo}

/-- Propagation and folding can work on a method as it is read. -/
theorem Accepted.folds (hd : table.Declares d m) (hmember : d.IsMember) (hkind : d.kind = .methodDecl) :
    table.Folds m.name d := by
  have hname := hd.name
  obtain ⟨names, hnames, hscope⟩ := exists_scope hd
  obtain ⟨attributes, decls, stmts, p, rfl, hdecls, hstmts⟩ := exists_parts hmember hkind
  have hkinds : ∀ c ∈ stmts, c.kind.isStatement = true := fun c hc => (hstmts c hc).isStatement_kind
  rw [Node.params, Node.locals, SymbolTable.childrenOf_append rfl hkinds, SymbolTable.childrenOf_append rfl hkinds] at hnames
  exact .intro hname ⟨names, hnames, hscope⟩ hdecls fun c hc => ⟨hkinds c hc, (hstmts c hc).everywhere_foldable⟩

/-- Folding constants keeps what methods do. In a program that is analyzed without reports, every method of the folded
program does the same as before, whatever the values of its variables, the heap and the answers to what it asks of its
surroundings: it ends in the same way or goes on in the same loop, it has made the same requests, and the heap is the
same. -/
theorem folding_keeps_meaning (hparse : Node.parse source = .ok root)
    (hanalyze : root.analyze = .ok { reports := [], table := some table }) :
    ∃ folded c c', root.foldConstants = .ok folded ∧ root.classDecl = .ok c ∧ folded.classDecl = .ok c' ∧
      List.Forall₂ (fun d d' => ∃ method, d.name = .ok method ∧ d'.name = .ok method ∧
        ∀ (H : Type) (oracle : Oracle Query H) (rounds : Nat) (store : Store) (w : World Query H),
          runOn (table.plainBody method oracle.ask rounds d' store) w =
            runOn (table.plainBody method oracle.ask rounds d store) w)
        (c.childrenOf [.methodDecl]) (c'.childrenOf [.methodDecl]) := by
  obtain ⟨imports, p, c, rfl, hclass⟩ := (accepted_of_analyze hparse hanalyze).exists_hasClass
  have hfolds : HasClass (fun d => ∃ method, table.Folds method d) imports c :=
    ⟨hclass.leaves, hclass.kind, fun d hd => (hclass.members d hd).imp_right fun h => by
      obtain ⟨hkind, hmember, m, -, hdeclares, -, -⟩ := h
      exact ⟨hkind, m.name, Accepted.folds hdeclares hmember hkind⟩⟩
  have hrefl : List.Forall₂ table.KeepsMember c.children c.children := List.forall₂_same.2 fun d hd => by
    rcases hfolds.members d hd with hdecl | ⟨-, method, hmethod⟩
    · exact .inl ⟨hdecl, rfl⟩
    · exact .inr ⟨method, hmethod, hmethod, fun _ _ _ _ => rfl⟩
  have hround (c' : Node) (h : HasClass (fun d => ∃ method, table.Folds method d) imports c' ∧
      List.Forall₂ table.KeepsMember c.children c'.children) :
      ∃ c'', foldRound ⟨.program, {}, imports ++ [c'], p⟩ = .ok ⟨.program, {}, imports ++ [c''], p⟩ ∧
        HasClass (fun d => ∃ method, table.Folds method d) imports c'' ∧
          List.Forall₂ table.KeepsMember c.children c''.children := by
    obtain ⟨c'', hc'', hclass'', hrecasts⟩ := SymbolTable.exists_foldRound (p := p) h.1
    exact ⟨c'', hc'', hclass'', SymbolTable.keepsMembers_trans h.2 hrecasts⟩
  obtain ⟨c', rounds, hrounds, hclass', hrecasts⟩ := exists_foldRounds hround ⟨hfolds, hrefl⟩ 0 _
  refine ⟨_, c, c', by rw [foldConstants, foldConstantsCounted, hrounds]; rfl, classDecl_program hclass.leaves hclass.kind,
    classDecl_program hclass'.leaves hclass'.kind, (SymbolTable.keepsMembers_methods hrecasts).imp fun d d' h => ?_⟩
  obtain ⟨method, hd, hd', hsame⟩ := h
  exact ⟨method, hd.name_eq, hd'.name_eq, fun H oracle rounds store w => by rw [hsame]⟩

/-- A loop that changes a variable whose value is known before it, behind branches that agree on another one. -/
theorem folding_keeps_meaning_loop :
    ∃ root table folded c c', Node.parse ("class A\x7bint d;int f(boolean c,int n)\x7bint a;int b;b=2;if(c)a=1+1;else a=b;" ++
        "while(b<(a*n))b=b+(a);d=a;return d/(a-2);\x7d\x7d") = .ok root ∧
      root.analyze = .ok { reports := [], table := some table } ∧ root.foldConstants = .ok folded ∧
      root.classDecl = .ok c ∧ folded.classDecl = .ok c' ∧ c.references = 15 ∧ c'.references = 10 ∧
      List.Forall₂ (fun d d' => ∃ method, d.name = .ok method ∧ d'.name = .ok method ∧
        ∀ (H : Type) (oracle : Oracle Query H) (rounds : Nat) (store : Store) (w : World Query H),
          runOn (table.plainBody method oracle.ask rounds d' store) w =
            runOn (table.plainBody method oracle.ask rounds d store) w)
        (c.childrenOf [.methodDecl]) (c'.childrenOf [.methodDecl]) := by
  obtain ⟨root, hroot, hfacts⟩ := exists_of_toOption (show (Node.parse
      ("class A\x7bint d;int f(boolean c,int n)\x7bint a;int b;b=2;if(c)a=1+1;else a=b;" ++
        "while(b<(a*n))b=b+(a);d=a;return d/(a-2);\x7d\x7d")).toOption.map (fun root =>
          (root.analyze, root.classDecl.toOption.map (·.references),
            (root.foldConstants.toOption.bind fun folded => folded.classDecl.toOption.map (·.references)))) =
      some (.ok { reports := [], table := some ⟨"A", none, [], [⟨"d", .int⟩],
        [⟨"f", .int, [⟨"c", .boolean⟩, ⟨"n", .int⟩], [⟨"a", .int⟩, ⟨"b", .int⟩], false, false, false⟩]⟩ },
        some 15, some 10) by decide +kernel)
  simp only [Prod.mk.injEq] at hfacts
  obtain ⟨hanalyze, hbefore, hafter⟩ := hfacts
  obtain ⟨folded, c, c', hfolded, hc, hc', hsame⟩ := folding_keeps_meaning hroot hanalyze
  rw [hc] at hbefore
  rw [hfolded, Except.toOption, Option.bind_some, hc'] at hafter
  exact ⟨root, _, folded, c, c', hroot, hanalyze, hfolded, hc, hc', Option.some.inj hbefore, Option.some.inj hafter, hsame⟩

end Node
end JmmCompiler

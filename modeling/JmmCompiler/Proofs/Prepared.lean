import JmmCompiler.Pipeline
import JmmCompiler.Proofs.Freshness
import JmmCompiler.Proofs.Rewriting
import JmmCompiler.Proofs.ValidProgram
/-! From the checks to lowering. Folding and normal calls keep the class of a program and its methods, so that what
holds of each method declaration and is kept by every stage holds of the declarations that are lowered. -/
namespace JmmCompiler

namespace Node
variable {Q Q' : Node → Prop} {root root' n n' d d' : Node} {table : SymbolTable}

/-- A program whose method declarations all have a property. -/
structure HasMethods (Q : Node → Prop) (root : Node) : Prop where
  kind : root.kind = .program
  every : ∀ c ∈ root.children, c.kind = .classDecl → ∀ d ∈ c.children, d.kind = .methodDecl → Q d

/-- The kinds of programs, of classes and of methods. -/
def Declares (kind : Kind) : Prop := kind = .program ∨ kind = .classDecl ∨ kind = .methodDecl

/-- A stage that works on all nodes keeps programs, classes and methods, and works on what is in programs and
classes. -/
structure Keeps (f : Node → Except Failure Node) : Prop where
  kind_of : ∀ {n n'}, f n = .ok n' → Declares n'.kind → n.kind = n'.kind
  program : ∀ {n n'}, f n = .ok n' → n.kind = .program → n'.kind = .program
  children : ∀ {n n'}, f n = .ok n' → n'.kind = .program ∨ n'.kind = .classDecl →
    n.children.mapM f = .ok n'.children

theorem HasMethods.map {f : Node → Except Failure Node} (h : root.HasMethods Q) (hf : Keeps f)
    (hQ : ∀ d d', d.kind = .methodDecl → Q d → f d = .ok d' → Q' d') (hroot : f root = .ok root') :
    root'.HasMethods Q' := by
  have hkind := hf.program hroot h.kind
  refine ⟨hkind, fun c' hc' hclass d' hd' hmethod => ?_⟩
  obtain ⟨c, hc, hcc'⟩ := exists_of_mem_mapM (hf.children hroot (.inl hkind)) hc'
  obtain ⟨d, hd, hdd'⟩ := exists_of_mem_mapM (hf.children hcc' (.inr hclass)) hd'
  have hkindc := hf.kind_of hcc' (.inr (.inl hclass))
  have hkindd := hf.kind_of hdd' (.inr (.inr hmethod))
  exact hQ d d' (hkindd.trans hmethod) (h.every c hc (hkindc.trans hclass) d hd (hkindd.trans hmethod)) hdd'

theorem not_declares_of_evaluates {kind : Kind} (h : Evaluates kind) : ¬Declares kind := by
  rcases h with rfl | rfl | rfl | rfl <;> simp [Declares]

theorem not_declares_node (c : Constant) (p : Position) : ¬Declares (c.node p).kind := by
  cases c <;> simp [Constant.node, Declares]

theorem keeps_fold : Keeps fold := by
  have hcases {n n' : Node} (h : n.fold = .ok n') : ∃ children, n.children.mapM fold = .ok children ∧
      (n'.kind = n.kind ∧ n'.children = children ∨ ¬Declares n.kind ∧ ¬Declares n'.kind) := by
    obtain ⟨kind, attributes, children, p⟩ := n
    rw [fold, foldAll_eq_mapM, bind_eq_ok] at h
    obtain ⟨children', hchildren, h⟩ := h
    refine ⟨children', hchildren, ?_⟩
    rcases foldTop_cases h with ⟨rfl, -⟩ | ⟨c, hc, rfl⟩
    · exact .inl ⟨rfl, rfl⟩
    · exact .inr ⟨not_declares_of_evaluates hc.evaluates, not_declares_node c _⟩
  refine ⟨fun h hdeclares => ?_, fun h hkind => ?_, fun h hkind => ?_⟩
  · obtain ⟨children, -, ⟨heq, -⟩ | ⟨-, hnot⟩⟩ := hcases h
    · exact heq.symm
    · exact absurd hdeclares hnot
  · obtain ⟨children, -, ⟨heq, -⟩ | ⟨hnot, -⟩⟩ := hcases h
    · exact heq.trans hkind
    · exact absurd (.inl hkind) hnot
  · obtain ⟨children, hmap, ⟨-, rfl⟩ | ⟨-, hnot⟩⟩ := hcases h
    · exact hmap
    · exact absurd (hkind.imp_right .inl) hnot

theorem keeps_normalizeVarargs (table : SymbolTable) : Keeps (table.normalizeVarargs none) := by
  have hcases {n n' : Node} (h : table.normalizeVarargs none n = .ok n') : n'.kind = n.kind ∧
      (n.kind ≠ .methodDecl → n.kind ≠ .call → n.children.mapM (table.normalizeVarargs none) = .ok n'.children) := by
    refine ⟨(SymbolTable.kind_normalizeVarargs h).1, fun hdecl hcall => ?_⟩
    obtain ⟨kind, attributes, children, p⟩ := n
    obtain ⟨below, children', hbelow, hchildren, h⟩ := SymbolTable.normalizeVarargs_eq_ok.1 h
    obtain rfl : none = below := Except.ok.inj ((if_neg hdecl).symm.trans hbelow)
    rw [if_neg hcall] at h
    exact h ▸ hchildren
  refine ⟨fun h _ => (hcases h).1.symm, fun h hkind => (hcases h).1.trans hkind, fun h hkind => ?_⟩
  have heq := (hcases h).1
  refine (hcases h).2 (fun h => ?_) (fun h => ?_)
  · rcases hkind with hkind | hkind <;> simp [heq, h] at hkind
  · rcases hkind with hkind | hkind <;> simp [heq, h] at hkind

theorem mem_replaceClass {c d : Node} {ns : List Node} (h : d ∈ replaceClass c ns) : d = c ∨ d ∈ ns := by
  induction ns with
  | nil => cases h
  | cons n ns ih =>
    rw [replaceClass] at h
    split at h
    · exact (List.mem_cons.1 h).imp_right (List.mem_cons_of_mem _)
    · rcases List.mem_cons.1 h with rfl | h
      · exact .inr List.mem_cons_self
      · exact (ih h).imp_right (List.mem_cons_of_mem _)

/-- Propagation works on the methods of the class. -/
theorem HasMethods.propagate (h : root.HasMethods Q)
    (hQ : ∀ d d', d.kind = .methodDecl → Q d → d.propagateMethod = .ok d' → Q d')
    (hroot : root.propagate = .ok root') : root'.HasMethods Q := by
  simp only [Node.propagate, bind_eq_ok, pure_eq_ok] at hroot
  obtain ⟨c, hc, members, hmembers, rfl⟩ := hroot
  have hprogram : root.kind ≠ .classDecl := by simp [h.kind]
  rw [classDecl, if_neg hprogram] at hc
  obtain ⟨hmem, hclass⟩ : c ∈ root.children ∧ c.kind = .classDecl := by
    split at hc
    · rename_i hfind
      obtain rfl := Except.ok.inj hc
      exact ⟨List.mem_of_find?_eq_some hfind, by simpa using List.find?_some hfind⟩
    · cases hc
  rw [if_neg hprogram]
  refine ⟨h.kind, fun c' hc' hclass' d' hd' hmethod => ?_⟩
  rcases mem_replaceClass hc' with rfl | hc'
  · obtain ⟨d, hd, hdd'⟩ := exists_of_mem_mapM hmembers hd'
    split at hdd'
    · rename_i hkind
      exact hQ d d' hkind (h.every c hmem hclass d hd hkind) hdd'
    · obtain rfl := Except.ok.inj hdd'
      exact h.every c hmem hclass d hd hmethod
  · exact h.every c' hc' hclass' d' hd' hmethod

/-- What every round of folding keeps holds of the folded program. -/
theorem HasMethods.foldConstants (h : root.HasMethods Q)
    (hpropagate : ∀ d d', d.kind = .methodDecl → Q d → d.propagateMethod = .ok d' → Q d')
    (hfold : ∀ d d', d.kind = .methodDecl → Q d → d.fold = .ok d' → Q d') {rounds : Nat}
    (hroot : root.foldConstantsCounted = .ok (root', rounds)) : root'.HasMethods Q := by
  have hall : ∀ fuel done root, root.HasMethods Q → foldRounds done fuel root = .ok (root', rounds) →
      root'.HasMethods Q := by
    intro fuel
    induction fuel with
    | zero =>
      intro done root h hrun
      obtain ⟨rfl, -⟩ := Prod.mk.inj (Except.ok.inj hrun)
      exact h
    | succ fuel ih =>
      intro done root h hrun
      simp only [foldRounds, foldRound, bind_eq_ok] at hrun
      obtain ⟨next, ⟨propagated, hpropagated, hfolded⟩, hrun⟩ := hrun
      split at hrun
      · obtain ⟨rfl, -⟩ := Prod.mk.inj (Except.ok.inj hrun)
        exact h
      · exact ih _ _ ((h.propagate hpropagate hpropagated).map keeps_fold hfold hfolded) hrun
  exact hall _ _ root h hroot

/-- The tree that is lowered is the program, with folded constants if that is wanted, with normal calls. -/
theorem exists_of_prepare {config : Config} {tree : Node} (h : (Compile.prepare config table root).events.1 = .ok tree) :
    ∃ folded, table.normalizeVarargs none folded = .ok tree ∧
      if config.optimize = true then ∃ rounds, root.foldConstantsCounted = .ok (folded, rounds) else folded = root := by
  obtain ⟨events, hrun⟩ : ∃ events, runOn (Compile.prepare config table root) [] = (.ok tree, events) := ⟨_, Prod.ext h rfl⟩
  unfold Compile.prepare at hrun
  split at hrun
  · rename_i hoptimize
    simp only [runOn_bind_eq_ok, runOn_pure, Prod.mk.injEq, Except.ok.injEq, Compile.runOn_ofExcept] at hrun
    obtain ⟨_, _, -, ⟨folded, rounds⟩, _, ⟨hfolded, -⟩, _, _, -, _, _, ⟨rfl, -⟩, hnormal, -⟩ := hrun
    exact ⟨folded, hnormal, by rw [if_pos hoptimize]; exact ⟨rounds, hfolded⟩⟩
  · rename_i hoptimize
    rw [pure_bind, Compile.runOn_ofExcept] at hrun
    exact ⟨root, (Prod.mk.inj hrun).1, by rw [if_neg hoptimize]⟩

/-- What every stage keeps holds of the method declarations that are lowered. -/
theorem HasMethods.prepare (h : root.HasMethods Q) {config : Config} {tree : Node}
    (hpropagate : config.optimize = true → ∀ d d', d.kind = .methodDecl → Q d → d.propagateMethod = .ok d' → Q d')
    (hfold : config.optimize = true → ∀ d d', d.kind = .methodDecl → Q d → d.fold = .ok d' → Q d')
    (hnormal : ∀ d d', d.kind = .methodDecl → Q d → table.normalizeVarargs none d = .ok d' → Q' d')
    (htree : (Compile.prepare config table root).events.1 = .ok tree) : tree.HasMethods Q' := by
  obtain ⟨folded, hfolded, hconstants⟩ := exists_of_prepare htree
  refine HasMethods.map (Q := Q) ?_ (keeps_normalizeVarargs table) hnormal hfolded
  split at hconstants
  · rename_i hoptimize
    obtain ⟨rounds, hrounds⟩ := hconstants
    exact h.foldConstants (hpropagate hoptimize) (hfold hoptimize) hrounds
  · exact hconstants ▸ h

theorem rewrites_propagateMethod (table : SymbolTable) (method : Option String) (h : d.propagateMethod = .ok d') :
    ∃ cs, d' = d.withChildren cs ∧ List.Forall₂ (Rewrites True table method) d.children cs := by
  obtain ⟨cs, rfl, hcs⟩ := simplified_propagateMethod Constant.closed_any (everywhere_any d) h
  exact ⟨cs, rfl, hcs.imp fun _ _ hc => hc.rewrites trivial⟩

theorem rewrites_foldMethod (table : SymbolTable) (method : Option String) (hkind : d.kind = .methodDecl) (h : d.fold = .ok d') :
    ∃ cs, d' = d.withChildren cs ∧ List.Forall₂ (Rewrites True table method) d.children cs := by
  obtain ⟨kind, attributes, children, p⟩ := d
  obtain rfl : kind = .methodDecl := hkind
  rw [fold, foldAll_eq_mapM, bind_eq_ok] at h
  obtain ⟨children', hchildren, h⟩ := h
  exact ⟨children', (Except.ok.inj h).symm, forall₂_of_mapM hchildren fun c _ c' hc' =>
    (simplified_fold (K := AnyConstant) hc').rewrites trivial⟩

theorem rewrites_normalMethod {name : String} (hkind : d.kind = .methodDecl) (hname : d.name? = .ok (some name))
    (h : table.normalizeVarargs none d = .ok d') :
    ∃ cs, d' = d.withChildren cs ∧ List.Forall₂ (Rewrites False table (some name)) d.children cs := by
  obtain ⟨kind, attributes, children, p⟩ := d
  obtain rfl : kind = .methodDecl := hkind
  have hname : Node.name? ⟨.methodDecl, attributes, [], p⟩ = .ok (some name) := hname
  simp only [SymbolTable.normalizeVarargs, if_true, hname, ok_bind, bind_eq_ok, normalizeAllVarargs_eq_mapM, reduceCtorEq,
    if_false, pure_eq_ok] at h
  obtain ⟨children', hchildren, rfl⟩ := h
  exact ⟨children', rfl, forall₂_of_mapM hchildren fun c _ c' hc' => rewrites_normalizeVarargs hc'⟩

/-- What rewriting keeps of a method declaration holds of the method declarations that are lowered. -/
theorem HasMethods.prepare_rewrites (h : root.HasMethods Q) {config : Config} {tree : Node}
    (hname : ∀ d, Q d → ∃ name, d.name? = .ok (some name))
    (hQ : ∀ (folds : Prop) d name cs, (folds → config.optimize = true) → d.name? = .ok (some name) → Q d →
      List.Forall₂ (Rewrites folds table (some name)) d.children cs → Q (d.withChildren cs))
    (htree : (Compile.prepare config table root).events.1 = .ok tree) : tree.HasMethods Q := by
  refine h.prepare ?_ ?_ ?_ htree
  · rintro hoptimize d d' - hd hdd'
    obtain ⟨name, hname⟩ := hname d hd
    obtain ⟨cs, rfl, hcs⟩ := rewrites_propagateMethod table (some name) hdd'
    exact hQ True d name cs (fun _ => hoptimize) hname hd hcs
  · rintro hoptimize d d' hkind hd hdd'
    obtain ⟨name, hname⟩ := hname d hd
    obtain ⟨cs, rfl, hcs⟩ := rewrites_foldMethod table (some name) hkind hdd'
    exact hQ True d name cs (fun _ => hoptimize) hname hd hcs
  · rintro d d' hkind hd hdd'
    obtain ⟨name, hname⟩ := hname d hd
    obtain ⟨cs, rfl, hcs⟩ := rewrites_normalMethod hkind hname hdd'
    exact hQ False d name cs False.elim hname hd hcs

/-- The method declarations of the class. -/
theorem HasMethods.of_classDecl (h : root.HasMethods Q) {c : Node} (hc : root.classDecl = .ok c)
    (hd : d ∈ c.childrenOf [.methodDecl]) : d.kind = .methodDecl ∧ Q d := by
  obtain ⟨hmem, hkind⟩ := Accepted.mem_childrenOf hd
  rw [classDecl, if_neg (by simp [h.kind])] at hc
  split at hc
  · rename_i hfind
    obtain rfl := Except.ok.inj hc
    exact ⟨hkind, h.every _ (List.mem_of_find?_eq_some hfind) (by simpa using List.find?_some hfind) d hmem hkind⟩
  · cases hc

/-- A program that no check objects to has the methods that its symbol table declares. -/
theorem Accepted.hasMethods (h : root.Accepted table) :
    root.HasMethods fun d => d.IsMember ∧ ∃ m, table.Declares d m := by
  obtain ⟨i, c, hc, hat, hclass⟩ := h.shape.exists_class
  have hkind : root.kind = .program := by
    obtain ⟨himports, hdecl, p⟩ := h.shape
    rfl
  refine ⟨hkind, fun c' hc' hkind' d hd hmethod => ?_⟩
  -- all other children of the program are imports
  obtain rfl : c' = c := by
    obtain ⟨himports, hdecl, p⟩ := h.shape
    rename_i imports decl
    have hother (n : Node) (hn : n ∈ imports) : n.kind ≠ .classDecl := by
      cases himports n hn
      simp
    have honly (n : Node) (hn : n ∈ imports ++ [decl]) (hkind : n.kind = .classDecl) : n = decl := by
      rcases List.mem_append.1 hn with hn | hn
      · exact absurd hkind (hother n hn)
      · exact List.mem_singleton.1 hn
    have hmem : c ∈ imports ++ [decl] := by
      obtain ⟨c'', hc'', hnil⟩ := Option.bind_eq_some_iff.1 hat
      exact Option.some.inj hnil ▸ List.mem_of_getElem? hc''
    rw [honly c' hc' hkind', honly c hmem (by cases hclass <;> rfl)]
  have hdecl : d ∈ c'.childrenOf [.methodDecl] := List.mem_filter.2 ⟨hd, by simp [hmethod]⟩
  obtain ⟨m, -, hm⟩ := exists_of_mapM (h.table_eq hc).2 hdecl
  exact ⟨Accepted.shape_of_mem hclass hdecl, m, h.declares hc hdecl hm⟩

end Node

namespace SymbolTable
variable {t : SymbolTable} {Q : Node → Prop} {tree : Node} {p : CodeProgram}

theorem forall₂_of_mapM_lowerMethod {ds : List Node} {ms : List CodeMethod} {ns ns' : Names}
    (h : (ds.mapM t.lowerMethod).run ns = .ok (ms, ns')) :
    List.Forall₂ (fun d m => ∃ ns ns', (t.lowerMethod d).run ns = .ok (m, ns')) ds ms := by
  induction ds generalizing ms ns ns' with
  | nil =>
    obtain ⟨rfl, -⟩ := Prod.mk.inj (Except.ok.inj h)
    exact .nil
  | cons d ds ih =>
    rw [List.mapM_cons] at h
    obtain ⟨first, ns₁, hfirst, h⟩ := lower_bind_eq_ok.1 h
    obtain ⟨rest, ns₂, hrest, h⟩ := lower_bind_eq_ok.1 h
    obtain ⟨rfl, -⟩ := Prod.mk.inj (Except.ok.inj h)
    exact .cons ⟨_, _, hfirst⟩ (ih hrest)

/-- The methods of generated code are lowered from the method declarations of the class, one after the other. -/
theorem exists_class_of_generate (h : t.generate tree = .ok p) : ∃ c, tree.classDecl = .ok c ∧
    List.Forall₂ (fun d m => ∃ ns ns', (t.lowerMethod d).run ns = .ok (m, ns')) (c.childrenOf [.methodDecl]) p.methods := by
  simp only [generate, bind_eq_ok, pure_eq_ok] at h
  obtain ⟨⟨p', ns'⟩, hrun, rfl⟩ := h
  obtain ⟨c, ns₁, hclass, hrun⟩ := lower_bind_eq_ok.1 hrun
  obtain ⟨_, ns₂, -, hrun⟩ := lower_bind_eq_ok.1 hrun
  obtain ⟨methods, ns₃, hmethods, hrun⟩ := lower_bind_eq_ok.1 hrun
  obtain ⟨rfl, -⟩ := Prod.mk.inj (Except.ok.inj hrun)
  exact ⟨c, (lower_lift_eq_ok.1 hclass).1, forall₂_of_mapM_lowerMethod hmethods⟩

theorem forall₂_lowered {c : Node} (hc : tree.classDecl = .ok c) (h : t.generate tree = .ok p) :
    List.Forall₂ (fun d m => ∃ ns ns', (t.lowerMethod d).run ns = .ok (m, ns')) (c.childrenOf [.methodDecl]) p.methods := by
  obtain ⟨c', hc', hall⟩ := exists_class_of_generate h
  obtain rfl : c = c' := Except.ok.inj (hc.symm.trans hc')
  exact hall

/-- Every method of generated code is lowered from a method declaration of the program. -/
theorem exists_lowered (htree : tree.HasMethods Q) (h : t.generate tree = .ok p) {m : CodeMethod} (hm : m ∈ p.methods) :
    ∃ d, d.kind = .methodDecl ∧ Q d ∧ ∃ ns ns', (t.lowerMethod d).run ns = .ok (m, ns') := by
  obtain ⟨c, hclass, hall⟩ := exists_class_of_generate h
  obtain ⟨d, hd, hlowered⟩ := exists_of_mem_forall₂ hall hm
  obtain ⟨hkind, hQ⟩ := htree.of_classDecl hclass hd
  exact ⟨d, hkind, hQ, hlowered⟩

end SymbolTable
end JmmCompiler

import Mathlib
import JmmCompiler.Proofs.DottedNames
import JmmCompiler.Proofs.StagedChecks
import JmmCompiler.Proofs.StagedProgram
/-! Optimized programs. Folding to the end and normal calls succeed on a program that no check objects to, and make
programs of it with the same symbol table, that no check objects to and whose expressions have the same types. -/
namespace JmmCompiler

namespace Check

/-- A program whose nodes all pass the checks has no reports. -/
theorem AllPass.validate {t : SymbolTable} {root : Node} (h : AllPass t none root) (hroot : root.kind ≠ .methodDecl) :
    validate t root = .ok [] := by
  have hvisited : ∀ v ∈ root.preorder, root.at? v.1 = some v.2 ∧ AllPass t (root.methodAt? v.1 v.2) v.2 := by
    refine Node.forall_mem_visit (Q := fun path n => root.at? path = some n ∧ AllPass t (root.methodAt? path n) n)
      (fun path n i c hn hc => ⟨Node.at?_append_singleton hn.1 hc, ?_⟩) ?_
    · obtain ⟨hat, ⟨-, hbelow⟩⟩ := hn
      have hchild := hbelow c (List.mem_of_getElem? hc)
      by_cases hkind : c.kind = .methodDecl
      · rw [if_pos hkind] at hchild
        rwa [Node.methodAt?, if_pos hkind]
      · rw [if_neg hkind] at hchild
        rwa [Node.methodAt?_child hat hkind]
    · have hmethod : root.methodAt? [] root = none := by
        rw [Node.methodAt?, if_neg hroot]
        rfl
      simpa [Node.at?, hmethod] using h
  refine flatten_eq_ok_nil fun c hc => flatten_eq_ok_nil fun v hv => ?_
  obtain ⟨-, ⟨hpasses, -⟩⟩ := hvisited v hv
  exact hpasses c hc

theorem repeated_of_nodup {what : String} {seen : List String} {named : List (Node × String)}
    (h : (named.map (·.2)).Nodup) (hseen : ∀ name ∈ named.map (·.2), name ∉ seen) : repeated what seen named = [] := by
  induction named generalizing seen with
  | nil => rfl
  | cons first rest ih =>
    obtain ⟨n, name⟩ := first
    simp only [List.map_cons, List.nodup_cons, List.forall_mem_cons] at h hseen
    rw [repeated, ih h.2 fun x hx => ?_]
    · simp [hseen.1]
    · rw [List.mem_cons, not_or]
      exact ⟨fun heq => h.1 (heq ▸ hx), hseen.2 x hx⟩

theorem unique_of_nodup {what : String} {nodes : List Node} {names : List String}
    (h : nodes.mapM Node.name = .ok names) (hnodup : names.Nodup) : unique what nodes = .ok [] := by
  obtain ⟨named, hnamed⟩ : ∃ named, nodes.mapM (fun n => do return (n, ← n.name) : Node → Except Failure (Node × String)) =
      .ok named := exists_mapM_eq_ok fun n hn => by
    obtain ⟨name, -, hname⟩ := exists_of_mapM h hn
    exact ⟨(n, name), by rw [hname]; rfl⟩
  have hnames : nodes.mapM Node.name = .ok (named.map (·.2)) := mapM_eq_ok_map hnamed fun n pair hpair => by
    simp only [bind_eq_ok, pure_eq_ok] at hpair
    obtain ⟨name, hname, rfl⟩ := hpair
    exact hname
  obtain rfl := Except.ok.inj (h.symm.trans hnames)
  rw [unique, hnamed, ok_bind, repeated_of_nodup hnodup (by simp)]
  rfl

end Check

/-! ## Programs -/

namespace SymbolTable

/-- A program of imports and a class that passes the checks with all that is in it. -/
structure ClearedProgram (t : SymbolTable) (imports : List Node) (p : Position) (c : Node) : Prop where
  leaves : ∀ i ∈ imports, i.kind = .importDecl ∧ i.children = []
  kind : c.kind = .classDecl
  members : ∀ d ∈ c.children, d.IsDeclaration ∨ ∃ m, t.Cleared m d
  built : build ⟨.program, {}, imports ++ [c], p⟩ = .ok t
  program : Check.Passes ⟨t, none, ⟨.program, {}, imports ++ [c], p⟩⟩
  passes : Check.Passes ⟨t, none, c⟩

/-- What a member of a class becomes. -/
def RecastsMember (t : SymbolTable) (d d' : Node) : Prop :=
  d.IsDeclaration ∧ d' = d ∨ ∃ m, t.Cleared m d ∧ t.Cleared m d' ∧ t.Retypes none d d'

section
variable {t : SymbolTable} {imports ds : List Node} {p : Position} {c : Node}

namespace ClearedProgram

/-- The fields of a class stay, and its methods keep what is known of them. -/
theorem members_eq {cs : List Node} (hds : List.Forall₂ t.RecastsMember cs ds) :
    ds.filter ([Kind.varDecl].contains ·.kind) = cs.filter ([Kind.varDecl].contains ·.kind) ∧
      (ds.filter ([Kind.methodDecl].contains ·.kind)).mapM MethodInfo.ofNode =
        (cs.filter ([Kind.methodDecl].contains ·.kind)).mapM MethodInfo.ofNode ∧
      (ds.filter ([Kind.methodDecl].contains ·.kind)).mapM Node.name =
        (cs.filter ([Kind.methodDecl].contains ·.kind)).mapM Node.name := by
  induction hds with
  | nil => exact ⟨rfl, rfl, rfl⟩
  | @cons d d' cs ds hd _ ih =>
    obtain ⟨hfields, hmethods, hnames⟩ := ih
    rcases hd with ⟨hdecl, rfl⟩ | ⟨m, h, h', -⟩
    · have hkind : [Kind.methodDecl].contains d'.kind = false := by simpa using hdecl.kind_ne.1
      simp only [List.filter_cons, hkind, hfields, Bool.false_eq_true, if_false]
      exact ⟨trivial, hmethods, hnames⟩
    · have hkind : [Kind.methodDecl].contains d.kind = true ∧ [Kind.varDecl].contains d.kind = false := by
        simp [h.holds.kind]
      have hkind' : [Kind.methodDecl].contains d'.kind = true ∧ [Kind.varDecl].contains d'.kind = false := by
        simp [h'.holds.kind]
      simp only [List.filter_cons, hkind.1, hkind.2, hkind'.1, hkind'.2, Bool.false_eq_true, if_false, if_true,
        List.mapM_cons, hfields, hmethods, hnames, h.made, h'.made, h.holds.name, h'.holds.name]
      exact ⟨trivial, trivial, trivial⟩

/-- The members of a class may become others that pass the checks. -/
theorem withMembers (h : t.ClearedProgram imports p c) (hds : List.Forall₂ t.RecastsMember c.children ds) :
    t.ClearedProgram imports p (c.withChildren ds) ∧
      t.Retypes none ⟨.program, {}, imports ++ [c], p⟩ ⟨.program, {}, imports ++ [c.withChildren ds], p⟩ := by
  have hkind : (c.withChildren ds).kind = .classDecl := h.kind
  obtain ⟨hfields, hmethods, hnames⟩ : (c.withChildren ds).childrenOf [.varDecl] = c.childrenOf [.varDecl] ∧
      ((c.withChildren ds).childrenOf [.methodDecl]).mapM MethodInfo.ofNode =
        (c.childrenOf [.methodDecl]).mapM MethodInfo.ofNode ∧
      ((c.withChildren ds).childrenOf [.methodDecl]).mapM Node.name = (c.childrenOf [.methodDecl]).mapM Node.name :=
    members_eq hds
  have hmembers : ∀ d ∈ (c.withChildren ds).children, d.IsDeclaration ∨ ∃ m, t.Cleared m d := fun d' hd' => by
    obtain ⟨d, hd, hdecl, rfl⟩ | ⟨d, hd, m, -, hcleared, -⟩ : (∃ d ∈ c.children, d.IsDeclaration ∧ d' = d) ∨
        ∃ d ∈ c.children, ∃ m, t.Cleared m d ∧ t.Cleared m d' ∧ t.Retypes none d d' := by
      obtain ⟨d, hd, hrecasts⟩ := exists_of_mem_forall₂ hds hd'
      exact hrecasts.imp (fun h => ⟨d, hd, h⟩) (fun h => ⟨d, hd, h⟩)
    · exact .inl hdecl
    · exact .inr ⟨m, hcleared⟩
  have hmember : List.Forall₂ (t.Retypes none) c.children ds := hds.imp fun d d' hd => by
    rcases hd with ⟨-, rfl⟩ | ⟨m, -, -, hretypes⟩
    · exact .refl _
    · exact hretypes
  refine ⟨⟨h.leaves, hkind, hmembers, ?_, ?_, ?_⟩, ?_⟩
  · have hbuilt := h.built
    unfold build at hbuilt ⊢
    rw [Node.classDecl_program h.leaves h.kind, Node.childrenOf_program h.leaves h.kind] at hbuilt
    rw [Node.classDecl_program h.leaves hkind, Node.childrenOf_program h.leaves hkind]
    simp only [ok_bind] at hbuilt ⊢
    rw [hfields, hmethods]
    exact hbuilt
  · obtain ⟨hnamed, -, -, -, -, -⟩ := Check.passes_iff.1 h.program
    refine Check.passes_iff.2 ⟨?_, rfl, rfl, rfl, rfl, rfl⟩
    simp only [Check.duplicateDeclarations, Node.childrenOf_program h.leaves h.kind] at hnamed
    simp only [Check.duplicateDeclarations, Node.childrenOf_program h.leaves hkind]
    exact hnamed
  · obtain ⟨hnamed, hvarargs, -, -, -, hflow⟩ := Check.passes_iff.1 h.passes
    simp only [Check.duplicateDeclarations, h.kind] at hnamed
    simp only [Check.varargsDeclarations, h.kind] at hvarargs
    simp only [Check.controlFlow, h.kind] at hflow
    refine Check.passes_iff.2 ⟨?_, ?_, ?_, ?_, ?_, ?_⟩
    · obtain ⟨hfield, hmethod⟩ := Check.append_eq_ok_nil.1 hnamed
      obtain ⟨names, hof, hnodup⟩ := Check.nodup_of_unique hmethod
      simp only [Check.duplicateDeclarations, hkind, hfields]
      exact Check.append_eq_ok_nil.2 ⟨hfield, Check.unique_of_nodup (hnames.trans hof) hnodup⟩
    · simp only [Check.varargsDeclarations, hkind, hfields, hvarargs]
    · simp only [Check.undeclaredVariables, hkind]
      rfl
    · simp only [Check.undefinedMethods, hkind]
      rfl
    · simp only [Check.typeChecks, hkind]
      rfl
    · simp only [Check.controlFlow, hkind, hfields, hflow]
  · have hclass : t.Retypes none c (c.withChildren ds) := by
      have hkind := h.kind
      obtain ⟨kind, attributes, children, q⟩ := c
      obtain rfl : kind = .classDecl := hkind
      exact .of_forall₂ rfl hmember
    exact .of_forall₂ rfl (List.rel_append (List.forall₂_same.2 fun i _ => .refl i) (.cons hclass .nil))

end ClearedProgram

/-! ## Stages -/

namespace ClearedProgram

theorem hasClass (h : t.ClearedProgram imports p c) : Node.HasClass (fun d => ∃ m, t.Cleared m d) imports c :=
  ⟨h.leaves, h.kind, fun d hd => (h.members d hd).imp_right fun ⟨m, hm⟩ => ⟨hm.holds.kind, m, hm⟩⟩

/-- A stage that keeps the methods that pass the checks. -/
theorem recasts {f : Node → Except Failure Node}
    (hmethod : ∀ d m, t.Cleared m d → ∃ d', f d = .ok d' ∧ t.Cleared m d' ∧ t.Retypes none d d') (d : Node)
    (_ : d.kind = .methodDecl) (hd : ∃ m, t.Cleared m d) :
    ∃ d', f d = .ok d' ∧ ∃ m, t.Cleared m d ∧ t.Cleared m d' ∧ t.Retypes none d d' := by
  obtain ⟨m, hm⟩ := hd
  obtain ⟨d', hd', hrecasts⟩ := hmethod d m hm
  exact ⟨d', hd', m, hm, hrecasts⟩

theorem exists_normalizeVarargs (h : t.ClearedProgram imports p c)
    (hmethod : ∀ d m, t.Cleared m d →
      ∃ d', t.normalizeVarargs none d = .ok d' ∧ t.Cleared m d' ∧ t.Retypes none d d') :
    ∃ ds, t.normalizeVarargs none ⟨.program, {}, imports ++ [c], p⟩ =
        .ok ⟨.program, {}, imports ++ [c.withChildren ds], p⟩ ∧ List.Forall₂ t.RecastsMember c.children ds :=
  h.hasClass.exists_normalizeVarargs t (recasts hmethod)

/-- Rounds of folding succeed, however many there are. -/
theorem exists_foldRounds (h : t.ClearedProgram imports p c)
    (hpropagate : ∀ d m, t.Cleared m d → ∃ d', d.propagateMethod = .ok d' ∧ t.Cleared m d' ∧ t.Retypes none d d')
    (hfold : ∀ d m, t.Cleared m d → ∃ d', d.fold = .ok d' ∧ t.Cleared m d' ∧ t.Retypes none d d') (done fuel : Nat) :
    ∃ c' rounds, Node.foldRounds done fuel ⟨.program, {}, imports ++ [c], p⟩ =
        .ok (⟨.program, {}, imports ++ [c'], p⟩, rounds) ∧ t.ClearedProgram imports p c' ∧
      t.Retypes none ⟨.program, {}, imports ++ [c], p⟩ ⟨.program, {}, imports ++ [c'], p⟩ := by
  refine Node.exists_foldRounds (I := fun c' => t.ClearedProgram imports p c' ∧
    t.Retypes none ⟨.program, {}, imports ++ [c], p⟩ ⟨.program, {}, imports ++ [c'], p⟩) (fun c' hc' => ?_) ⟨h, .refl _⟩ done fuel
  obtain ⟨ds, hds, hrecasts⟩ := hc'.1.hasClass.exists_propagate (p := p) (recasts hpropagate)
  obtain ⟨hpropagated, hretypes⟩ := hc'.1.withMembers hrecasts
  obtain ⟨ds', hds', hrecasts'⟩ := hpropagated.hasClass.exists_fold (p := p) (recasts hfold)
  obtain ⟨hfolded, hretypes'⟩ := hpropagated.withMembers hrecasts'
  exact ⟨_, by rw [Node.foldRound, hds, ok_bind, hds'], hfolded, (hc'.2.trans hretypes).trans hretypes'⟩

end ClearedProgram
end
end SymbolTable

namespace SymbolTable.Cleared
variable {t : SymbolTable} {m : MethodInfo} {d : Node}

theorem exists_propagateMethod (h : t.Cleared m d) (himports : (t.context m).ImportsApart) (hregular : t.Regular)
    (hknown : (t.context m).VariablesKnown) :
    ∃ d', d.propagateMethod = .ok d' ∧ t.Cleared m d' ∧ t.Retypes none d d' := by
  obtain ⟨cs, hcs, hkeeps⟩ := h.holds.exists_propagateMethod hregular hknown
  exact ⟨_, hcs, h.withChildren himports hkeeps, h.retypes hkeeps⟩

theorem exists_fold (h : t.Cleared m d) (himports : (t.context m).ImportsApart) :
    ∃ d', d.fold = .ok d' ∧ t.Cleared m d' ∧ t.Retypes none d d' := by
  obtain ⟨cs, hcs, hkeeps⟩ := h.holds.exists_fold
  exact ⟨_, hcs, h.withChildren himports hkeeps, h.retypes hkeeps⟩

theorem exists_normalizeVarargs (h : t.Cleared m d) (himports : (t.context m).ImportsApart) :
    ∃ d', t.normalizeVarargs none d = .ok d' ∧ t.Cleared m d' ∧ t.Retypes none d d' := by
  obtain ⟨cs, hcs, hkeeps⟩ := h.holds.exists_normalizeVarargs fun hstrict => by cases hstrict
  have hrecasts : t.Recasts m d cs := hkeeps.imp fun _ _ hc => hc.1
  exact ⟨_, hcs, h.withChildren himports hrecasts, h.retypes hrecasts⟩

end SymbolTable.Cleared

/-! ## Accepted programs -/

namespace Node.Accepted
variable {root d : Node} {table : SymbolTable} {m : MethodInfo}

/-- The parameters and the local variables of a method have names. -/
theorem isName_variable (hmember : d.IsMember) (hdecl : table.Declares d m) (hkind : d.kind = .methodDecl) {v : Symbol}
    (hv : v ∈ m.params ++ m.locals) : Lexeme.IsName v.name := by
  have hmade := MethodInfo.madeFrom hdecl.made
  obtain ⟨n, hn, hnkind, hsymbol⟩ : ∃ n ∈ d.children, (n.kind = .param ∨ n.kind = .varDecl) ∧ Symbol.ofNode n = .ok v := by
    rcases List.mem_append.1 hv with hv | hv
    · obtain ⟨n, hn, hsymbol⟩ := exists_of_mem_mapM hmade.params hv
      exact ⟨n, (mem_childrenOf hn).1, .inl (mem_childrenOf hn).2, hsymbol⟩
    · obtain ⟨n, hn, hsymbol⟩ := exists_of_mem_mapM hmade.locals hv
      exact ⟨n, (mem_childrenOf hn).1, .inr (mem_childrenOf hn).2, hsymbol⟩
  have hname := Symbol.name_ofNode hsymbol
  cases hmember with
  | field hvar =>
    cases hvar
    cases hkind
  | @method name isPublic isStatic type params body hmethod htype hparams hbody p =>
    simp only [List.cons_append, List.mem_cons, List.mem_append] at hn
    rcases hn with rfl | (hn | hn) | hn
    · rcases hnkind with hnkind | hnkind <;> cases htype <;> cases hnkind
    · obtain ⟨hof, -, q⟩ := hparams n hn
      exact Except.ok.inj hname ▸ hof
    · obtain ⟨hof, -, q⟩ := Item.isVarDecl_of_mem_allLocals hbody n hn
      exact Except.ok.inj hname ▸ hof
    · have hstatement := Item.isStatement_of_mem_allNodes hbody n hn
      rcases hnkind with hnkind | hnkind <;> cases hstatement with
      | simple hsimple => cases hsimple <;> cases hnkind
      | _ => cases hnkind

/-- A name that is imported is the simple name of an import. -/
theorem mem_importNames {name : String} (hname : Lexeme.IsName name) (h : table.isImported name = true) :
    name ∈ table.importNames := (SymbolTable.isImported_iff hname.dot_notMem).1 h

theorem mem_of_binding (hm : table.method? m.name = some m) {name : String} {v : Symbol}
    (hv : table.binding? (some m.name) name = some v) : v ∈ m.params ++ m.locals ∧ v.name = name := by
  simp only [SymbolTable.binding?, SymbolTable.param?, SymbolTable.local?, Option.bind_some, hm] at hv
  rcases Option.or_eq_some_iff.1 hv with hv | ⟨-, hv⟩
  · exact ⟨List.mem_append_left _ (List.mem_of_find?_eq_some hv), by simpa using List.find?_some hv⟩
  · exact ⟨List.mem_append_right _ (List.mem_of_find?_eq_some hv), by simpa using List.find?_some hv⟩

theorem importsApart (hmember : d.IsMember) (hdecl : table.Declares d m) (hkind : d.kind = .methodDecl)
    (hnames : ∀ v ∈ m.params ++ m.locals, v.name ∉ table.importNames) : (table.context m).ImportsApart := by
  intro name himported
  by_contra hbound
  obtain ⟨v, hv⟩ := Option.ne_none_iff_exists'.1 hbound
  obtain ⟨hmem, rfl⟩ := mem_of_binding hdecl.found hv
  exact hnames v hmem (mem_importNames (isName_variable hmember hdecl hkind hmem) himported)

/-- A method has a declaration of the shape of one. -/
theorem exists_member (h : root.Accepted table) (hm : m ∈ table.methods) :
    ∃ d, d.IsMember ∧ d.kind = .methodDecl ∧ table.Declares d m := by
  obtain ⟨i, c, hc, -, hclass⟩ := h.shape.exists_class
  obtain ⟨d, hd, hmade⟩ := exists_of_mem_mapM (h.table_eq hc).2 hm
  exact ⟨d, shape_of_mem hclass hd, (mem_childrenOf hd).2, h.declares hc hd hmade⟩

/-- No variable of a method is called `this`. -/
theorem variable_ne_this (h : root.Accepted table) (hm : m ∈ table.methods) {v : Symbol} (hv : v ∈ m.params ++ m.locals) :
    v.name ≠ "this" := fun heq => by
  obtain ⟨d, hmember, hkind, hdecl⟩ := h.exists_member hm
  have hname := isName_variable hmember hdecl hkind hv
  rw [heq] at hname
  exact absurd hname.2 (by decide)

/-- Where a program writes known types only, its variables have known types. -/
theorem variablesKnown (h : root.Accepted table) (hm : m ∈ table.methods)
    (hwritten : ∀ type, root.Writes type → type.name ≠ "any") : (table.context m).VariablesKnown := by
  intro name hname hany
  obtain ⟨d, -, -, hdecl⟩ := h.exists_member hm
  obtain ⟨v, hv, htype⟩ := exists_variable hdecl.found hname
  have hwrites : root.Writes v.type := hv.elim (fun hv => h.writes_field (List.mem_of_find?_eq_some hv))
    (fun hv => h.writes_variable hm hv)
  exact hwritten v.type hwrites (congrArg Ty.name (htype.symm.trans hany))

theorem cleared (h : root.Accepted table) {path : Path} (hat : root.at? path = some d) (hmember : d.IsMember)
    (hdecl : table.Declares d m) (hkind : d.kind = .methodDecl) (himports : (table.context m).ImportsApart) :
    table.Cleared m d := by
  have hprepares : (table.context m).Prepares root table m false
      fun n => (table.context m).Reaches n ∧ n.EndsBlocks := by
    refine ⟨rfl, rfl, (Context.stable_reaches himports).and Context.stable_endsBlocks, nofun, nofun,
      fun _ d _ _ hd n hn => ⟨hd.fits hn, (hd.fits hn).everywhere_reaches hd.within (hd.clears n hn)⟩⟩
  have hpasses := h.passes hat
  rw [show root.methodAt? path d = some d from if_pos hkind] at hpasses
  exact ⟨hdecl.made, holds hprepares hat hdecl hmember hkind, hpasses⟩

/-- A program that no check objects to, with its class and its methods. -/
theorem exists_clearedProgram (h : root.Accepted table)
    (himports : ∀ m ∈ table.methods, (table.context m).ImportsApart) :
    ∃ imports p c, root = ⟨.program, {}, imports ++ [c], p⟩ ∧ table.ClearedProgram imports p c := by
  obtain ⟨imports, p, c, rfl, hclass⟩ := h.exists_hasClass
  have hkind := hclass.kind
  have hroot : Node.at? ⟨.program, {}, imports ++ [c], p⟩ [] = some ⟨.program, {}, imports ++ [c], p⟩ := rfl
  have hat : Node.at? ⟨.program, {}, imports ++ [c], p⟩ [imports.length] = some c := by simp [Node.at?]
  have hnone : Node.methodAt? ⟨.program, {}, imports ++ [c], p⟩ [] ⟨.program, {}, imports ++ [c], p⟩ = none := rfl
  refine ⟨imports, p, c, rfl, hclass.leaves, hkind, fun d hd => ?_, h.built, ?_, ?_⟩
  · refine (hclass.members d hd).imp_right ?_
    rintro ⟨hmethod, hmember, m, path, hdeclares, hm, hmat⟩
    exact ⟨m, h.cleared hmat hmember hdeclares hmethod (himports m hm)⟩
  · have hpasses := h.passes hroot
    rwa [hnone] at hpasses
  · have hpasses := h.passes hat
    have hmethod := methodAt?_child (i := imports.length) hroot (c := c) (by simp [hkind])
    rw [List.nil_append, hnone] at hmethod
    rwa [hmethod] at hpasses

end Node.Accepted

namespace Compile
variable {table : SymbolTable} {root : Node}

end Compile

end JmmCompiler

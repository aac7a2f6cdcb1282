import JmmCompiler.Proofs.Passing
import JmmCompiler.Proofs.StagedMethods
/-! Checks on the way to lowering. What a stage makes of a method that passes the checks passes them again, and its
expressions have the types that they had. -/
namespace JmmCompiler

theorem Check.unreachable_of_rewrites {folds : Prop} {t : SymbolTable} {method : Option String} {cs cs' : List Node}
    (hcs : List.Forall₂ (Node.Rewrites folds t method) cs cs') (h : unreachable cs = []) : unreachable cs' = [] := by
  induction hcs with
  | nil => rfl
  | @cons c c' cs cs' hc hcs ih =>
    cases hcs with
    | nil => rfl
    | cons hnext hrest =>
      by_cases hkind : c.kind = .returnStmt
      · simp [unreachable, hkind] at h
      · rw [unreachable, if_neg hkind] at h
        rw [unreachable, if_neg (mt hc.isReturn_iff.1 hkind)]
        exact ih h

/-- No statement of a method without reports follows a return. -/
theorem Check.unreachable_of_methodFlow {d : Node} (h : methodFlow d = .ok []) : unreachable d.statements = [] := by
  simp only [methodFlow, bind_eq_ok] at h
  obtain ⟨voids, -, written, -, type, -, h⟩ := h
  split at h
  · cases hname : d.name with
    | error e => simp [hname] at h
    | ok name => simp [hname] at h
  · simp only [pure_eq_ok, bind_eq_ok, List.append_eq_nil_iff] at h
    obtain ⟨_, rfl, ⟨-, hlate⟩, -⟩ := h
    exact hlate

namespace Context
variable {s : Context} {P Q : Node → Prop}

theorem Stable.and (hP : s.Stable P) (hQ : s.Stable Q) : s.Stable fun n => P n ∧ Q n where
  constant c p := ⟨hP.constant c p, hQ.constant c p⟩
  children hcs h := ⟨hP.children hcs h.1, hQ.children hcs h.2⟩
  call hreceiver hname hm hrest hlength h :=
    ⟨hP.call hreceiver hname hm hrest hlength h.1, hQ.call hreceiver hname hm hrest hlength h.2⟩
  gathered hm hrest := ⟨hP.gathered hm hrest, hQ.gathered hm hrest⟩

/-- Parameters and local variables have other names than imports. -/
def ImportsApart (s : Context) : Prop :=
  ∀ name, s.table.isImported name = true → s.table.binding? (some s.method) name = none

/-- The receiver of a call is kept, or its type is. -/
theorem stable_reaches (himports : s.ImportsApart) : s.Stable s.Reaches where
  constant c p := by
    rintro attributes receiver args q name heq -
    cases c <;> cases heq
  children {kind attributes cs cs' p} hcs h := by
    rintro attributes' receiver' args' p' name heq hname
    simp only [Node.mk.injEq] at heq
    obtain ⟨rfl, rfl, rfl, rfl⟩ := heq
    rcases hcs with _ | ⟨hreceiver, hargs⟩
    rename_i receiver args
    obtain ⟨type, htyped, hreaches⟩ := h attributes receiver args p name rfl hname
    refine ⟨type, hreceiver.typed htyped, hreaches.imp_right fun hforeign => ?_⟩
    rcases hforeign with ⟨hlength, rfl, harray⟩ | hclass | ⟨hkind, imported, himported, hisImported⟩ | hsuper
    · cases hargs
      exact .inl ⟨hlength, rfl, harray⟩
    · exact .inr (.inl hclass)
    · -- the name of an import is no variable, and stays
      obtain rfl := hreceiver.unbound ⟨imported, hkind, himported, himports imported hisImported⟩
      exact .inr (.inr (.inl ⟨hkind, imported, himported, hisImported⟩))
    · exact .inr (.inr (.inr hsuper))
  call {attributes receiver before after literal name m p} hreceiver hname hm hrest hlength h := by
    rintro attributes' receiver' args' p' name' heq hname'
    simp only [Node.mk.injEq, List.cons.injEq, true_and] at heq
    obtain ⟨rfl, ⟨rfl, rfl⟩, rfl⟩ := heq
    obtain ⟨type, htyped, hreaches⟩ := h attributes receiver (before ++ after) p name' rfl hname'
    obtain rfl := Except.ok.inj (htyped.typeOf.symm.trans hreceiver)
    refine ⟨_, htyped, hreaches.imp_right fun hforeign => .inr (hforeign.resolve_left ?_)⟩
    rintro ⟨-, -, harray⟩
    cases harray
  gathered hm hrest := by
    rintro attributes receiver args p name heq
    cases heq

theorem stable_endsBlocks : s.Stable Node.EndsBlocks where
  constant c p hkind := by cases c <;> cases hkind
  children hcs h hkind := Check.unreachable_of_rewrites (hcs.imp fun _ _ hc => hc.retypes.rewrites) (h hkind)
  call _ _ _ _ _ _ hkind := by cases hkind
  gathered _ _ hkind := by cases hkind

end Context

/-! ## What the checks say of a method -/

theorem Typed.everywhere_reaches {s : Context} {decl e : Node} {type : Ty} (hs : s.Within decl) (h : Typed s e type)
    (hclears : s.Clears decl e) : e.Everywhere fun n => s.Reaches n ∧ n.EndsBlocks := by
  induction e using Node.induction_children generalizing type with
  | step e ih =>
    refine .intro ⟨h.reaches_of_passes hs hclears.here, fun hkind => ?_⟩ fun c hc hkind => ?_
    · cases h <;> cases hkind
    · obtain ⟨t, ht⟩ := h.of_mem_children_lax hs.strict hc
      exact ih c hc ht (hclears.child hc hkind)

theorem Fits.everywhere_reaches {s : Context} {decl n : Node} {returnType : Ty} (hs : s.Within decl)
    (h : Fits s returnType n) (hclears : s.Clears decl n) : n.Everywhere fun n => s.Reaches n ∧ n.EndsBlocks := by
  induction n using Node.induction_children with
  | step n ih =>
    refine .intro ⟨?_, fun hkind => ?_⟩ fun c hc hkind => ?_
    · rintro attributes receiver args p name rfl
      cases h
    · obtain ⟨-, -, -, -, -, hflow⟩ := Check.passes_iff.1 hclears.here
      obtain ⟨kind, attributes, children, p⟩ := n
      obtain rfl : kind = .block := hkind
      exact Except.ok.inj hflow
    · rcases h.of_mem_children hc with hfits | ⟨t, ht⟩
      · exact ih c hc hfits (hclears.child hc hkind)
      · exact ht.everywhere_reaches hs (hclears.child hc hkind)

theorem Node.IsDeclaration.allPass {n : Node} (h : n.IsDeclaration) (t : SymbolTable) (method : Option Node) :
    Check.AllPass t method n := by
  have hpasses {n : Node} (hkind : n.kind = .typeRef ∨ n.kind = .param ∨ n.kind = .varDecl) :
      Check.Passes ⟨t, method, n⟩ := by
    obtain ⟨kind, attributes, children, p⟩ := n
    rcases hkind with hkind | hkind | hkind <;> cases hkind <;>
      exact Check.passes_iff.2 ⟨rfl, rfl, rfl, rfl, rfl, rfl⟩
  refine .intro (hpasses h.1) fun c hc => ?_
  obtain ⟨hkind, hchildren⟩ := h.2 c hc
  rw [if_neg (by simp [hkind])]
  exact .intro (hpasses (.inl hkind)) (by simp [hchildren])

namespace SymbolTable
variable {t : SymbolTable} {m : MethodInfo} {d d' : Node} {cs : List Node}

/-- The declaration of a method that passes the checks with all that is in it. -/
structure Cleared (t : SymbolTable) (m : MethodInfo) (d : Node) : Prop where
  made : MethodInfo.ofNode d = .ok m
  holds : (t.context m).Holds m (fun n => (t.context m).Reaches n ∧ n.EndsBlocks) d
  passes : Check.Passes ⟨t, some d, d⟩

/-- What a declaration becomes when its statements change. -/
def Recasts (t : SymbolTable) (m : MethodInfo) (d : Node) (cs : List Node) : Prop :=
  List.Forall₂ ((t.context m).Keeps m.returnType) d.children cs

namespace Cleared

/-- The written types, the parameters and the variables of a method stay. -/
theorem declarations_eq (h : t.Cleared m d) (hcs : t.Recasts m d cs) :
    (d.withChildren cs).params = d.params ∧ (d.withChildren cs).locals = d.locals ∧
      (d.withChildren cs).returnType = d.returnType := by
  refine ⟨h.holds.childrenOf_eq hcs (.inl rfl), h.holds.childrenOf_eq hcs (.inr rfl), ?_⟩
  obtain ⟨written, hwritten, hreturn⟩ := (MethodInfo.madeFrom h.made).returnType
  have hkind : written.kind = .typeRef := by
    by_contra hkind
    simp [Ty.ofNode, hkind] at hreturn
  have hparts := h.holds.parts
  have hkeeps : List.Forall₂ _ d.children cs := hcs
  unfold Node.returnType at hwritten ⊢
  unfold Node.withChildren
  generalize d.children = ds at hkeeps hparts hwritten
  cases hkeeps with
  | nil => rfl
  | @cons c c' ds cs hc hrest =>
    obtain rfl := Except.ok.inj hwritten
    have hdecl := (hparts c (by simp)).resolve_right fun hfits => by
      have hstatement := hfits.1.isStatement
      simp [hkind, Kind.isStatement] at hstatement
    rw [hc.declaration hdecl]

theorem retypes_children (h : t.Cleared m d) (hcs : t.Recasts m d cs) :
    List.Forall₂ (t.Retypes (some m.name)) d.children cs := by
  refine ((List.forall₂_and_left d.children cs).2 ⟨h.holds.parts, hcs⟩).imp fun c c' hc => ?_
  rcases hc.1 with hdecl | ⟨hfits, -⟩
  · rw [hc.2.declaration hdecl]
    exact .refl c
  · exact (hc.2.part hfits).retypes

/-- A method whose statements change keeps the types of its expressions. -/
theorem retypes (h : t.Cleared m d) (hcs : t.Recasts m d cs) : t.Retypes none d (d.withChildren cs) := by
  have hchildren := h.retypes_children hcs
  have hkind := h.holds.kind
  have hname := h.holds.name
  obtain ⟨kind, attributes, children, p⟩ := d
  obtain rfl : kind = .methodDecl := hkind
  refine .of_forall₂ rfl ?_
  rw [Node.methodBelow, if_pos rfl, hname]
  exact hchildren

theorem methodFlow_eq_nil (h : t.Cleared m d) (hcs : t.Recasts m d cs) :
    Check.methodFlow (d.withChildren cs) = .ok [] := by
  obtain ⟨-, -, -, -, -, hflow⟩ := Check.passes_iff.1 h.passes
  obtain ⟨hparams, hlocals, hreturn⟩ := h.declarations_eq hcs
  have hrewrites : List.Forall₂ (Node.Rewrites True t (some m.name)) d.statements (d.withChildren cs).statements :=
    Node.Rewrites.forall₂_statements ((h.retypes_children hcs).imp fun _ _ hc => hc.rewrites)
  have hcompletes : Node.anyCompletes (d.withChildren cs).statements = Node.anyCompletes d.statements :=
    Node.Rewrites.anyCompletes_eq (hrewrites.imp fun _ _ hc => hc.completes_eq)
  have hmethod : Check.methodFlow d = .ok [] := by
    simpa only [Check.controlFlow, h.holds.kind] using hflow
  have hlate := Check.unreachable_of_methodFlow hmethod
  have hlate' : Check.unreachable (d.withChildren cs).statements = [] := Check.unreachable_of_rewrites hrewrites hlate
  unfold Check.methodFlow at hmethod ⊢
  rw [hparams, hlocals, hreturn, hcompletes, hlate']
  rw [hlate] at hmethod
  exact hmethod

/-- What a stage makes of the statements of a method that passes the checks passes them. -/
theorem withChildren (h : t.Cleared m d) (himports : (t.context m).ImportsApart) (hcs : t.Recasts m d cs) :
    t.Cleared m (d.withChildren cs) := by
  obtain ⟨hparams, hlocals, hreturn⟩ := h.declarations_eq hcs
  have hkind : (d.withChildren cs).kind = .methodDecl := h.holds.kind
  obtain ⟨hnames, hvarargs, -, -, -, -⟩ := Check.passes_iff.1 h.passes
  refine ⟨?_, h.holds.withParts ((Context.stable_reaches himports).and Context.stable_endsBlocks) hcs,
    Check.passes_iff.2 ⟨?_, ?_, ?_, ?_, ?_, ?_⟩⟩
  · have hmade := h.made
    unfold MethodInfo.ofNode at hmade ⊢
    rw [hparams, hlocals, hreturn]
    exact hmade
  · simp only [Check.duplicateDeclarations, h.holds.kind] at hnames
    simpa only [Check.duplicateDeclarations, hkind, hparams, hlocals] using hnames
  · simp only [Check.varargsDeclarations, h.holds.kind] at hvarargs
    simp only [Check.varargsDeclarations, hkind, hparams, hlocals, hreturn]
    exact hvarargs
  · simp only [Check.undeclaredVariables, hkind]
    rfl
  · simp only [Check.undefinedMethods, hkind]
    rfl
  · simp only [Check.typeChecks, hkind]
    rfl
  · simpa only [Check.controlFlow, hkind] using h.methodFlow_eq_nil hcs

theorem within (h : t.Cleared m d) : (t.context m).Within d := 
  ⟨h.holds.name?, (MethodInfo.madeFrom h.made).isStatic.symm, rfl⟩

/-- All nodes of the declaration pass the checks. -/
theorem allPass (h : t.Cleared m d) : Check.AllPass t (some d) d := by
  refine .intro h.passes fun c hc => ?_
  obtain ⟨written, hwritten, hreturn⟩ := (MethodInfo.madeFrom h.made).returnType
  rcases h.holds.parts c hc with hdecl | ⟨hfits, hevery⟩
  · rw [if_neg hdecl.kind_ne.1]
    exact hdecl.allPass t _
  · rw [if_neg hfits.kind_ne]
    exact hfits.allPass h.within hwritten hreturn ⟨_, h.holds.name⟩ hevery

end Cleared
end SymbolTable
end JmmCompiler

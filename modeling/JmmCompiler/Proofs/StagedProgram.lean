import JmmCompiler.Proofs.StagedMethods
/-! Programs on the way to lowering. A stage that succeeds on the methods of a class succeeds on the program, and so do as
many rounds of folding as there may be. -/
namespace JmmCompiler
namespace Node

/-- A program of imports and a class whose members are declarations, and methods with a property. -/
structure HasClass (Q : Node → Prop) (imports : List Node) (c : Node) : Prop where
  leaves : ∀ i ∈ imports, i.kind = .importDecl ∧ i.children = []
  kind : c.kind = .classDecl
  members : ∀ d ∈ c.children, d.IsDeclaration ∨ d.kind = .methodDecl ∧ Q d

/-- What a member of a class becomes: declarations stay. -/
def RecastsMember (R : Node → Node → Prop) (d d' : Node) : Prop := d.IsDeclaration ∧ d' = d ∨ R d d'

section
variable {imports : List Node} {c c' : Node} {p : Position}

theorem classDecl_program (himports : ∀ i ∈ imports, i.kind = .importDecl ∧ i.children = []) (hkind : c.kind = .classDecl) :
    classDecl ⟨.program, {}, imports ++ [c], p⟩ = .ok c := by
  have hnone : imports.find? (·.kind = .classDecl) = none := by
    rw [List.find?_eq_none]
    intro i hi
    simp [(himports i hi).1]
  simp [classDecl, List.find?_append, hnone, hkind]

theorem childrenOf_program (himports : ∀ i ∈ imports, i.kind = .importDecl ∧ i.children = []) (hkind : c.kind = .classDecl) :
    childrenOf ⟨.program, {}, imports ++ [c], p⟩ [.importDecl] = imports := by
  have hall : imports.filter ([Kind.importDecl].contains ·.kind) = imports :=
    List.filter_eq_self.2 fun i hi => by simp [(himports i hi).1]
  simp only [childrenOf, List.filter_append, hall]
  simp [hkind]

theorem replaceClass_program (himports : ∀ i ∈ imports, i.kind = .importDecl ∧ i.children = [])
    (hkind : c.kind = .classDecl) : replaceClass c' (imports ++ [c]) = imports ++ [c'] := by
  induction imports with
  | nil => simp [replaceClass, hkind]
  | cons i imports ih =>
    have hother : i.kind ≠ .classDecl := by simp [(himports i (by simp)).1]
    rw [List.cons_append, replaceClass, if_neg hother, ih fun i hi => himports i (by simp [hi])]
    rfl

/-- Rounds of folding succeed, however many there are, if each keeps what is known of the class. -/
theorem exists_foldRounds {I : Node → Prop}
    (hround : ∀ c, I c → ∃ c', foldRound ⟨.program, {}, imports ++ [c], p⟩ = .ok ⟨.program, {}, imports ++ [c'], p⟩ ∧ I c')
    (h : I c) (done fuel : Nat) :
    ∃ c' rounds, foldRounds done fuel ⟨.program, {}, imports ++ [c], p⟩ = .ok (⟨.program, {}, imports ++ [c'], p⟩, rounds) ∧
      I c' := by
  induction fuel generalizing done c with
  | zero => exact ⟨c, done, rfl, h⟩
  | succ fuel ih =>
    obtain ⟨next, hnext, hI⟩ := hround c h
    simp only [foldRounds, hnext, ok_bind]
    split
    · exact ⟨c, done + 1, rfl, h⟩
    · exact ih hI (done + 1)

end

namespace HasClass
variable {Q Q' : Node → Prop} {R : Node → Node → Prop} {imports ds : List Node} {c : Node} {p : Position}

/-- The members of a class may become others. -/
theorem withMembers (h : HasClass Q imports c) (hds : List.Forall₂ (RecastsMember R) c.children ds)
    (hR : ∀ d d', R d d' → d'.kind = .methodDecl ∧ Q' d') : HasClass Q' imports (c.withChildren ds) := by
  refine ⟨h.leaves, h.kind, fun d' hd' => ?_⟩
  obtain ⟨d, hd, ⟨hdecl, rfl⟩ | hrecasts⟩ := exists_of_mem_forall₂ hds hd'
  · exact .inl hdecl
  · exact .inr (hR d d' hrecasts)

/-- A stage that keeps declarations and makes something of the methods. -/
theorem exists_mapM (h : HasClass Q imports c) {f : Node → Except Failure Node} (hdecl : ∀ d, d.IsDeclaration → f d = .ok d)
    (hmethod : ∀ d, d.kind = .methodDecl → Q d → ∃ d', f d = .ok d' ∧ R d d') :
    ∃ ds, c.children.mapM f = .ok ds ∧ List.Forall₂ (RecastsMember R) c.children ds :=
  exists_forall₂ fun d hd => by
    rcases h.members d hd with hd | ⟨hkind, hQ⟩
    · exact ⟨d, hdecl d hd, .inl ⟨hd, rfl⟩⟩
    · exact (hmethod d hkind hQ).imp fun d' hd' => ⟨hd'.1, .inr hd'.2⟩

theorem exists_propagate (h : HasClass Q imports c)
    (hmethod : ∀ d, d.kind = .methodDecl → Q d → ∃ d', d.propagateMethod = .ok d' ∧ R d d') :
    ∃ ds, propagate ⟨.program, {}, imports ++ [c], p⟩ = .ok ⟨.program, {}, imports ++ [c.withChildren ds], p⟩ ∧
      List.Forall₂ (RecastsMember R) c.children ds := by
  obtain ⟨ds, hds, hrecasts⟩ := h.exists_mapM
    (f := fun d => if d.kind = .methodDecl then d.propagateMethod else return d)
    (fun d hd => if_neg hd.kind_ne.1) fun d hkind hd => by simpa only [hkind, if_true] using hmethod d hkind hd
  refine ⟨ds, ?_, hrecasts⟩
  rw [propagate, classDecl_program h.leaves h.kind, ok_bind, hds, ok_bind]
  simp [withChildren, replaceClass_program h.leaves h.kind]

/-- A stage of all nodes that keeps the kinds of programs, classes and imports. -/
theorem exists_stage (h : HasClass Q imports c) {f : Node → Except Failure Node}
    (hnode : ∀ kind attributes cs p cs', kind = .program ∨ kind = .classDecl ∨ kind = .importDecl → cs.mapM f = .ok cs' →
      f ⟨kind, attributes, cs, p⟩ = .ok ⟨kind, attributes, cs', p⟩)
    (hdecl : ∀ d, d.IsDeclaration → f d = .ok d)
    (hmethod : ∀ d, d.kind = .methodDecl → Q d → ∃ d', f d = .ok d' ∧ R d d') :
    ∃ ds, f ⟨.program, {}, imports ++ [c], p⟩ = .ok ⟨.program, {}, imports ++ [c.withChildren ds], p⟩ ∧
      List.Forall₂ (RecastsMember R) c.children ds := by
  obtain ⟨ds, hds, hrecasts⟩ := h.exists_mapM hdecl hmethod
  have hclass : f c = .ok (c.withChildren ds) := by
    have hkind := h.kind
    obtain ⟨kind, attributes, children, q⟩ := c
    exact hnode kind attributes children q ds (.inr (.inl hkind)) hds
  have himports : imports.mapM f = .ok imports := mapM_eq_ok_iff.2 <| List.forall₂_same.2 fun i hi => by
    obtain ⟨kind, attributes, children, q⟩ := i
    obtain ⟨rfl, rfl⟩ : kind = .importDecl ∧ children = [] := h.leaves _ hi
    exact hnode .importDecl attributes [] q [] (by simp) rfl
  refine ⟨ds, hnode .program {} _ p _ (by simp) ?_, hrecasts⟩
  exact mapM_eq_ok_iff.2 (List.rel_append (mapM_eq_ok_iff.1 himports) (.cons hclass .nil))

theorem exists_fold (h : HasClass Q imports c)
    (hmethod : ∀ d, d.kind = .methodDecl → Q d → ∃ d', d.fold = .ok d' ∧ R d d') :
    ∃ ds, fold ⟨.program, {}, imports ++ [c], p⟩ = .ok ⟨.program, {}, imports ++ [c.withChildren ds], p⟩ ∧
      List.Forall₂ (RecastsMember R) c.children ds := by
  refine h.exists_stage (fun kind attributes cs p cs' hkind hcs => ?_) (fun d hd => hd.fold) hmethod
  rw [fold, foldAll_eq_mapM, hcs, ok_bind]
  rcases hkind with rfl | rfl | rfl <;> rfl

theorem exists_normalizeVarargs (h : HasClass Q imports c) (t : SymbolTable)
    (hmethod : ∀ d, d.kind = .methodDecl → Q d → ∃ d', t.normalizeVarargs none d = .ok d' ∧ R d d') :
    ∃ ds, t.normalizeVarargs none ⟨.program, {}, imports ++ [c], p⟩ =
        .ok ⟨.program, {}, imports ++ [c.withChildren ds], p⟩ ∧ List.Forall₂ (RecastsMember R) c.children ds := by
  refine h.exists_stage (fun kind attributes cs p cs' hkind hcs => ?_) (fun d hd => hd.normalizeVarargs t none) hmethod
  have hother : kind ≠ .methodDecl ∧ kind ≠ .call := by rcases hkind with rfl | rfl | rfl <;> simp
  rw [SymbolTable.normalizeVarargs, if_neg hother.1]
  simp only [normalizeAllVarargs_eq_mapM, hcs, pure_bind, ok_bind, if_neg hother.2]
  rfl

/-- A round of folding keeps a property of methods that propagation and folding keep. -/
theorem exists_foldRound (h : HasClass Q imports c)
    (hpropagate : ∀ d, d.kind = .methodDecl → Q d → ∃ d', d.propagateMethod = .ok d' ∧ d'.kind = .methodDecl ∧ Q d')
    (hfold : ∀ d, d.kind = .methodDecl → Q d → ∃ d', d.fold = .ok d' ∧ d'.kind = .methodDecl ∧ Q d') :
    ∃ c', foldRound ⟨.program, {}, imports ++ [c], p⟩ = .ok ⟨.program, {}, imports ++ [c'], p⟩ ∧ HasClass Q imports c' := by
  obtain ⟨ds, hds, hrecasts⟩ := h.exists_propagate hpropagate (p := p)
  have hpropagated := h.withMembers hrecasts fun _ _ hd => hd
  obtain ⟨ds', hds', hrecasts'⟩ := hpropagated.exists_fold hfold (p := p)
  exact ⟨_, by rw [foldRound, hds, ok_bind, hds'], hpropagated.withMembers hrecasts' fun _ _ hd => hd⟩

end HasClass

/-- The tree that is lowered, if folding and making calls normal succeed, whatever was done before. -/
theorem exists_prepare {config : Config} {table : SymbolTable} {root folded tree : Node}
    (hoff : config.optimize = false → folded = root)
    (hon : config.optimize = true → ∃ rounds, root.foldConstantsCounted = .ok (folded, rounds))
    (hnormal : table.normalizeVarargs none folded = .ok tree) (before : List Event) :
    ∃ events, runOn (Compile.prepare config table root) before = (.ok tree, events) := by
  unfold Compile.prepare
  cases hoptimize : config.optimize with
  | false =>
    obtain rfl := hoff hoptimize
    rw [if_neg Bool.false_ne_true, pure_bind, Compile.runOn_ofExcept, hnormal]
    exact ⟨_, rfl⟩
  | true =>
    obtain ⟨rounds, hrounds⟩ := hon hoptimize
    simp only [if_true, runOn_bind, Compile.runOn_ofExcept, hrounds]
    exact ⟨before ++ [.optimizing] ++ [.folded rounds], by rw [← hnormal]; rfl⟩

namespace Accepted
variable {root : Node} {table : SymbolTable}

/-- A program that no check objects to is made of imports and a class, and each of its methods has a place in it. -/
theorem exists_hasClass (h : root.Accepted table) : ∃ imports p c, root = ⟨.program, {}, imports ++ [c], p⟩ ∧
    HasClass (fun d => d.IsMember ∧ ∃ m path, table.Declares d m ∧ m ∈ table.methods ∧ root.at? path = some d) imports c := by
  have hshape := h.shape
  obtain ⟨hleaves, hclass, p⟩ := hshape
  rename_i imports c
  have hkind : c.kind = .classDecl := by cases hclass <;> rfl
  have hleaves' : ∀ i ∈ imports, i.kind = .importDecl ∧ i.children = [] := fun i hi => by
    cases hleaves i hi
    exact ⟨rfl, rfl⟩
  have hat : at? ⟨.program, {}, imports ++ [c], p⟩ [imports.length] = some c := by simp [at?]
  refine ⟨imports, p, c, rfl, hleaves', hkind, fun d hd => ?_⟩
  have hmember : d.IsMember := by
    cases hclass with
    | alone hname hmembers q => exact hmembers d hd
    | extending hname hparent hmembers q => exact hmembers d hd
  by_cases hmethod : d.kind = .methodDecl
  · have hdecl := classDecl_program (p := p) hleaves' hkind
    have hmem : d ∈ c.childrenOf [.methodDecl] := List.mem_filter.2 ⟨hd, by simp [hmethod]⟩
    obtain ⟨m, hm, hmade⟩ := exists_of_mapM (h.table_eq hdecl).2 hmem
    obtain ⟨j, hj⟩ := List.getElem?_of_mem hd
    exact .inr ⟨hmethod, hmember, m, _, h.declares hdecl hmem hmade, hm, at?_append_singleton hat hj⟩
  · cases hmember with
    | field hvar =>
      obtain ⟨hname, htype, q⟩ := hvar
      exact .inl ⟨.inr (.inr rfl), by simpa using isDeclaration_of_isType htype⟩
    | method => exact absurd rfl hmethod

/-- The stages before lowering succeed on a program that no check objects to, and the methods that are lowered hold in the
contexts that prepare them, with normal calls. -/
theorem exists_prepared {config : Config} {s : MethodInfo → Context} {P : MethodInfo → Node → Prop} (h : root.Accepted table)
    (hs : ∀ m, table.method? m.name = some m → (s m).Prepares root table m config.optimize (P m)) :
    ∃ imports p c,
      (∀ before, ∃ events, runOn (Compile.prepare config table root) before = (.ok ⟨.program, {}, imports ++ [c], p⟩, events)) ∧
      HasClass (fun d => ∃ m, table.method? m.name = some m ∧
        (s m).Holds m (fun n => P m n ∧ (s m).IsNormal n) d) imports c := by
  obtain ⟨imports, p, c, rfl, hclass⟩ := h.exists_hasClass
  have hregular := h.regular
  have hholds : HasClass (fun d => ∃ m, table.method? m.name = some m ∧ (s m).Holds m (P m) d) imports c :=
    ⟨hclass.leaves, hclass.kind, fun d hd => (hclass.members d hd).imp_right fun ⟨hkind, hmember, m, path, hdeclares, _, hat⟩ =>
      ⟨hkind, m, hdeclares.found, holds (hs m hdeclares.found) hat hdeclares hmember hkind⟩⟩
  obtain ⟨folded, hoff, hon, hclass'⟩ : ∃ c', (config.optimize = false → c' = c) ∧
      (config.optimize = true → ∃ rounds, foldConstantsCounted ⟨.program, {}, imports ++ [c], p⟩ =
        .ok (⟨.program, {}, imports ++ [c'], p⟩, rounds)) ∧
      HasClass (fun d => ∃ m, table.method? m.name = some m ∧ (s m).Holds m (P m) d) imports c' := by
    cases hoptimize : config.optimize with
    | false => exact ⟨c, fun _ => rfl, by simp, hholds⟩
    | true =>
      obtain ⟨c', rounds, hrounds, hI⟩ := exists_foldRounds (p := p) (fun c hc => hc.exists_foldRound
        (fun d hkind ⟨m, hm, hd⟩ => by
          have hm' := hs m hm
          obtain ⟨cs, hcs, hkeeps⟩ := hd.exists_propagateMethod (hm'.table_eq ▸ hregular) (hm'.known hoptimize)
          exact ⟨_, hcs, hkind, m, hm, hd.withParts hm'.stable hkeeps⟩)
        (fun d hkind ⟨m, hm, hd⟩ => by
          obtain ⟨cs, hcs, hkeeps⟩ := hd.exists_fold
          exact ⟨_, hcs, hkind, m, hm, hd.withParts (hs m hm).stable hkeeps⟩)) hholds 0 _
      exact ⟨c', by simp, fun _ => ⟨rounds, hrounds⟩, hI⟩
  obtain ⟨ds, hds, hrecasts⟩ := hclass'.exists_normalizeVarargs (p := p) table (R := fun _ d' => d'.kind = .methodDecl ∧
      ∃ m, table.method? m.name = some m ∧ (s m).Holds m (fun n => P m n ∧ (s m).IsNormal n) d')
    fun d hkind ⟨m, hm, hd⟩ => by
      have hm' := hs m hm
      obtain ⟨cs, hcs, hkeeps⟩ := hd.exists_normalizeVarargs hm'.rests
      rw [hm'.table_eq] at hcs
      exact ⟨_, hcs, hkind, m, hm, hd.withChildren hm'.stable hkeeps⟩
  exact ⟨imports, p, _, exists_prepare (fun h => by rw [hoff h]) hon hds, hclass'.withMembers hrecasts fun _ _ hd => hd⟩

end Accepted
end Node
end JmmCompiler

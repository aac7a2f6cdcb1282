import JmmCompiler.Proofs.StagedTyping
/-! Statements on the way to lowering. Propagation, folding and normal calls succeed on statements that fit, and make
statements of them that fit as well. -/
namespace JmmCompiler

namespace Context
variable {s : Context} {value value' c c' : Node} {target : Ty} {name : String}

/-- What stands for a value may be assigned where the value may. -/
theorem Assigns.becomes (h : s.Assigns target value) (hvalue : s.Becomes value value') : s.Assigns target value' := by
  cases h with
  | whole htyped hfit => exact .whole (hvalue.typed htyped) hfit
  | @elementwise type htyped hkind harray types helements hfit =>
    obtain ⟨hkind', hall⟩ := hvalue.elements hkind
    obtain ⟨helements', hmap⟩ := Typed.exists_types helements hall
    refine .elementwise (hvalue.typed htyped) hkind' harray helements' ?_
    have hmem : ∀ t ∈ value'.children.map s.typeIn, Ty.assignable target.base t = true :=
      hmap ▸ List.forall_mem_map.2 hfit
    exact List.forall_mem_map.1 hmem

theorem Assigns.exists_typed (h : s.Assigns target value) : ∃ type, Typed s value type := by
  cases h with
  | whole htyped hfit => exact ⟨_, htyped⟩
  | elementwise htyped hkind harray helements hfit => exact ⟨_, htyped⟩

/-- The type of a constant that is assigned is that of the variable, unless that is not known. -/
theorem Assigns.type_of_constant {constant : Constant} {p : Position} (hregular : s.table.Regular)
    (h : s.Assigns target (constant.node p)) (hany : target ≠ .any) : target = constant.type := by
  cases h with
  | @whole type htyped hfit =>
    obtain rfl := Except.ok.inj ((Typed.constant s constant p).typeOf.symm.trans htyped.typeOf)
    simp only [SymbolTable.compatible, Ty.assignable, Bool.or_eq_true, Bool.and_eq_true, decide_eq_true_eq] at hfit
    rcases hfit with ((hfit | hfit) | hfit) | ⟨⟨-, hname⟩, -⟩
    · exact absurd hfit hany
    · cases constant <;> simp [Constant.type, Ty.int, Ty.boolean, Ty.any] at hfit
    · exact hfit
    · have hreference := hregular.classType
      rw [show s.table.classType = constant.type by
        rw [SymbolTable.classType, ← hname]; cases constant <;> rfl] at hreference
      cases constant <;> cases hreference
  | elementwise htyped hkind harray helements hfit =>
    cases constant <;> cases hkind

/-- The types of all variables are known. -/
def VariablesKnown (s : Context) : Prop := ∀ name, s.HasVariable name → s.variableType name ≠ .any

end Context

namespace Bindings
variable {s : Context} {b b' : Bindings} {name : String} {value : Node}

theorem suit_empty (s : Context) : Suit s {} := by simp [Suit]

theorem Suit.erase (h : b.Suit s) (name : String) : Suit s (b.erase name) := fun e he =>
  h e (List.mem_of_mem_filter he)

theorem Suit.eraseAll (h : b.Suit s) (names : List String) : Suit s (b.eraseAll names) := by
  induction names generalizing b with
  | nil => exact h
  | cons name names ih => exact ih (h.erase name)

theorem Suit.merge (h : b.Suit s) (b' : Bindings) : Suit s (b.merge b') := fun e he => h e (List.mem_of_mem_filter he)

/-- An assignment to a variable of a known type. -/
theorem Suit.exists_assign (h : b.Suit s) (hregular : s.table.Regular)
    (hname : (s.table.binding? (some s.method) name).isSome)
    (hany : s.variableType name ≠ .any) (hvalue : s.Assigns (s.variableType name) value) :
    ∃ b', b.assign name value = .ok b' ∧ Suit s b' := by
  obtain ⟨type, htyped⟩ := hvalue.exists_typed
  obtain ⟨c?, hc?, hc⟩ := htyped.exists_constant
  unfold assign
  rw [hc?, ok_bind]
  cases c? with
  | none => exact ⟨_, rfl, h.erase name⟩
  | some c =>
    obtain ⟨-, p, rfl⟩ := hc c rfl
    refine ⟨_, rfl, fun e he => ?_⟩
    rcases mem_insertEntry he with rfl | he
    · exact ⟨hname, c, p, rfl, hvalue.type_of_constant hregular hany⟩
    · exact h e he

end Bindings

namespace Fits
variable {s : Context} {returnType type : Ty} {n n' c : Node} {b : Bindings}

theorem not_typed (h : Fits s returnType n) : ¬Typed s n type := by
  intro htyped
  cases h <;> cases htyped

theorem kind_ne (h : Fits s returnType n) : n.kind ≠ .methodDecl := by cases h <;> simp

theorem isStatement (h : Fits s returnType n) : n.kind.isStatement = true := by cases h <;> rfl

/-- The children of a statement are statements that fit or typed expressions. -/
theorem of_mem_children (h : Fits s returnType n) (hc : c ∈ n.children) :
    Fits s returnType c ∨ ∃ type, Typed s c type := by
  cases h with
  | block hparts p => exact .inl (hparts c hc)
  | exprStmt he p => exact .inr ⟨_, List.mem_singleton.1 hc ▸ he⟩
  | assign hname hvalue p q =>
    rcases List.mem_cons.1 hc with rfl | hc
    · exact .inr ⟨_, .varRef hname p⟩
    · exact .inr (List.mem_singleton.1 hc ▸ hvalue.exists_typed)
  | arrayAssign hname hindex hvalue htype hint hfit p q =>
    rcases List.mem_cons.1 hc with rfl | hc
    · exact .inr ⟨_, .varRef hname p⟩
    rcases List.mem_cons.1 hc with rfl | hc
    · exact .inr ⟨_, hindex⟩
    · exact .inr ⟨_, List.mem_singleton.1 hc ▸ hvalue⟩
  | returnNothing hvoid p => cases hc
  | returnValue hvalue hvoid hfit p => exact .inr ⟨_, List.mem_singleton.1 hc ▸ hvalue⟩
  | ifThen hcondition hboolean ht p =>
    rcases List.mem_cons.1 hc with rfl | hc
    · exact .inr ⟨_, hcondition⟩
    · exact .inl (List.mem_singleton.1 hc ▸ ht)
  | ifElse hcondition hboolean ht he p =>
    rcases List.mem_cons.1 hc with rfl | hc
    · exact .inr ⟨_, hcondition⟩
    rcases List.mem_cons.1 hc with rfl | hc
    · exact .inl ht
    · exact .inl (List.mem_singleton.1 hc ▸ he)
  | whileLoop hcondition hboolean hb p =>
    rcases List.mem_cons.1 hc with rfl | hc
    · exact .inr ⟨_, hcondition⟩
    · exact .inl (List.mem_singleton.1 hc ▸ hb)

/-- What stages make of a part of a statement: a statement that fits stays one. -/
structure Part (s : Context) (returnType : Ty) (c c' : Node) : Prop extends s.Becomes c c' where
  fits : Fits s returnType c → Fits s returnType c'

theorem Part.of_typed {c c' : Node} (hc : Typed s c type) (h : s.Becomes c c') : Part s returnType c c' :=
  ⟨h, fun hfits => absurd hc hfits.not_typed⟩

/-- A statement whose parts become others, but for the variable that it assigns to. -/
theorem children {kind : Kind} {attributes : Assoc Attribute} {cs cs' : List Node} {p : Position}
    (h : Fits s returnType ⟨kind, attributes, cs, p⟩) (hcs : List.Forall₂ (Part s returnType) cs cs')
    (htarget : kind = .assign ∨ kind = .arrayAssign → cs'.head? = cs.head?) :
    Fits s returnType ⟨kind, attributes, cs', p⟩ := by
  cases h with
  | block hparts p =>
    refine .block (fun n hn => ?_) _
    obtain ⟨c, hc, hpart⟩ := exists_of_mem_forall₂ hcs hn
    exact hpart.fits (hparts c hc)
  | exprStmt he p =>
    rcases hcs with _ | ⟨h₁, _ | _⟩
    exact .exprStmt (h₁.typed he) _
  | assign hname hvalue p q =>
    rcases hcs with _ | ⟨h₁, _ | ⟨h₂, _ | _⟩⟩
    obtain rfl := Option.some.inj (htarget (.inl rfl))
    exact .assign hname (hvalue.becomes h₂.toBecomes) _ _
  | arrayAssign hname hindex hvalue htype hint hfit p q =>
    rcases hcs with _ | ⟨h₁, _ | ⟨h₂, _ | ⟨h₃, _ | _⟩⟩⟩
    obtain rfl := Option.some.inj (htarget (.inr rfl))
    exact .arrayAssign hname (h₂.typed hindex) (h₃.typed hvalue) htype hint hfit _ _
  | returnNothing hvoid p =>
    cases hcs
    exact .returnNothing hvoid _
  | returnValue hvalue hvoid hfit p =>
    rcases hcs with _ | ⟨h₁, _ | _⟩
    exact .returnValue (h₁.typed hvalue) hvoid hfit _
  | ifThen hcondition hboolean ht p =>
    rcases hcs with _ | ⟨h₁, _ | ⟨h₂, _ | _⟩⟩
    exact .ifThen (h₁.typed hcondition) hboolean (h₂.fits ht) _
  | ifElse hcondition hboolean ht he p =>
    rcases hcs with _ | ⟨h₁, _ | ⟨h₂, _ | ⟨h₃, _ | _⟩⟩⟩
    exact .ifElse (h₁.typed hcondition) hboolean (h₂.fits ht) (h₃.fits he) _
  | whileLoop hcondition hboolean hb p =>
    rcases hcs with _ | ⟨h₁, _ | ⟨h₂, _ | _⟩⟩
    exact .whileLoop (h₁.typed hcondition) hboolean (h₂.fits hb) _

theorem part_children {kind : Kind} {attributes : Assoc Attribute} {cs cs' : List Node} {p : Position}
    (h : Fits s returnType ⟨kind, attributes, cs, p⟩) (hcs : List.Forall₂ (Part s returnType) cs cs')
    (htarget : kind = .assign ∨ kind = .arrayAssign → cs'.head? = cs.head?) :
    Part s returnType ⟨kind, attributes, cs, p⟩ ⟨kind, attributes, cs', p⟩ := by
  have hkind : kind.isStatement = true := h.isStatement
  have hvar : kind ≠ .varRef := by
    rintro rfl
    cases hkind
  exact ⟨.children hvar (.inl hkind) (hcs.imp fun _ _ hc => hc.toBecomes), fun _ => h.children hcs htarget⟩

/-- The variable that a statement assigns to is its first child. -/
theorem exists_target {kind : Kind} {attributes : Assoc Attribute} {cs : List Node} {p : Position}
    (h : Fits s returnType ⟨kind, attributes, cs, p⟩) (hkind : kind = .assign ∨ kind = .arrayAssign) :
    ∃ name q rest, cs = ⟨.varRef, ⟨[("name", .text name)]⟩, [], q⟩ :: rest := by
  cases h with
  | assign hname hvalue p q => exact ⟨_, _, _, rfl⟩
  | arrayAssign hname hindex hvalue htype hint hfit p q => exact ⟨_, _, _, rfl⟩
  | _ => rcases hkind with hkind | hkind <;> cases hkind

/-- A stage that makes something of every typed expression and leaves the names of variables as they are makes
statements that fit of those that fit. -/
theorem exists_stage {f : Node → Except Failure Node} {Q : Node → Prop}
    (htyped : ∀ c type, Typed s c type → ∃ c', f c = .ok c' ∧ s.Becomes c c' ∧ Q c')
    (hname : ∀ name p, f ⟨.varRef, ⟨[("name", .text name)]⟩, [], p⟩ = .ok ⟨.varRef, ⟨[("name", .text name)]⟩, [], p⟩)
    (hnode : ∀ kind attributes cs cs' p, Fits s returnType ⟨kind, attributes, cs, p⟩ → cs.mapM f = .ok cs' →
      f ⟨kind, attributes, cs, p⟩ = .ok ⟨kind, attributes, cs', p⟩)
    (hQ : ∀ n, Fits s returnType n → (∀ c ∈ n.children, Q c) → Q n) (h : Fits s returnType n) :
    ∃ n', f n = .ok n' ∧ Part s returnType n n' ∧ Q n' := by
  induction n using Node.induction_children with
  | step n ih =>
    obtain ⟨cs', hcs', hall⟩ := exists_forall₂ (f := f) (R := fun c c' => Part s returnType c c' ∧ Q c') fun c hc => by
      rcases h.of_mem_children hc with hfits | ⟨t, ht⟩
      · exact ih c hc hfits
      · exact (htyped c t ht).imp fun c' hc' => ⟨hc'.1, .of_typed ht hc'.2.1, hc'.2.2⟩
    obtain ⟨kind, attributes, children, p⟩ := n
    have hpart : Part s returnType ⟨kind, attributes, children, p⟩ ⟨kind, attributes, cs', p⟩ := by
      refine h.part_children (hall.imp fun _ _ hc => hc.1) fun hkind => ?_
      obtain ⟨name, q, rest, rfl⟩ := h.exists_target hkind
      simp only [List.mapM_cons, hname, ok_bind, bind_eq_ok, pure_eq_ok] at hcs'
      obtain ⟨rest', -, rfl⟩ := hcs'
      rfl
    refine ⟨_, hnode _ _ _ _ _ h hcs', hpart, hQ _ (hpart.fits h) fun c hc => ?_⟩
    obtain ⟨c₀, -, hc₀⟩ := exists_of_mem_forall₂ hall hc
    exact hc₀.2

theorem exists_fold (h : Fits s returnType n) : ∃ n', n.fold = .ok n' ∧ Part s returnType n n' := by
  obtain ⟨n', hn', hpart, -⟩ := h.exists_stage (f := Node.fold) (Q := fun _ => True)
    (fun _ _ hc => hc.exists_fold.imp fun _ hc' => ⟨hc'.1, hc'.2, trivial⟩) (fun _ _ => rfl)
    (fun kind attributes cs cs' p h hcs => by
      rw [Node.fold, Node.foldAll_eq_mapM, hcs, ok_bind]
      cases h <;> rfl) (fun _ _ _ => trivial)
  exact ⟨n', hn', hpart⟩

theorem exists_normalizeVarargs (hrests : s.RestKnown) (h : Fits s returnType n) :
    ∃ n', s.table.normalizeVarargs (some s.method) n = .ok n' ∧ Part s returnType n n' ∧ n'.Everywhere s.IsNormal := by
  refine h.exists_stage (fun _ _ hc => hc.exists_normalizeVarargs hrests) (fun _ _ => rfl)
    (fun kind attributes cs cs' p h hcs => ?_) fun n h hn => ?_
  · have hdecl : kind ≠ .methodDecl := h.kind_ne
    have hcall : kind ≠ .call := by
      rintro rfl
      cases h
    rw [SymbolTable.normalizeVarargs, if_neg hdecl]
    simp only [Node.normalizeAllVarargs_eq_mapM, hcs, pure_bind, ok_bind, if_neg hcall]
    rfl
  · refine .intro (Typed.isNormal_of_kind ?_) fun c hc _ => hn c hc
    cases h <;> simp

/-! ## Propagation -/

/-- The parts of a statement without statements, with the variables that are bound replaced. -/
theorem exists_substitute {kind : Kind} {attributes : Assoc Attribute} {cs : List Node} {p : Position}
    (hb : b.Suit s) (h : Fits s returnType ⟨kind, attributes, cs, p⟩) (htyped : ∀ c ∈ cs, ∃ type, Typed s c type)
    (htarget : kind = .assign ∨ kind = .arrayAssign → ∀ c ∈ cs.head?, c.substitute b = .ok c) :
    ∃ n', Node.substitute b ⟨kind, attributes, cs, p⟩ = .ok n' ∧ Part s returnType ⟨kind, attributes, cs, p⟩ n' := by
  obtain ⟨cs', hcs', hall⟩ := exists_forall₂ (f := (·.substitute b)) (R := Part s returnType) fun c hc => by
    obtain ⟨type, ht⟩ := htyped c hc
    exact (ht.exists_substitute hb).imp fun c' hc' => ⟨hc'.1, .of_typed ht hc'.2⟩
  have hkind : kind ≠ .varRef := by
    rintro rfl
    cases h
  refine ⟨⟨kind, attributes, cs', p⟩, ?_, h.part_children hall fun hkind => ?_⟩
  · simp only [Node.substitute, hkind, if_false, Node.substituteAll_eq_mapM, hcs', ok_bind]
    rfl
  · obtain ⟨name, q, rest, rfl⟩ := h.exists_target hkind
    simp only [List.mapM_cons, htarget hkind _ rfl, ok_bind, bind_eq_ok, pure_eq_ok] at hcs'
    obtain ⟨rest', -, rfl⟩ := hcs'
    rfl

/-- An array variable holds no constant. -/
theorem substitute_array {name : String} {p : Position} (hb : b.Suit s) (hknown : s.VariablesKnown)
    (htype : s.variableType name = .any ∨ (s.variableType name).isArray = true) :
    Node.substitute b ⟨.varRef, ⟨[("name", .text name)]⟩, [], p⟩ = .ok ⟨.varRef, ⟨[("name", .text name)]⟩, [], p⟩ := by
  have hown : Node.name ⟨.varRef, ⟨[("name", .text name)]⟩, [], p⟩ = .ok name := rfl
  have hnone : b.find? name = none := by
    by_contra hsome
    obtain ⟨n, hn⟩ := Option.ne_none_iff_exists'.1 hsome
    obtain ⟨hvariable, c, q, -, hconstant⟩ := hb.of_find hn
    rcases htype with htype | htype
    · exact hknown name (.inl hvariable) htype
    · rw [hconstant] at htype
      cases c <;> cases htype
  simp only [Node.substitute, if_true, hown, ok_bind, hnone]
  rfl

/-- An assignment names what it assigns to. -/
def NamesTarget (n : Node) : Prop :=
  (n.kind = .assign → ∃ name, n.assignedName? = .ok name) ∧ ∀ c ∈ n.children, c.kind ≠ .methodDecl

theorem everywhere_namesTarget_typed {e : Node} (h : Typed s e type) : e.Everywhere NamesTarget := by
  induction e using Node.induction_children generalizing type with
  | step e ih =>
    have hkind : e.kind ≠ .assign := by cases h <;> simp
    refine .intro ⟨fun heq => absurd heq hkind, fun c hc => ?_⟩ fun c hc _ => ?_
    · rcases h.of_mem_children hc with ⟨t, ht⟩ | ⟨name, p, rfl, -⟩
      · exact ht.kind_ne
      · simp
    · rcases h.of_mem_children hc with ⟨t, ht⟩ | ⟨name, p, rfl, -⟩
      · exact ih c hc ht
      · exact .intro ⟨by simp, by simp⟩ (by simp)

theorem everywhere_namesTarget (h : Fits s returnType n) : n.Everywhere NamesTarget := by
  induction n using Node.induction_children with
  | step n ih =>
    refine .intro ⟨fun hkind => ?_, fun c hc => ?_⟩ fun c hc _ => ?_
    · cases h with
      | assign hname hvalue p q => exact ⟨_, rfl⟩
      | _ => cases hkind
    · rcases h.of_mem_children hc with hc | ⟨t, ht⟩
      · exact hc.kind_ne
      · exact ht.kind_ne
    · rcases h.of_mem_children hc with hfits | ⟨t, ht⟩
      · exact ih c hc hfits
      · exact everywhere_namesTarget_typed ht

theorem namesTarget_of_mem_visit {pending : List (Path × Node)} (h : ∀ v ∈ pending, v.2.Everywhere NamesTarget)
    {v : Path × Node} (hv : v ∈ Node.visit pending) : NamesTarget v.2 := by
  have hvisited := Node.forall_mem_visit (Q := fun _ n => n.Everywhere NamesTarget) (fun _ n _ c hn hc => by
    have hmem := List.mem_of_getElem? hc
    exact hn.child hmem (hn.here.2 _ hmem)) h
  exact (hvisited v hv).here

theorem exists_assignedNames (h : Fits s returnType n) : ∃ names, n.assignedNames = .ok names := by
  have hnames := h.everywhere_namesTarget
  obtain ⟨below, hbelow⟩ : ∃ below, (n.descendants [.assign]).mapM (fun v => v.2.assignedName?) = .ok below := by
    refine exists_mapM_eq_ok fun v hv => ?_
    obtain ⟨hvisit, hkind⟩ := List.mem_filter.1 hv
    refine (namesTarget_of_mem_visit (fun w hw => ?_) hvisit).1 (by simpa using hkind)
    obtain ⟨c, hc, rfl⟩ := List.mem_map.1 hw
    have hmem : c.1 ∈ n.children := (List.mem_zipIdx hc).2.2 ▸ List.getElem_mem _
    exact hnames.child hmem (hnames.here.2 _ hmem)
  unfold Node.assignedNames
  rw [hbelow, ok_bind]
  by_cases hkind : n.kind = .assign
  · obtain ⟨own, hown⟩ := hnames.here.1 hkind
    exact ⟨_, by simp only [hkind, if_true, hown, ok_bind]; rfl⟩
  · exact ⟨_, by simp only [hkind, if_false]; rfl⟩

theorem exists_propagateSequence {scope : List String} {ns : List Node} {R : Node → Node → Prop}
    (h : ∀ n ∈ ns, ∀ b : Bindings, b.Suit s →
      ∃ n' b', Node.propagateStatement scope b n = .ok (n', b') ∧ R n n' ∧ Bindings.Suit s b') (hb : b.Suit s) :
    ∃ ns' b', Node.propagateSequence scope b ns = .ok (ns', b') ∧ List.Forall₂ R ns ns' ∧ Bindings.Suit s b' := by
  induction ns generalizing b with
  | nil => exact ⟨[], b, rfl, .nil, hb⟩
  | cons n ns ih =>
    obtain ⟨n', b₁, hn', hpart, hb₁⟩ := h n (by simp) b hb
    obtain ⟨ns', b₂, hns', hparts, hb₂⟩ := ih (fun n hn => h n (by simp [hn])) hb₁
    exact ⟨n' :: ns', b₂, by simp only [Node.propagateSequence, hn', hns', ok_bind]; rfl, .cons hpart hparts, hb₂⟩

/-- Propagation makes a statement that fits of one, where the variables have known types. -/
theorem exists_propagateStatement {scope : List String} (hregular : s.table.Regular) (hknown : s.VariablesKnown)
    (hscope : ∀ name ∈ scope, (s.table.binding? (some s.method) name).isSome) (h : Fits s returnType n)
    (hb : b.Suit s) :
    ∃ n' b', Node.propagateStatement scope b n = .ok (n', b') ∧ Part s returnType n n' ∧ Bindings.Suit s b' := by
  induction h generalizing b with
  | @block parts hparts p ih =>
    obtain ⟨ns', b', hns', hall, hb'⟩ := exists_propagateSequence (fun n hn b hb => ih n hn hb) hb
    exact ⟨_, b', by simp only [Node.propagateStatement, hns', ok_bind]; rfl,
      (Fits.block hparts p).part_children hall (by simp), hb'⟩
  | exprStmt he p =>
    obtain ⟨n', hn', hpart⟩ := (show Fits s returnType _ from .exprStmt he p).exists_substitute hb
      (by simpa using ⟨_, he⟩) (by simp)
    exact ⟨n', b, by simp only [Node.propagateStatement, hn', ok_bind]; rfl, hpart, hb⟩
  | @assign name value hname hvalue p q =>
    obtain ⟨type, htyped⟩ := hvalue.exists_typed
    obtain ⟨substituted, hsubstituted, hbecomes⟩ := htyped.exists_substitute hb
    obtain ⟨folded, hfolded, hbecomes'⟩ := (hbecomes.typed htyped).exists_fold
    have hfit := hvalue.becomes (hbecomes.trans hbecomes')
    have hown : Node.name ⟨.varRef, ⟨[("name", .text name)]⟩, [], p⟩ = .ok name := rfl
    have hpart := (show Fits s returnType _ from .assign hname hvalue p q).part_children
      (.cons (.of_typed (.varRef hname p) (.refl _)) (.cons (.of_typed htyped (hbecomes.trans hbecomes')) .nil)) (by simp)
    by_cases hmem : scope.contains name = true
    · have hvariable := hscope name (by simpa using hmem)
      obtain ⟨b', hb', hsuit⟩ := hb.exists_assign hregular hvariable (hknown name (.inl hvariable)) hfit
      refine ⟨_, b', ?_, hpart, hsuit⟩
      simp only [Node.propagateStatement, hsubstituted, hfolded, ok_bind, ne_eq, not_true, if_false, hown, hmem, if_true, hb']
      rfl
    · refine ⟨_, b, ?_, hpart, hb⟩
      simp only [Node.propagateStatement, hsubstituted, hfolded, ok_bind, ne_eq, not_true, if_false, hown, hmem]
      rfl
  | @arrayAssign name index value indexType valueType hname hindex hvalue htype hint hfit p q =>
    obtain ⟨n', hn', hpart⟩ :=
      (show Fits s returnType _ from .arrayAssign hname hindex hvalue htype hint hfit p q).exists_substitute hb
      (by simpa using ⟨⟨_, .varRef hname p⟩, ⟨_, hindex⟩, ⟨_, hvalue⟩⟩) (by simpa using substitute_array hb hknown htype)
    exact ⟨n', b, by simp only [Node.propagateStatement, hn', ok_bind]; rfl, hpart, hb⟩
  | returnNothing hvoid p =>
    obtain ⟨n', hn', hpart⟩ := (Fits.returnNothing (s := s) hvoid p).exists_substitute hb (by simp) (by simp)
    exact ⟨n', b, by simp only [Node.propagateStatement, hn', ok_bind]; rfl, hpart, hb⟩
  | returnValue hvalue hvoid hfit p =>
    obtain ⟨n', hn', hpart⟩ := (Fits.returnValue hvalue hvoid hfit p).exists_substitute hb
      (by simpa using ⟨_, hvalue⟩) (by simp)
    exact ⟨n', b, by simp only [Node.propagateStatement, hn', ok_bind]; rfl, hpart, hb⟩
  | ifThen hc hboolean ht p ih =>
    obtain ⟨c', hc', hbecomes⟩ := hc.exists_substitute hb
    obtain ⟨t', b', ht', hpart, hb'⟩ := ih hb
    refine ⟨_, b'.merge b, by simp only [Node.propagateStatement, Node.propagateBranches, hc', ht', ok_bind]; rfl,
      (Fits.ifThen hc hboolean ht p).part_children (.cons (.of_typed hc hbecomes) (.cons hpart .nil)) (by simp), hb'.merge b⟩
  | ifElse hc hboolean ht he p iht ihe =>
    obtain ⟨c', hc', hbecomes⟩ := hc.exists_substitute hb
    obtain ⟨t', b₁, ht', hthen, hb₁⟩ := iht hb
    obtain ⟨e', b₂, he', helse, hb₂⟩ := ihe hb
    refine ⟨_, b₁.merge b₂, by simp only [Node.propagateStatement, Node.propagateBranches, hc', ht', he', ok_bind]; rfl,
      (Fits.ifElse hc hboolean ht he p).part_children
        (.cons (.of_typed hc hbecomes) (.cons hthen (.cons helse .nil))) (by simp), hb₁.merge b₂⟩
  | @whileLoop c body type hc hboolean hbody p ih =>
    obtain ⟨names, hnames⟩ := (Fits.whileLoop hc hboolean hbody p).exists_assignedNames
    have hb' := hb.eraseAll names
    obtain ⟨c', hc', hbecomes⟩ := hc.exists_substitute hb'
    obtain ⟨body', b', hbody', hpart, -⟩ := ih hb'
    refine ⟨_, b.eraseAll names, by simp only [Node.propagateStatement, hnames, hc', hbody', ok_bind]; rfl,
      (Fits.whileLoop hc hboolean hbody p).part_children (.cons (.of_typed hc hbecomes) (.cons hpart .nil)) (by simp), hb'⟩

end Fits
end JmmCompiler

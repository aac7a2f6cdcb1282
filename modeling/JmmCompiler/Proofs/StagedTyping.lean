import JmmCompiler.Proofs.Gathering
import JmmCompiler.Proofs.Rewriting
import JmmCompiler.Proofs.Slots
import JmmCompiler.Proofs.Strict
/-! Typing on the way to lowering. Folding, propagation and normal calls succeed on typed expressions and on statements
that fit, and what they make of them has the same types, if no variable has the unknown type. -/
namespace JmmCompiler

def Constant.type : Constant → Ty
  | int _ => .int
  | bool _ => .boolean

/-- Of the arguments of a call of an unknown method it only counts whether there are any. -/
theorem Ty.foreign_congr (name : String) {args args' : List Node} (h : args' = [] ↔ args = []) :
    Ty.foreign name args' = Ty.foreign name args := by
  simp only [Ty.foreign, h]

/-- The type of an expression, if it has one. -/
def Context.typeIn (s : Context) (e : Node) : Ty := (s.typeOf e).toOption.getD .any

theorem Typed.typeIn {s : Context} {e : Node} {type : Ty} (h : Typed s e type) : s.typeIn e = type := by
  simp [Context.typeIn, h.typeOf, Except.toOption]

/-- The kind of an expression without the parentheses around it. -/
def Node.coreKind : Node → Kind
  | ⟨kind, _, children, _⟩ =>
    match kind, children with
    | .paren, inner :: _ => inner.coreKind
    | kind, _ => kind

theorem Node.coreKind_eq {n : Node} (h : n.kind ≠ .paren) : n.coreKind = n.kind := by
  obtain ⟨kind, attributes, children, p⟩ := n
  cases kind <;> first | rfl | exact absurd rfl h

/-- The method that the children of a node belong to. -/
def Node.methodBelow (method : Option String) (n : Node) : Option String :=
  if n.kind = .methodDecl then n.name.toOption else method

/-- A rewritten tree whose expressions keep their types: nodes with rewritten children keep theirs, an expression
becomes a constant of its type, and a call keeps its type when its last arguments are gathered in an array. -/
inductive SymbolTable.Retypes (t : SymbolTable) : Option String → Node → Node → Prop
  | refl {method : Option String} (n : Node) : Retypes t method n n
  | trans {method : Option String} {n n' n'' : Node} (h : Retypes t method n n') (h' : Retypes t method n' n'') :
      Retypes t method n n''
  | children {method : Option String} {kind : Kind} {attributes : Assoc Attribute} {cs cs' : List Node} {p : Position}
      (htype : t.typeOf method ⟨kind, attributes, cs', p⟩ = t.typeOf method ⟨kind, attributes, cs, p⟩)
      (hlength : cs.length = cs'.length)
      (hcs : ∀ pair ∈ cs.zip cs', Retypes t (Node.methodBelow method ⟨kind, attributes, cs, p⟩) pair.1 pair.2) :
      Retypes t method ⟨kind, attributes, cs, p⟩ ⟨kind, attributes, cs', p⟩
  | constant {method : Option String} {n : Node} {c : Constant} {p : Position} (hkind : Node.Evaluates n.kind)
      (htype : t.typeOf method (c.node p) = t.typeOf method n) : Retypes t method n (c.node p)
  | gathered {method : Option String} {attributes : Assoc Attribute} {receiver : Node} {before after : List Node}
      {name : String} {m : MethodInfo} {last : Symbol} {p q : Position}
      (hname : Node.name ⟨.call, attributes, receiver :: (before ++ after), p⟩ = .ok name)
      (hm : t.method? name = some m) (hown : t.isOwnReceiver method receiver = .ok true) (hrest : m.rest? = some last)
      (htype : t.typeOf method ⟨.call, attributes,
          receiver :: (before ++ [⟨.arrayLiteral, ⟨[("element_type", .text last.type.name)]⟩, after, q⟩]), p⟩ =
        t.typeOf method ⟨.call, attributes, receiver :: (before ++ after), p⟩) :
      Retypes t method ⟨.call, attributes, receiver :: (before ++ after), p⟩ ⟨.call, attributes,
        receiver :: (before ++ [⟨.arrayLiteral, ⟨[("element_type", .text last.type.name)]⟩, after, q⟩]), p⟩

namespace SymbolTable.Retypes
variable {t : SymbolTable} {method : Option String} {n n' : Node} {cs cs' : List Node} {kind : Kind}
  {attributes : Assoc Attribute} {p : Position}

theorem of_forall₂ (htype : t.typeOf method ⟨kind, attributes, cs', p⟩ = t.typeOf method ⟨kind, attributes, cs, p⟩)
    (hcs : List.Forall₂ (t.Retypes (Node.methodBelow method ⟨kind, attributes, cs, p⟩)) cs cs') :
    t.Retypes method ⟨kind, attributes, cs, p⟩ ⟨kind, attributes, cs', p⟩ :=
  .children htype hcs.length_eq fun _ hpair => (List.forall₂_iff_zip.1 hcs).2 hpair

/-- The type of a tree is kept with those of its parts. -/
theorem typeOf_eq (h : t.Retypes method n n') : t.typeOf method n' = t.typeOf method n := by
  induction h with
  | refl n => rfl
  | trans h h' ih ih' => exact ih'.trans ih
  | children htype hlength hcs ih => exact htype
  | constant hkind htype => exact htype
  | gathered hname hm hown hrest htype => exact htype

theorem rewrites (h : t.Retypes method n n') : Node.Rewrites True t method n n' := by
  induction h with
  | refl n => exact .refl n
  | trans h h' ih ih' => exact ih.trans ih'
  | @children method kind attributes cs cs' p htype hlength hcs ih =>
    by_cases hkind : kind = .methodDecl
    · exact .nested hkind hkind
    · have hbelow : Node.methodBelow method ⟨kind, attributes, cs, p⟩ = method := if_neg hkind
      rw [hbelow] at ih
      exact .children (List.forall₂_iff_zip.2 ⟨hlength, fun hpair => ih _ hpair⟩) _ _ _
  | constant hkind htype => exact .constant trivial hkind _ _
  | gathered hname hm hown hrest htype =>
    refine .gathered hname hm hown _ fun c hc => ?_
    rcases List.mem_append.1 hc with hc | hc
    · exact .inl (List.mem_append_left _ hc)
    · obtain rfl := List.mem_singleton.1 hc
      exact .inr ⟨rfl, fun e he => List.mem_append_right _ he⟩

end SymbolTable.Retypes

/-- A variable reference that is neither a parameter nor a local variable. -/
def Context.IsUnbound (s : Context) (e : Node) : Prop :=
  ∃ name, e.kind = .varRef ∧ e.name = .ok name ∧ s.table.binding? (some s.method) name = none

theorem Context.IsImportName.isUnbound {s : Context} {name : String} (h : s.IsImportName name) (p : Position) :
    s.IsUnbound ⟨.varRef, ⟨[("name", .text name)]⟩, [], p⟩ := ⟨name, rfl, rfl, h.1⟩

/-- An expression that may stand where another one stood. It has the types of the other one, a reference stays unless
its value is known, and so does an array literal but for its elements. What is not known stays of its kind. -/
structure Context.Replaces (s : Context) (c c' : Node) : Prop where
  typed : ∀ {type}, Typed s c type → Typed s c' type
  core : Typed s c .any → c'.coreKind = c.coreKind
  literal : c'.kind = .arrayLiteral → c.kind = .arrayLiteral
  unbound : s.IsUnbound c → c' = c
  retypes : s.table.Retypes (some s.method) c c'
  elements : c.kind = .arrayLiteral → c'.kind = .arrayLiteral ∧
    List.Forall₂ (fun e e' => ∀ type, Typed s e type → Typed s e' type) c.children c'.children

namespace Typed
variable {s : Context} {e : Node} {type : Ty} {cs cs' : List Node}

theorem forall₂_typed (h : List.Forall₂ s.Replaces cs cs') :
    List.Forall₂ (fun e e' => ∀ type, Typed s e type → Typed s e' type) cs cs' := h.imp fun _ _ hc _ => hc.typed

/-- What replaces typed expressions has their types. -/
theorem exists_types {types : Node → Ty} (hargs : ∀ e ∈ cs, Typed s e (types e))
    (h : List.Forall₂ (fun e e' => ∀ type, Typed s e type → Typed s e' type) cs cs') :
    (∀ e ∈ cs', Typed s e (s.typeIn e)) ∧ cs'.map s.typeIn = cs.map types := by
  induction h with
  | nil => simp
  | @cons c c' cs cs' hc _ ih =>
    have hc' := hc (types c) (hargs c (by simp))
    obtain ⟨htyped, hmap⟩ := ih fun e he => hargs e (by simp [he])
    refine ⟨?_, by rw [List.map_cons, List.map_cons, hmap, hc'.typeIn]⟩
    rw [List.forall_mem_cons]
    exact ⟨hc'.typeIn.symm ▸ hc', htyped⟩

/-- A node whose children are replaced. -/
theorem children {kind : Kind} {attributes : Assoc Attribute} {p : Position}
    (h : Typed s ⟨kind, attributes, cs, p⟩ type) (hcs : List.Forall₂ s.Replaces cs cs') :
    Typed s ⟨kind, attributes, cs', p⟩ type := by
  have hall {P : Ty → Prop} {types : Node → Ty} {es es' : List Node} (hmap : es'.map s.typeIn = es.map types)
      (h : ∀ e ∈ es, P (types e)) : ∀ e ∈ es', P (s.typeIn e) := by
    have hmem : ∀ t ∈ es'.map s.typeIn, P t := hmap ▸ List.forall_mem_map.2 h
    exact List.forall_mem_map.1 hmem
  cases h with
  | intLiteral i p => cases hcs; exact .intLiteral i _
  | boolLiteral b p => cases hcs; exact .boolLiteral b _
  | varRef h p => cases hcs; exact .varRef h _
  | thisRef h p => cases hcs; exact .thisRef h _
  | paren hinner p =>
    rcases hcs with _ | ⟨h₁, _ | _⟩
    exact .paren (h₁.typed hinner) _
  | newObject name hknown p => cases hcs; exact .newObject name hknown _
  | newArray name hsize hint hknown p =>
    rcases hcs with _ | ⟨h₁, _ | _⟩
    exact .newArray name (h₁.typed hsize) hint hknown _
  | emptyLiteral p => cases hcs; exact .emptyLiteral _
  | @arrayLiteral first rest types helements hfit hadmits p =>
    obtain ⟨htyped, hmap⟩ := exists_types helements (forall₂_typed hcs)
    obtain ⟨first', rest', rfl⟩ : ∃ first' rest', cs' = first' :: rest' := by
      cases hcs with
      | cons h₁ hrest => exact ⟨_, _, rfl⟩
    have hfirst : s.typeIn first' = types first := (List.cons.inj hmap).1
    have hresult := Typed.arrayLiteral htyped
      (hall (P := fun t => Ty.assignable (s.typeIn first').base t = true) hmap (hfirst.symm ▸ hfit))
      (hall (P := s.Admits) hmap hadmits) p
    rwa [hfirst] at hresult
  | @gatheredLiteral name elements types helements hfit hadmits hknown p =>
    obtain ⟨htyped, hmap⟩ := exists_types helements (forall₂_typed hcs)
    exact .gatheredLiteral name htyped (hall (P := fun t => Ty.assignable ⟨name, false⟩ t = true) hmap hfit)
      (hall (P := s.Admits) hmap hadmits) hknown _
  | arrayAccess harray hindex htype hint hknown p =>
    rcases hcs with _ | ⟨h₁, _ | ⟨h₂, _ | _⟩⟩
    exact .arrayAccess (h₁.typed harray) (h₂.typed hindex) htype hint hknown _
  | length harray htype p =>
    rcases hcs with _ | ⟨h₁, _ | _⟩
    exact .length (h₁.typed harray) htype _
  | unary hoperand hboolean p =>
    rcases hcs with _ | ⟨h₁, _ | _⟩
    exact .unary (h₁.typed hoperand) hboolean _
  | binary hop hleft hright halike hwanted hadmits p =>
    rcases hcs with _ | ⟨h₁, _ | ⟨h₂, _ | _⟩⟩
    exact .binary hop (h₁.typed hleft) (h₂.typed hright) halike hwanted hadmits _
  | ownCall hm hreceiver hargs haccepts p =>
    rcases hcs with _ | ⟨h₁, hrest⟩
    obtain ⟨htyped, hmap⟩ := exists_types hargs (forall₂_typed hrest)
    exact .ownCall hm (h₁.typed hreceiver) htyped (hmap ▸ haccepts) _
  | lengthCall hreceiver hother harray p =>
    rcases hcs with _ | ⟨h₁, _ | _⟩
    exact .lengthCall (h₁.typed hreceiver) hother harray _
  | @foreignCall name receiver type args types hreceiver hother hlength himports hargs hadmits p =>
    rcases hcs with _ | ⟨h₁, hrest⟩
    rename_i receiver' args'
    obtain ⟨htyped, hmap⟩ := exists_types hargs (forall₂_typed hrest)
    have hempty : args' = [] ↔ args = [] := by
      rw [← List.length_eq_zero_iff, ← hrest.length_eq, List.length_eq_zero_iff]
    rw [← Ty.foreign_congr name hempty]
    exact .foreignCall (h₁.typed hreceiver) hother
      (fun hname hnil => hlength hname (hempty.1 hnil)) himports htyped
      (hall (P := s.Admits) hmap hadmits) _
  | @importCall name imported args types hreceiver hother hargs hadmits p q =>
    rcases hcs with _ | ⟨h₁, hrest⟩
    rename_i receiver' args'
    obtain rfl := h₁.unbound (hreceiver.isUnbound _)
    obtain ⟨htyped, hmap⟩ := exists_types hargs (forall₂_typed hrest)
    have hempty : args' = [] ↔ args = [] := by
      rw [← List.length_eq_zero_iff, ← hrest.length_eq, List.length_eq_zero_iff]
    rw [← Ty.foreign_congr name hempty]
    exact .importCall hreceiver hother htyped (hall (P := s.Admits) hmap hadmits) _ _

theorem of_paren {attributes : Assoc Attribute} {p : Position} (h : Typed s ⟨.paren, attributes, cs, p⟩ type) :
    ∃ inner, cs = [inner] ∧ Typed s inner type := by
  cases h with
  | paren hinner p => exact ⟨_, rfl, hinner⟩

/-- The children of a typed expression are typed, or the name of an import that receives a call. -/
theorem of_mem_children (h : Typed s e type) {c : Node} (hc : c ∈ e.children) :
    (∃ t, Typed s c t) ∨ ∃ name p, c = ⟨.varRef, ⟨[("name", .text name)]⟩, [], p⟩ ∧ s.IsImportName name := by
  cases h with
  | paren hinner p => exact .inl ⟨_, List.mem_singleton.1 hc ▸ hinner⟩
  | newArray name hsize hint hknown p => exact .inl ⟨_, List.mem_singleton.1 hc ▸ hsize⟩
  | arrayLiteral helements hfit hadmits p => exact .inl ⟨_, helements c hc⟩
  | gatheredLiteral name helements hfit hadmits hknown p => exact .inl ⟨_, helements c hc⟩
  | arrayAccess harray hindex htype hint hknown p =>
    rcases List.mem_cons.1 hc with rfl | hc
    · exact .inl ⟨_, harray⟩
    · exact .inl ⟨_, List.mem_singleton.1 hc ▸ hindex⟩
  | length harray htype p => exact .inl ⟨_, List.mem_singleton.1 hc ▸ harray⟩
  | unary hoperand hboolean p => exact .inl ⟨_, List.mem_singleton.1 hc ▸ hoperand⟩
  | binary hop hleft hright halike hwanted hadmits p =>
    rcases List.mem_cons.1 hc with rfl | hc
    · exact .inl ⟨_, hleft⟩
    · exact .inl ⟨_, List.mem_singleton.1 hc ▸ hright⟩
  | ownCall hm hreceiver hargs haccepts p =>
    rcases List.mem_cons.1 hc with rfl | hc
    · exact .inl ⟨_, hreceiver⟩
    · exact .inl ⟨_, hargs c hc⟩
  | lengthCall hreceiver hother harray p => exact .inl ⟨_, List.mem_singleton.1 hc ▸ hreceiver⟩
  | foreignCall hreceiver hother hlength himports hargs hadmits p =>
    rcases List.mem_cons.1 hc with rfl | hc
    · exact .inl ⟨_, hreceiver⟩
    · exact .inl ⟨_, hargs c hc⟩
  | importCall hreceiver hother hargs hadmits p q =>
    rcases List.mem_cons.1 hc with rfl | hc
    · exact .inr ⟨_, _, rfl, hreceiver⟩
    · exact .inl ⟨_, hargs c hc⟩
  | _ => cases hc

/-- A typed expression that is a constant is a literal of the type of the constant. -/
theorem exists_constant (h : Typed s e type) :
    ∃ c?, e.constant? = .ok c? ∧ ∀ c, c? = some c → type = c.type ∧ ∃ p, e = c.node p := by
  cases h with
  | intLiteral i p => exact ⟨some (.int i), rfl, by rintro c ⟨⟩; exact ⟨rfl, p, rfl⟩⟩
  | boolLiteral b p => exact ⟨some (.bool b), rfl, by rintro c ⟨⟩; exact ⟨rfl, p, rfl⟩⟩
  | _ => exact ⟨none, rfl, by simp⟩

theorem constant (s : Context) (c : Constant) (p : Position) : Typed s (c.node p) c.type := by
  cases c with
  | int n => exact .intLiteral n p
  | bool b => exact .boolLiteral b p

end Typed

/-! ## What the stages make of a node -/

namespace Context
variable (s : Context)

/-- A property of nodes that no stage takes away. -/
structure Stable (P : Node → Prop) : Prop where
  constant : ∀ (c : Constant) (p : Position), P (c.node p)
  children : ∀ {kind : Kind} {attributes : Assoc Attribute} {cs cs' : List Node} {p : Position},
    List.Forall₂ s.Replaces cs cs' → P ⟨kind, attributes, cs, p⟩ → P ⟨kind, attributes, cs', p⟩
  call : ∀ {attributes : Assoc Attribute} {receiver : Node} {before after : List Node} {literal : Node} {name : String}
    {m : MethodInfo} {p : Position}, s.typeOf receiver = .ok s.table.classType →
    Node.name ⟨.call, attributes, receiver :: (before ++ after), p⟩ = .ok name → s.table.method? name = some m →
    m.rest?.isSome → before.length + 1 = m.params.length → P ⟨.call, attributes, receiver :: (before ++ after), p⟩ →
    P ⟨.call, attributes, receiver :: (before ++ [literal]), p⟩
  gathered : ∀ {name : String} {m : MethodInfo} {last : Symbol} {args : List Node} {p : Position},
    s.table.method? name = some m → m.rest? = some last →
    P ⟨.arrayLiteral, ⟨[("element_type", .text last.type.name)]⟩, args, p⟩

/-- What stages make of a node may stand in its place, and what no stage takes away is kept. -/
structure Becomes (c c' : Node) : Prop extends s.Replaces c c' where
  kind : c.kind = .methodDecl → c'.kind = .methodDecl
  every : ∀ P, s.Stable P → c.Everywhere P → c'.Everywhere P

end Context

namespace Context.Becomes
variable {s : Context} {c c' c'' : Node} {cs cs' : List Node}

theorem refl (c : Node) : s.Becomes c c where
  typed := id
  core _ := rfl
  literal := id
  unbound _ := rfl
  retypes := .refl c
  elements hkind := ⟨hkind, List.forall₂_same.2 fun _ _ _ => id⟩
  kind := id
  every _ _ := id

theorem trans (h : s.Becomes c c') (h' : s.Becomes c' c'') : s.Becomes c c'' where
  typed hc := h'.typed (h.typed hc)
  core hc := (h'.core (h.typed hc)).trans (h.core hc)
  literal hkind := h.literal (h'.literal hkind)
  unbound href := by
    obtain rfl := h.unbound href
    exact h'.unbound href
  retypes := h.retypes.trans h'.retypes
  elements hkind := by
    obtain ⟨hkind', helements⟩ := h.elements hkind
    obtain ⟨hkind'', helements'⟩ := h'.elements hkind'
    exact ⟨hkind'', forall₂_comp (fun _ _ _ h h' type he => h' type (h type he)) helements helements'⟩
  kind hkind := h'.kind (h.kind hkind)
  every P hP hc := h'.every P hP (h.every P hP hc)

theorem forall₂_replaces (h : List.Forall₂ s.Becomes cs cs') : List.Forall₂ s.Replaces cs cs' :=
  h.imp fun _ _ hc => hc.toReplaces

/-- A node of the same form whose children are replaced. -/
theorem children {kind : Kind} {attributes : Assoc Attribute} {p : Position} (hkind : kind ≠ .varRef)
    (hform : kind.isStatement = true ∨ ∃ type, Typed s ⟨kind, attributes, cs, p⟩ type)
    (hcs : List.Forall₂ s.Becomes cs cs') : s.Becomes ⟨kind, attributes, cs, p⟩ ⟨kind, attributes, cs', p⟩ where
  typed hc := hc.children (forall₂_replaces hcs)
  core hc := by
    by_cases hparen : kind = .paren
    · subst hparen
      obtain ⟨inner, rfl, hinner⟩ := hc.of_paren
      rcases hcs with _ | ⟨h₁, _ | _⟩
      exact h₁.core hinner
    · rw [Node.coreKind_eq hparen, Node.coreKind_eq hparen]
  literal := id
  unbound href := by
    obtain ⟨name, hvar, -⟩ := href
    exact absurd hvar hkind
  retypes := by
    rcases hform with hstatement | ⟨type, htyped⟩
    · refine .of_forall₂ ?_ ?_
      · cases kind <;> first | rfl | cases hstatement
      · rw [Node.methodBelow, if_neg (by rintro h; cases h; cases hstatement)]
        exact hcs.imp fun _ _ hc => hc.retypes
    · refine .of_forall₂ ((htyped.children (forall₂_replaces hcs)).typeOf.trans htyped.typeOf.symm) ?_
      rw [Node.methodBelow, if_neg htyped.kind_ne]
      exact hcs.imp fun _ _ hc => hc.retypes
  elements hliteral := ⟨hliteral, Typed.forall₂_typed (forall₂_replaces hcs)⟩
  kind := id
  every P hP hc := by
    refine .intro (hP.children (forall₂_replaces hcs) hc.here) fun c' hc' hdecl => ?_
    obtain ⟨c, hmem, hbecomes⟩ := exists_of_mem_forall₂ hcs hc'
    exact hbecomes.every P hP (hc.child hmem (mt hbecomes.kind hdecl))

/-- A literal of the type of what it replaces. -/
theorem constant {constant : Constant} {p : Position} (hc : Typed s c constant.type) (hkind : Node.Evaluates c.kind)
    (href : ¬s.IsUnbound c) : s.Becomes c (constant.node p) where
  typed hc' := by
    obtain rfl := Except.ok.inj (hc.typeOf.symm.trans hc'.typeOf)
    exact .constant s constant p
  core hc' := by
    have htype := Except.ok.inj (hc.typeOf.symm.trans hc'.typeOf)
    cases constant <;> simp [Constant.type, Ty.int, Ty.boolean, Ty.any] at htype
  literal hliteral := by cases constant <;> cases hliteral
  unbound h := absurd h href
  retypes := .constant hkind ((Typed.constant s constant p).typeOf.trans hc.typeOf.symm)
  elements h := by rcases hkind with hkind | hkind | hkind | hkind <;> simp [h] at hkind
  kind h := absurd h hc.kind_ne
  every P hP _ := by
    refine .intro (hP.constant constant p) ?_
    cases constant <;> simp [Constant.node]

end Context.Becomes

/-! ## Expressions -/

/-- Variables hold constants of their types. -/
def Bindings.Suit (s : Context) (b : Bindings) : Prop :=
  ∀ e ∈ b.entries, (s.table.binding? (some s.method) e.1).isSome ∧
    ∃ (c : Constant) (p : Position), e.2 = c.node p ∧ s.variableType e.1 = c.type

theorem Bindings.Suit.of_find {s : Context} {b : Bindings} {name : String} {n : Node} (h : b.Suit s)
    (hfind : b.find? name = some n) :
    (s.table.binding? (some s.method) name).isSome ∧
      ∃ (c : Constant) (p : Position), n = c.node p ∧ s.variableType name = c.type :=
  h (name, n) (Assoc.mem_of_findEntry hfind)

theorem Constant.constant?_node (c : Constant) (p : Position) : (c.node p).constant? = .ok (some c) := by
  cases c <;> rfl

namespace Typed
variable {s : Context} {e : Node} {type : Ty} {b : Bindings}

/-- Constants are put in the place of variables of their types. -/
theorem exists_substitute (hb : b.Suit s) (h : Typed s e type) : ∃ e', e.substitute b = .ok e' ∧ s.Becomes e e' := by
  induction e using Node.induction_children generalizing type with
  | step e ih =>
    by_cases hkind : e.kind = .varRef
    · cases h with
      | @varRef name hname p =>
        have hvar : Typed s ⟨.varRef, ⟨[("name", .text name)]⟩, [], p⟩ (s.variableType name) := .varRef hname p
        have hown : Node.name ⟨.varRef, ⟨[("name", .text name)]⟩, [], p⟩ = .ok name := rfl
        simp only [Node.substitute, if_true, hown, ok_bind]
        cases hfind : b.find? name with
        | none => exact ⟨_, rfl, .refl _⟩
        | some n =>
          obtain ⟨hvariable, c, q, rfl, htype⟩ := hb.of_find hfind
          refine ⟨c.node p, by simp [c.constant?_node], .constant (htype ▸ hvar) (.inl rfl) ?_⟩
          rintro ⟨name', -, hname', hunbound⟩
          obtain rfl : name = name' := Except.ok.inj (hown.symm.trans hname')
          simp [hunbound] at hvariable
      | _ => cases hkind
    · obtain ⟨cs', hcs', hall⟩ := exists_forall₂ (f := (·.substitute b)) (R := s.Becomes) fun c hc => by
        rcases h.of_mem_children hc with ⟨t, ht⟩ | ⟨name, p, rfl, himport⟩
        · exact ih c hc ht
        · refine ⟨_, ?_, .refl _⟩
          have hnone : b.find? name = none := by
            by_contra hsome
            obtain ⟨n, hn⟩ := Option.ne_none_iff_exists'.1 hsome
            simpa [himport.1] using (hb.of_find hn).1
          have hown : Node.name ⟨.varRef, ⟨[("name", .text name)]⟩, [], p⟩ = .ok name := rfl
          simp only [Node.substitute, if_true, hown, ok_bind, hnone]
          rfl
      obtain ⟨kind, attributes, children, p⟩ := e
      refine ⟨⟨kind, attributes, cs', p⟩, ?_, .children hkind (.inr ⟨_, h⟩) hall⟩
      have hkind : kind ≠ .varRef := hkind
      simp only [Node.substitute, hkind, if_false, Node.substituteAll_eq_mapM, hcs', ok_bind]
      rfl

theorem type_evaluate {o : Operator} {a b c : Constant} (h : o.evaluate? a b = some c) : c.type = o.resultType := by
  cases o with
  | arithmetic op =>
    cases a <;> cases b <;> simp only [Operator.evaluate?, Option.map_eq_some_iff, reduceCtorEq] at h
    obtain ⟨n, -, rfl⟩ := h
    rfl
  | comparison op =>
    cases op <;> cases a <;> cases b <;> simp only [Operator.evaluate?, Option.some.injEq, reduceCtorEq] at h <;>
      exact h ▸ rfl
  | logical op =>
    cases op <;> cases a <;> cases b <;> simp only [Operator.evaluate?, Option.some.injEq, reduceCtorEq] at h <;>
      exact h ▸ rfl

/-- A node whose children are folded becomes a constant of its type or stays. -/
theorem exists_foldTop (h : Typed s e type) : ∃ e', e.foldTop = .ok e' ∧ s.Becomes e e' := by
  have hconstant (c : Constant) (hkind : e.kind = .paren ∨ e.kind = .unary ∨ e.kind = .binary)
      (htype : type = c.type) : s.Becomes e (c.node e.position) := by
    refine .constant (htype ▸ h) (.inr hkind) ?_
    rintro ⟨_, hvar, -⟩
    simp [hvar] at hkind
  cases h with
  | @paren inner type hinner p =>
    obtain ⟨c?, hc?, hc⟩ := hinner.exists_constant
    simp only [Node.foldTop, Node.child, List.getElem?_cons_zero, ok_bind, hc?]
    cases c? with
    | none => exact ⟨_, rfl, .refl _⟩
    | some c => exact ⟨_, rfl, hconstant c (by simp) (hc c rfl).1⟩
  | @unary operand type hoperand hboolean p =>
    obtain ⟨c?, hc?, hc⟩ := hoperand.exists_constant
    have hop : Node.op ⟨.unary, ⟨[("op", .text "!")]⟩, [operand], p⟩ = .ok "!" := rfl
    simp only [Node.foldTop, Node.child, List.getElem?_cons_zero, ok_bind, hc?]
    cases c? with
    | none => exact ⟨_, rfl, .refl _⟩
    | some c =>
      cases c with
      | int n => exact ⟨_, rfl, .refl _⟩
      | bool b => exact ⟨_, by simp only [hop, ok_bind, if_true]; rfl, hconstant (.bool !b) (by simp) rfl⟩
  | @binary op o left right leftType rightType hop hleft hright halike hwanted hadmits p =>
    obtain ⟨c?, hc?, hc⟩ := hleft.exists_constant
    obtain ⟨d?, hd?, hd⟩ := hright.exists_constant
    have hown : Node.op ⟨.binary, ⟨[("op", .text op)]⟩, [left, right], p⟩ = .ok op := rfl
    simp only [Node.foldTop, Node.child, List.getElem?_cons_zero, List.getElem?_cons_succ, ok_bind, hc?, hd?]
    cases c? with
    | none => exact ⟨_, rfl, .refl _⟩
    | some c =>
      cases d? with
      | none => exact ⟨_, rfl, .refl _⟩
      | some d =>
        simp only [hown, ok_bind, Constant.evaluate?, hop, Option.bind_some]
        cases hvalue : o.evaluate? c d with
        | none => exact ⟨_, rfl, .refl _⟩
        | some c => exact ⟨_, rfl, hconstant c (by simp) (type_evaluate hvalue).symm⟩
  | _ => exact ⟨_, rfl, .refl _⟩

theorem exists_fold (h : Typed s e type) : ∃ e', e.fold = .ok e' ∧ s.Becomes e e' := by
  induction e using Node.induction_children generalizing type with
  | step e ih =>
    obtain ⟨cs', hcs', hall⟩ := exists_forall₂ (f := Node.fold) (R := s.Becomes) fun c hc => by
      rcases h.of_mem_children hc with ⟨t, ht⟩ | ⟨name, p, rfl, himport⟩
      · exact ih c hc ht
      · exact ⟨_, rfl, .refl _⟩
    obtain ⟨kind, attributes, children, p⟩ := e
    obtain ⟨e', he', hreplaces⟩ := (h.children (Context.Becomes.forall₂_replaces hall)).exists_foldTop
    refine ⟨e', by simp only [Node.fold, Node.foldAll_eq_mapM, hcs', ok_bind, he'], ?_⟩
    by_cases hkind : kind = .varRef
    · subst hkind
      cases h
      cases hall
      exact hreplaces
    · exact (Context.Becomes.children hkind (.inr ⟨_, h⟩) hall).trans hreplaces

end Typed

/-! ## Normal calls -/

namespace Context
variable (s : Context)

/-- A call of a method of the class has one argument for each parameter, and an array where the method takes any number
of arguments. -/
def IsNormal (n : Node) : Prop :=
  ∀ attributes receiver args p name m, n = ⟨.call, attributes, receiver :: args, p⟩ → n.name = .ok name →
    s.table.method? name = some m → s.typeOf receiver = .ok s.table.classType →
    ∃ types : Node → Ty, (∀ e ∈ args, Typed s e (types e)) ∧ MethodInfo.Takes m.params (args.map types) ∧
      (m.rest?.isSome → ∀ e ∈ args.getLast?, (types e).isArray = true)

/-- The children of a call before and after its last arguments are gathered. -/
inductive Gathers (attributes : Assoc Attribute) : List Node → List Node → Prop
  | kept (cs : List Node) : Gathers attributes cs cs
  | gathered {name : String} {m : MethodInfo} {last : Symbol} {receiver : Node} {before after : List Node} {p : Position}
      (hreceiver : s.typeOf receiver = .ok s.table.classType)
      (hname : Node.name ⟨.call, attributes, receiver :: (before ++ after), p⟩ = .ok name)
      (hm : s.table.method? name = some m) (hrest : m.rest? = some last) (hlength : before.length + 1 = m.params.length) :
      Gathers attributes (receiver :: (before ++ after))
        (receiver :: (before ++ [⟨.arrayLiteral, ⟨[("element_type", .text last.type.name)]⟩, after, p⟩]))

/-- Where typing is strict, the parameters that take any number of arguments are arrays of what is known. -/
def RestKnown : Prop :=
  s.strict = true → ∀ name m last, s.table.method? name = some m → m.rest? = some last → last.type.IsKnown

end Context

namespace Typed
variable {s : Context} {e receiver : Node} {type : Ty} {attributes : Assoc Attribute} {args : List Node} {p : Position}
  {name : String} {m : MethodInfo}

theorem isNormal_ownCall (hname : Node.name ⟨.call, attributes, receiver :: args, p⟩ = .ok name)
    (hm : s.table.method? name = some m) {types : Node → Ty} (hargs : ∀ e ∈ args, Typed s e (types e))
    (htakes : MethodInfo.Takes m.params (args.map types))
    (hlast : m.rest?.isSome → ∀ e ∈ args.getLast?, (types e).isArray = true) :
    s.IsNormal ⟨.call, attributes, receiver :: args, p⟩ := by
  intro attributes' receiver' args' p' name' m' heq hname' hm' _
  simp only [Node.mk.injEq, List.cons.injEq, true_and] at heq
  obtain ⟨-, ⟨-, rfl⟩, -⟩ := heq
  obtain rfl : name = name' := Except.ok.inj (hname.symm.trans hname')
  obtain rfl := Option.some.inj (hm.symm.trans hm')
  exact ⟨types, hargs, htakes, hlast⟩

theorem isNormal_otherCall (hname : Node.name ⟨.call, attributes, receiver :: args, p⟩ = .ok name)
    (hreceiver : s.typeOf receiver = .ok type) (hother : (s.table.method? name).isSome → type ≠ s.table.classType) :
    s.IsNormal ⟨.call, attributes, receiver :: args, p⟩ := by
  intro attributes' receiver' args' p' name' m' heq hname' hm' hown
  simp only [Node.mk.injEq, List.cons.injEq, true_and] at heq
  obtain ⟨-, ⟨rfl, -⟩, -⟩ := heq
  obtain rfl : name = name' := Except.ok.inj (hname.symm.trans hname')
  exact absurd (Except.ok.inj (hreceiver.symm.trans hown)) (hother (by simp [hm']))

/-- Where arguments are gathered, they are typed as an array of what they are wanted as. -/
theorem gatheredArray (hrests : s.RestKnown) {last : Symbol} {after : List Node} {types : Node → Ty}
    (hm : s.table.method? name = some m) (hrest : m.rest? = some last) (hlast : last.type.isArray = true)
    (hargs : ∀ e ∈ after, Typed s e (types e)) (hmore : ∀ e ∈ after, Ty.assignable last.type.base (types e) = true)
    (p : Position) : Typed s ⟨.arrayLiteral, ⟨[("element_type", .text last.type.name)]⟩, after, p⟩ last.type := by
  have htype : (⟨last.type.name, true⟩ : Ty) = last.type := by rw [← hlast]
  have hadmits (e : Node) (he : e ∈ after) : s.Admits (types e) := by
    intro hstrict hvoid
    have hknown := hrests hstrict name m last hm hrest
    have hfit := hmore e he
    simp only [hvoid, Ty.assignable, Bool.or_eq_true, decide_eq_true_eq] at hfit
    rcases hfit with (hfit | hfit) | hfit
    · exact hknown.1 (congrArg Ty.name hfit)
    · exact absurd hfit (by decide)
    · exact hknown.2 (Ty.eq_mk (congrArg Ty.name hfit) hlast)
  rw [← htype]
  exact .gatheredLiteral last.type.name hargs hmore hadmits
    (fun hstrict => htype ▸ hrests hstrict name m last hm hrest) p

/-- A call of a method of the class whose last arguments are gathered. -/
theorem exists_gatheredCall (hrests : s.RestKnown) {last : Symbol} {before after : List Node} {types : Node → Ty}
    (hm : s.table.method? name = some m) (hreceiver : Typed s receiver s.table.classType)
    (hargs : ∀ e ∈ before ++ after, Typed s e (types e)) (hrest : m.rest? = some last) (hlast : last.type.isArray = true)
    (hparams : MethodInfo.Takes m.params.dropLast (before.map types))
    (hmore : ∀ e ∈ after, Ty.assignable last.type.base (types e) = true) (p : Position) :
    ∃ array, array = ⟨.arrayLiteral, ⟨[("element_type", .text last.type.name)]⟩, after, p⟩ ∧
      Typed s ⟨.call, ⟨[("name", .text name)]⟩, receiver :: (before ++ [array]), p⟩ m.returnType ∧
      s.IsNormal ⟨.call, ⟨[("name", .text name)]⟩, receiver :: (before ++ [array]), p⟩ := by
  refine ⟨_, rfl, ?_⟩
  have harray := gatheredArray hrests hm hrest hlast (fun e he => hargs e (by simp [he])) hmore p
  generalize (⟨.arrayLiteral, ⟨[("element_type", .text last.type.name)]⟩, after, p⟩ : Node) = array at harray ⊢
  have htyped : ∀ e ∈ before ++ [array], Typed s e (s.typeIn e) := by
    intro e he
    rcases List.mem_append.1 he with he | he
    · have := hargs e (by simp [he])
      exact this.typeIn.symm ▸ this
    · obtain rfl := List.mem_singleton.1 he
      exact harray.typeIn.symm ▸ harray
  have hmap : (before ++ [array]).map s.typeIn = before.map types ++ [last.type] := by
    rw [List.map_append, List.map_singleton, harray.typeIn]
    exact congrArg (· ++ [last.type]) (List.map_congr_left fun e he => (hargs e (by simp [he])).typeIn)
  have hgiven : Ty.assignable last.type last.type = true := by simp [Ty.assignable]
  have htakes : MethodInfo.Takes m.params ((before ++ [array]).map s.typeIn) := by
    rw [hmap, ← MethodInfo.params_of_rest hrest]
    exact List.rel_append hparams (.cons hgiven .nil)
  exact ⟨.ownCall hm hreceiver htyped (hmap ▸ .array hrest hparams hlast hgiven) p,
    isNormal_ownCall rfl hm htyped htakes (by simpa [harray.typeIn] using fun _ => hlast)⟩

/-- What a call becomes whose arguments are gathered where a parameter takes any number of them. -/
theorem exists_normalizeCall (hrests : s.RestKnown) {cs : List Node}
    (h : Typed s ⟨.call, attributes, cs, p⟩ type) : ∃ cs',
      s.table.normalizeCall (some s.method) ⟨.call, attributes, cs, p⟩ = .ok ⟨.call, attributes, cs', p⟩ ∧
      Typed s ⟨.call, attributes, cs', p⟩ type ∧ s.IsNormal ⟨.call, attributes, cs', p⟩ ∧
      s.Gathers attributes cs cs' := by
  have hother {name : String} {receiver : Node} {args : List Node} {type : Ty}
      (hname : Node.name ⟨.call, attributes, receiver :: args, p⟩ = .ok name)
      (hreceiver : s.typeOf receiver = .ok type) (hother : (s.table.method? name).isSome → type ≠ s.table.classType) :
      s.table.normalizeCall (some s.method) ⟨.call, attributes, receiver :: args, p⟩ =
        .ok ⟨.call, attributes, receiver :: args, p⟩ ∧ s.IsNormal ⟨.call, attributes, receiver :: args, p⟩ :=
    ⟨SymbolTable.normalizeCall_other (SymbolTable.callsOther_of_typeOf hname hreceiver hother),
      isNormal_otherCall hname hreceiver hother⟩
  cases h with
  | @ownCall name m receiver args types hm hreceiver hargs haccepts p =>
    have hown : s.table.CallsOwn (some s.method) ⟨[("name", .text name)]⟩ p receiver m :=
      ⟨⟨name, rfl, hm⟩, by rw [s.table.isOwnReceiver_eq _ hreceiver.typeOf, decide_eq_true rfl]⟩
    obtain ⟨gathered, hgathered, hregroups⟩ := SymbolTable.exists_gathers (fun e he => (hargs e he).typeOf) haccepts
    rw [SymbolTable.normalizeCall_own hown, hgathered, ok_bind]
    cases hregroups with
    | kept htakes hlast =>
      exact ⟨_, rfl, .ownCall hm hreceiver hargs haccepts p, isNormal_ownCall rfl hm hargs htakes hlast, .kept _⟩
    | @gathered last before after hrest hlast hlength hparams hmore =>
      obtain ⟨_, rfl, htyped, hnormal⟩ :=
        exists_gatheredCall hrests hm hreceiver hargs hrest hlast hparams hmore p
      refine ⟨_, ?_, htyped, hnormal, .gathered hreceiver.typeOf rfl hm hrest ?_⟩
      · simp [SymbolTable.gatheredCall, List.take_left' hlength, List.drop_left' hlength]
      · rw [← MethodInfo.params_of_rest hrest]
        simpa using hparams.length_eq.symm
  | lengthCall hreceiver hno harray p =>
    obtain ⟨hsame, hnormal⟩ := hother rfl hreceiver.typeOf hno
    exact ⟨_, hsame, .lengthCall hreceiver hno harray p, hnormal, .kept _⟩
  | foreignCall hreceiver hno hlength himports hargs hadmits p =>
    obtain ⟨hsame, hnormal⟩ := hother rfl hreceiver.typeOf hno
    exact ⟨_, hsame, .foreignCall hreceiver hno hlength himports hargs hadmits p, hnormal, .kept _⟩
  | @importCall name imported args types hreceiver hno hargs hadmits p q =>
    have htype : s.typeOf ⟨.varRef, ⟨[("name", .text imported)]⟩, [], q⟩ = .ok .any :=
      congrArg Except.ok hreceiver.variableType
    obtain ⟨hsame, hnormal⟩ := hother rfl htype fun hm => (hno hm).symm
    exact ⟨_, hsame, .importCall hreceiver hno hargs hadmits p q, hnormal, .kept _⟩

/-- A call with gathered arguments may stand for the call. -/
theorem becomes_gathers {cs cs' : List Node} (h : Typed s ⟨.call, attributes, cs, p⟩ type)
    (h' : Typed s ⟨.call, attributes, cs', p⟩ type) (hgathers : s.Gathers attributes cs cs') :
    s.Becomes ⟨.call, attributes, cs, p⟩ ⟨.call, attributes, cs', p⟩ where
  typed hc := by
    obtain rfl := Except.ok.inj (h.typeOf.symm.trans hc.typeOf)
    exact h'
  core _ := rfl
  literal := id
  unbound href := by
    obtain ⟨name, hvar, -⟩ := href
    cases hvar
  retypes := by
    cases hgathers with
    | kept => exact .refl _
    | gathered hreceiver hname hm hrest hlength =>
      refine .gathered hname hm ?_ hrest (h'.typeOf.trans h.typeOf.symm)
      rw [s.table.isOwnReceiver_eq _ hreceiver]
      simp
  elements hliteral := by cases hliteral
  kind := id
  every P hP hc := by
    cases hgathers with
    | kept => exact hc
    | gathered hreceiver hname hm hrest hlength =>
      refine .intro (hP.call hreceiver hname hm (by simp [hrest]) hlength hc.here) ?_
      rw [List.forall_mem_cons]
      refine ⟨hc.child (by simp), fun c hmem hdecl => ?_⟩
      rcases List.mem_append.1 hmem with hmem | hmem
      · exact hc.child (by simp [hmem]) hdecl
      · obtain rfl := List.mem_singleton.1 hmem
        exact .intro (hP.gathered hm hrest) fun d hd => hc.child (List.mem_cons_of_mem _ (List.mem_append_right _ hd))

theorem isNormal_of_kind {n : Node} (h : n.kind ≠ .call) : s.IsNormal n := by
  rintro attributes receiver args p name m rfl
  exact absurd rfl h

theorem everywhere_isNormal {cs cs' : List Node} (h : s.IsNormal ⟨.call, attributes, cs', p⟩)
    (hcs : ∀ c ∈ cs, c.Everywhere s.IsNormal) (hgathers : s.Gathers attributes cs cs') :
    Node.Everywhere s.IsNormal ⟨.call, attributes, cs', p⟩ := by
  refine .intro h ?_
  cases hgathers with
  | kept => exact fun c hc _ => hcs c hc
  | gathered hreceiver hname hm hrest hlength =>
    rw [List.forall_mem_cons]
    refine ⟨fun _ => hcs _ (by simp), fun c hmem _ => ?_⟩
    rcases List.mem_append.1 hmem with hmem | hmem
    · exact hcs c (by simp [hmem])
    · obtain rfl := List.mem_singleton.1 hmem
      exact .intro (isNormal_of_kind (by simp)) fun d hd _ =>
        hcs d (List.mem_cons_of_mem _ (List.mem_append_right _ hd))

/-- All calls of a typed expression become normal. -/
theorem exists_normalizeVarargs (hrests : s.RestKnown) (h : Typed s e type) :
    ∃ e', s.table.normalizeVarargs (some s.method) e = .ok e' ∧ s.Becomes e e' ∧ e'.Everywhere s.IsNormal := by
  induction e using Node.induction_children generalizing type with
  | step e ih =>
    obtain ⟨cs', hcs', hall⟩ := exists_forall₂ (f := s.table.normalizeVarargs (some s.method))
      (R := fun c c' => s.Becomes c c' ∧ c'.Everywhere s.IsNormal) fun c hc => by
        rcases h.of_mem_children hc with ⟨t, ht⟩ | ⟨name, p, rfl, himport⟩
        · exact ih c hc ht
        · exact ⟨_, rfl, .refl _, .intro (isNormal_of_kind (by simp)) (by simp)⟩
    have hbecomes : List.Forall₂ s.Becomes e.children cs' := hall.imp fun _ _ hc => hc.1
    have hnormal (c : Node) (hc : c ∈ cs') : c.Everywhere s.IsNormal := by
      obtain ⟨c₀, -, hc₀⟩ := exists_of_mem_forall₂ hall hc
      exact hc₀.2
    have hdecl := h.kind_ne
    obtain ⟨kind, attributes, children, p⟩ := e
    rw [SymbolTable.normalizeVarargs]
    rw [if_neg hdecl]
    simp only [Node.normalizeAllVarargs_eq_mapM, hcs', pure_bind, ok_bind]
    by_cases hcall : kind = .call
    · subst hcall
      have hparts : Typed s ⟨.call, attributes, cs', p⟩ type := h.children (Context.Becomes.forall₂_replaces hbecomes)
      obtain ⟨cs'', hcs'', htyped, hhere, hgathers⟩ := hparts.exists_normalizeCall hrests
      refine ⟨_, by rw [if_pos rfl, hcs''], ?_, everywhere_isNormal hhere hnormal hgathers⟩
      exact (Context.Becomes.children (by simp) (.inr ⟨_, h⟩) hbecomes).trans (becomes_gathers hparts htyped hgathers)
    · refine ⟨⟨kind, attributes, cs', p⟩, by rw [if_neg hcall]; rfl, ?_, .intro (isNormal_of_kind hcall) fun c hc _ => hnormal c hc⟩
      by_cases hkind : kind = .varRef
      · subst hkind
        cases h
        cases hbecomes
        exact .refl _
      · exact .children hkind (.inr ⟨_, h⟩) hbecomes

end Typed
end JmmCompiler

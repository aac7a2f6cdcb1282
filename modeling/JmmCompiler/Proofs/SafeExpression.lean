import JmmCompiler.Proofs.Gathering
import JmmCompiler.Proofs.Strict
import JmmCompiler.Proofs.TypedHeap
/-! Typed expressions are safe: they do not go wrong, and what they give is of their type. -/
namespace JmmCompiler

theorem Ty.eq_of_assignable {target value : Ty} (h : Ty.assignable target value = true)
    (htarget : target.name ≠ "any") (hvalue : value.name ≠ "any") : target = value := by
  simp only [assignable, Bool.or_eq_true, decide_eq_true_eq] at h
  rcases h with (rfl | rfl) | heq
  · exact absurd rfl htarget
  · exact absurd rfl hvalue
  · exact heq

theorem Operator.operandType?_cases {o : Operator} {wanted : Ty} (h : wanted ∈ o.operandType?) :
    wanted = .int ∨ wanted = .boolean := by
  cases o with
  | arithmetic op => exact .inl (Option.some.inj h).symm
  | logical op => exact .inr (Option.some.inj h).symm
  | comparison op =>
    simp only [operandType?] at h
    split at h
    · exact .inl (Option.some.inj h).symm
    · cases h

/-- A context in a program without imports, where types are known and no variable hides a field. -/
structure Context.Settled (s : Context) : Prop where
  strict : s.strict = true
  imports : s.table.imports = []
  declared : s.Declared
  regular : s.table.Regular
  hidden : ∀ name, (s.table.binding? (some s.method) name).isSome → s.table.field? name = none
  params : ∀ name m, s.table.method? name = some m → ∀ p ∈ m.params, p.type.IsKnown ∧ p.type ≠ .void

/-- Calls of the methods of a class are safe. -/
def SymbolTable.Invokes (t : SymbolTable)
    (invoke : String → Option Datum → List Datum → Run (Option Datum)) : Prop :=
  ∀ name m heap self args, t.method? name = some m → heap.IsTyped t → m.receives t heap args = true →
    (m.isStatic = false → ∃ v, self = some v ∧ v.isOf t heap t.classType = true) →
    Run.Safe t heap (invoke name self args) (m.returnType.Gives t)

/-- The variables that are assigned have values of their types. -/
structure Context.Serves (s : Context) (heap : Heap) (frame : Activation) : Prop where
  self : s.isStatic = false → ∃ v, frame.self = some v ∧ v.isOf s.table heap s.table.classType = true
  vars : ∀ name v, (s.table.binding? (some s.method) name).isSome → frame.vars name = some v →
    v.isOf s.table heap (s.variableType name) = true

theorem Context.Serves.mono {s : Context} {heap heap' : Heap} {frame : Activation} (h : s.Serves heap frame)
    (hgrows : heap.Grows heap') : s.Serves heap' frame where
  self hinstance := by
    obtain ⟨v, hself, hv⟩ := h.self hinstance
    exact ⟨v, hself, Datum.isOf_mono hgrows hv⟩
  vars name v hbinding hv := Datum.isOf_mono hgrows (h.vars name v hbinding hv)

namespace MethodInfo
variable {m : MethodInfo} {t : SymbolTable} {heap : Heap} {args : List Datum}

theorem receives_iff : m.receives t heap args = true ↔
    List.Forall₂ (fun p v => v.isOf t heap p.type = true) m.params args := by
  unfold receives
  rw [List.forall₂_iff_zip]
  simp only [Bool.and_eq_true, decide_eq_true_eq, List.all_eq_true, Prod.forall]
  exact and_congr_left' eq_comm

end MethodInfo

section
variable {s : Context} {invoke : String → Option Datum → List Datum → Run (Option Datum)} {heap : Heap}
  {frame : Activation} {e : Node} {type : Ty}

/-- What has a value of its type is not noted. -/
theorem SymbolTable.safe_watched {x : Run (Option Datum)} (htype : s.typeOf e = .ok type)
    (hx : Run.Safe s.table heap x (type.Gives s.table)) :
    Run.Safe s.table heap (s.table.watched s.method e x) (type.Gives s.table) := by
  refine hx.bind fun heap' v hgrows htyped hv => ?_
  cases v with
  | none => exact .pure htyped hv
  | some v =>
    have hv : v.isOf s.table heap' type = true := hv
    have htype : s.table.typeOf (some s.method) e = .ok type := htype
    refine .get ?_
    simp only [htype, Except.toOption, Option.any_some, hv, if_true]
    exact .pure htyped hv

/-- An expression yields values of its type if it does so where nothing is noted. -/
theorem Typed.yields_of (h : Typed s e type)
    (hx : Run.Yields s.table heap type
      (s.table.resultOf s.method invoke frame e (e.children.map (s.table.result s.method invoke frame)))) :
    Run.Yields s.table heap type (s.table.result s.method invoke frame e) := by
  rw [s.table.result_eq]
  exact fun later hgrows htyped => SymbolTable.safe_watched h.typeOf (hx later hgrows htyped)

namespace Context

theorem safe_lookUp (hs : s.Settled) {name : String} (h : s.HasVariable name) (hframe : s.Serves heap frame)
    (hheap : heap.IsTyped s.table) :
    Run.Safe s.table heap (s.table.lookUp s.method frame name) fun heap' v =>
      v.isOf s.table heap' (s.variableType name) = true := by
  unfold SymbolTable.lookUp
  by_cases hbinding : (s.table.binding? (some s.method) name).isSome = true
  · rw [if_pos hbinding]
    cases hv : frame.vars name with
    | none => exact .throw (by decide)
    | some v => exact .pure hheap (hframe.vars name v hbinding hv)
  · rw [if_neg hbinding]
    obtain ⟨hfield, hinstance⟩ := h.resolve_left hbinding
    obtain ⟨field, hfound⟩ := Option.isSome_iff_exists.1 hfield
    obtain ⟨v, hself, hv⟩ := hframe.self hinstance
    have htype : s.variableType name = field.type := by
      simp [variableType, SymbolTable.variableType?, hfound]
    rw [if_pos hfield, hself, htype]
    exact Run.safe_getField hs.regular hheap hv hfound

/-- Parameters of known types take arguments of these types. -/
theorem eq_map_of_takes {params : List Symbol} {types : List Ty} (h : MethodInfo.Takes params types)
    (hparams : ∀ p ∈ params, p.type.IsKnown) (htypes : ∀ type ∈ types, type.IsKnown) :
    types = params.map (·.type) := by
  induction h with
  | nil => rfl
  | @cons p type params types hp _ ih =>
    have heq := Ty.eq_of_assignable hp (hparams p (by simp)).1 (htypes type (by simp)).1
    rw [List.map_cons, heq, ih (fun p hp => hparams p (by simp [hp])) fun type h => htypes type (by simp [h])]

variable {m : MethodInfo} {name : String} {params : List Symbol} {args : List Node} {types : Node → Ty}
  {packing : Option (Nat × String)}

/-- One argument for each parameter. -/
theorem safe_each (hs : s.Settled) (hparams : ∀ p ∈ params, p.type.IsKnown ∧ p.type ≠ .void)
    (hargs : ∀ e ∈ args, Typed s e (types e)) (htakes : MethodInfo.Takes params (args.map types))
    (hyields : ∀ e ∈ args, Run.Yields s.table heap (types e) (s.table.result s.method invoke frame e))
    (hheap : heap.IsTyped s.table) :
    Run.Safe s.table heap (Run.all (args.map (s.table.result s.method invoke frame)))
      fun heap' values => List.Forall₂ (fun p v => v.isOf s.table heap' p.type = true) params values := by
  have hknown (e : Node) (he : e ∈ args) : (types e).IsKnown :=
    (hargs e he).isKnown hs.declared hs.strict hs.imports
  have heq := eq_map_of_takes htakes (fun p hp => (hparams p hp).1) (by simpa using hknown)
  have hvoid (e : Node) (he : e ∈ args) : types e ≠ .void := by
    obtain ⟨p, hp, hpe⟩ := List.mem_map.1 (heq ▸ List.mem_map_of_mem he)
    exact hpe ▸ (hparams p hp).2
  have hparts : List.Forall₂ (fun x type => Run.Yields s.table heap type x ∧ type ≠ .void)
      (args.map (s.table.result s.method invoke frame)) (args.map types) := by
    rw [List.forall₂_map_left_iff, List.forall₂_map_right_iff, List.forall₂_same]
    exact fun e he => ⟨hyields e he, hvoid e he⟩
  refine (Run.safe_all hheap hparts).imp fun heap' values _ hvalues => ?_
  rw [heq, List.forall₂_map_right_iff] at hvalues
  exact hvalues.flip

/-- A method receives the arguments that are passed as it wants them. -/
theorem safe_arguments (hs : s.Settled) (hm : s.table.method? name = some m)
    (hargs : ∀ e ∈ args, Typed s e (types e)) (hpasses : m.Passes (args.map types) packing)
    (hyields : ∀ e ∈ args, Run.Yields s.table heap (types e) (s.table.result s.method invoke frame e))
    (hheap : heap.IsTyped s.table) :
    Run.Safe s.table heap (Run.arguments packing (args.map (s.table.result s.method invoke frame)))
      fun heap' values => m.receives s.table heap' values = true := by
  have hparams := hs.params name m hm
  cases hpasses with
  | each htakes =>
    refine (safe_each hs hparams hargs htakes hyields hheap).imp fun heap' values _ hvalues => ?_
    exact MethodInfo.receives_iff.2 hvalues
  | @gathered last hrest hlast htakes hmore =>
    have hsplit := MethodInfo.params_of_rest hrest
    obtain ⟨hlastKnown, -⟩ := hparams last (hsplit ▸ by simp)
    rw [← List.map_take] at htakes
    rw [← List.map_drop] at hmore
    have hfirst : ∀ e ∈ args.take (m.params.length - 1), e ∈ args := fun e => List.mem_of_mem_take
    have hrest : ∀ e ∈ args.drop (m.params.length - 1), e ∈ args := fun e => List.mem_of_mem_drop
    simp only [Run.arguments, ← List.map_take, ← List.map_drop]
    refine (safe_each hs (fun p hp => hparams p (List.dropLast_subset _ hp)) (fun e he => hargs e (hfirst e he))
      htakes (fun e he => hyields e (hfirst e he)) hheap).bind fun heap₁ values hgrows₁ htyped₁ hvalues => ?_
    have helements : ∀ x ∈ (args.drop (m.params.length - 1)).map (s.table.result s.method invoke frame),
        Run.Yields s.table heap₁ ⟨last.type.name, false⟩ x := by
      simp only [List.forall_mem_map]
      intro e he
      have hassign := hmore (types e) (List.mem_map_of_mem he)
      have hknown := (hargs e (hrest e he)).isKnown hs.declared hs.strict hs.imports
      have heq : (⟨last.type.name, false⟩ : Ty) = types e := Ty.eq_of_assignable hassign hlastKnown.1 hknown.1
      exact heq ▸ (hyields e (hrest e he)).mono hgrows₁
    have hvoid : last.type.name ≠ "void" := fun heq => hlastKnown.2 (Ty.eq_mk heq hlast)
    refine (Run.safe_arrayOf htyped₁ hvoid helements).bind fun heap₂ array hgrows₂ htyped₂ harray => ?_
    have hlastType : last.type = ⟨last.type.name, true⟩ := Ty.eq_mk rfl hlast
    refine .pure htyped₂ (MethodInfo.receives_iff.2 ?_)
    rw [← hsplit]
    refine List.rel_append (hvalues.imp fun p v h => Datum.isOf_mono hgrows₂ h) (.cons ?_ .nil)
    rw [hlastType]
    exact harray

/-- An array literal, all of whose elements have the type of the elements of the array. -/
theorem safe_arrayLiteral {attributes : Assoc Attribute} {elements : List Node} {p : Position}
    (hliteral : s.table.typeOf (some s.method) ⟨.arrayLiteral, attributes, elements, p⟩ = .ok ⟨name, true⟩)
    (hname : name ≠ "void")
    (hyields : ∀ e ∈ elements, Run.Yields s.table heap ⟨name, false⟩ (s.table.result s.method invoke frame e))
    (hheap : heap.IsTyped s.table) :
    Run.Safe s.table heap
      (s.table.resultOf s.method invoke frame ⟨.arrayLiteral, attributes, elements, p⟩
        (elements.map (s.table.result s.method invoke frame)))
      ((⟨name, true⟩ : Ty).Gives s.table) := by
  have hparts : ∀ x ∈ elements.map (s.table.result s.method invoke frame),
      Run.Yields s.table heap ⟨name, false⟩ x := by
    simpa only [List.forall_mem_map] using hyields
  simp only [SymbolTable.resultOf, hliteral, Run.ofExcept, pure_bind]
  exact (Run.safe_arrayOf hheap hname hparts).bind fun heap₁ v hgrows₁ htyped₁ hv => .pure htyped₁ hv

/-- An element of an array, by its index. -/
theorem safe_arrayAccess {array index : Node} {p : Position} (hisArray : type.isArray = true)
    (harray : Run.Yields s.table heap type (s.table.result s.method invoke frame array))
    (hindex : Run.Yields s.table heap .int (s.table.result s.method invoke frame index))
    (hheap : heap.IsTyped s.table) :
    Run.Safe s.table heap
      (s.table.resultOf s.method invoke frame ⟨.arrayAccess, {}, [array, index], p⟩
        ([array, index].map (s.table.result s.method invoke frame)))
      (type.indexed.Gives s.table) := by
  obtain ⟨element, isArray⟩ := type
  obtain rfl : isArray = true := hisArray
  have hindexed : Ty.indexed ⟨element, true⟩ = ⟨element, false⟩ := by simp [Ty.indexed, Ty.any, Ty.base]
  rw [hindexed]
  refine harray.bind (.refl heap) hheap (by simp [Ty.void]) fun heap₁ a hgrows₁ htyped₁ ha => ?_
  refine hindex.bind hgrows₁ htyped₁ (by decide) fun heap₂ i hgrows₂ htyped₂ hi => ?_
  refine (Run.safe_number htyped₂ hi).bind fun heap₃ n hgrows₃ htyped₃ _ => ?_
  exact (Run.safe_load htyped₃ (Datum.isOf_mono (hgrows₂.trans hgrows₃) ha)).bind
    fun heap₄ v hgrows₄ htyped₄ hv => .pure htyped₄ hv

/-- An operator on two operands of one type, which is the one that it wants if it wants one. The right operand of
`&&` is computed only if the left one is true. -/
theorem safe_binary {op : String} {o : Operator} {left right : Node} {p : Position} (hop : Operator.ofSymbol? op = some o)
    (hvoid : type ≠ .void) (hsame : ∀ wanted ∈ o.operandType?, wanted = type)
    (hleft : Run.Yields s.table heap type (s.table.result s.method invoke frame left))
    (hright : Run.Yields s.table heap type (s.table.result s.method invoke frame right))
    (hheap : heap.IsTyped s.table) :
    Run.Safe s.table heap
      (s.table.resultOf s.method invoke frame ⟨.binary, ⟨[("op", .text op)]⟩, [left, right], p⟩
        ([left, right].map (s.table.result s.method invoke frame)))
      (o.resultType.Gives s.table) := by
  have hop' : Node.op ⟨.binary, ⟨[("op", .text op)]⟩, [left, right], p⟩ = .ok op := rfl
  simp only [SymbolTable.resultOf, List.map_cons, List.map_nil, hop', Run.ofExcept, pure_bind]
  refine hleft.bind (.refl heap) hheap hvoid fun heap₁ a hgrows₁ htyped₁ ha => ?_
  split
  · rename_i hand
    subst hand
    obtain rfl : Operator.logical .and = o := Option.some.inj hop
    obtain rfl : Ty.boolean = type := hsame .boolean rfl
    refine (Run.safe_truth htyped₁ ha).bind fun heap₂ b hgrows₂ htyped₂ _ => ?_
    split
    · refine hright.bind (hgrows₁.trans hgrows₂) htyped₂ hvoid fun heap₃ b hgrows₃ htyped₃ hb => ?_
      exact (Run.safe_truth htyped₃ hb).bind fun heap₄ b hgrows₄ htyped₄ _ => .pure htyped₄ rfl
    · exact .pure htyped₂ rfl
  · refine hright.bind hgrows₁ htyped₁ hvoid fun heap₂ b hgrows₂ htyped₂ hb => ?_
    simp only [hop]
    exact (Run.safe_ofOperator htyped₂ (Datum.isOf_mono hgrows₂ ha) hb hsame).bind
      fun heap₃ v hgrows₃ htyped₃ hv => .pure htyped₃ hv

/-- A call of a method of the class. -/
theorem safe_ownCall (hs : s.Settled) (hinvoke : s.table.Invokes invoke) (hm : s.table.method? name = some m)
    {receiver : Node} (hreceiver : Typed s receiver s.table.classType)
    (hargs : ∀ e ∈ args, Typed s e (types e)) (haccepts : m.Accepts (args.map types)) {p : Position}
    (hobject : Run.Yields s.table heap s.table.classType (s.table.result s.method invoke frame receiver))
    (hyields : ∀ e ∈ args, Run.Yields s.table heap (types e) (s.table.result s.method invoke frame e))
    (hheap : heap.IsTyped s.table) :
    Run.Safe s.table heap
      (s.table.resultOf s.method invoke frame ⟨.call, ⟨[("name", .text name)]⟩, receiver :: args, p⟩
        ((receiver :: args).map (s.table.result s.method invoke frame)))
      (m.returnType.Gives s.table) := by
  have hown : s.table.isOwnCall (some s.method) name receiver = .ok true :=
    s.table.isOwnCall_of_method _ hm hreceiver.typeOf
  obtain ⟨packing, hpacking, hpasses⟩ := exists_packing (p := p) hm hreceiver.typeOf hargs haccepts
  have hname : Node.name ⟨.call, ⟨[("name", .text name)]⟩, receiver :: args, p⟩ = .ok name := rfl
  have hchild : Node.child ⟨.call, ⟨[("name", .text name)]⟩, receiver :: args, p⟩ 0 = .ok receiver := rfl
  simp only [SymbolTable.resultOf, List.map_cons, hname, hchild, hown, hpacking, Run.ofExcept, pure_bind,
    Bool.true_and]
  have hvoid : s.table.classType ≠ .void := hs.declared.class_ne_void
  refine hobject.bind (.refl heap) hheap hvoid fun heap₂ object hgrows₂ htyped₂ hobject => ?_
  refine (safe_arguments hs hm hargs hpasses (fun e he => (hyields e he).mono hgrows₂) htyped₂).bind
    fun heap₃ values hgrows₃ htyped₃ hvalues => ?_
  have hstatic : s.table.isStatic name = m.isStatic := by simp [SymbolTable.isStatic, hm]
  split
  · rename_i h
    refine hinvoke name m heap₃ none values hm htyped₃ hvalues fun hinstance => ?_
    rw [hstatic, hinstance] at h
    cases h
  · have hobject := Datum.isOf_mono hgrows₃ hobject
    refine (Run.safe_cell htyped₃ hobject hs.regular.classType).bind ?_
    rintro heap₄ found hgrows₄ htyped₄ ⟨_, hof, _⟩
    obtain ⟨address, found⟩ := found
    obtain ⟨fields, rfl⟩ := Run.exists_fields hof
    simp only [SymbolTable.hasMethod, hm, Option.isSome_some, decide_true, Bool.and_self, if_true]
    have hreceives : m.receives s.table heap₄ values = true :=
      MethodInfo.receives_iff.2 ((MethodInfo.receives_iff.1 hvalues).imp fun _ _ => Datum.isOf_mono hgrows₄)
    exact hinvoke name m heap₄ (some object) values hm htyped₄ hreceives
      fun _ => ⟨object, rfl, Datum.isOf_mono hgrows₄ hobject⟩

/-- The length of an array, asked for by a call. -/
theorem safe_lengthCall {receiver : Node} (hreceiver : Typed s receiver type)
    (hother : (s.table.method? "length").isSome → type ≠ s.table.classType) (harray : type.isArray = true)
    {p : Position} (hobject : Run.Yields s.table heap type (s.table.result s.method invoke frame receiver))
    (hheap : heap.IsTyped s.table) :
    Run.Safe s.table heap
      (s.table.resultOf s.method invoke frame ⟨.call, ⟨[("name", .text "length")]⟩, [receiver], p⟩
        ([receiver].map (s.table.result s.method invoke frame)))
      (Ty.int.Gives s.table) := by
  have hname : Node.name ⟨.call, ⟨[("name", .text "length")]⟩, [receiver], p⟩ = .ok "length" := rfl
  have hchild : Node.child ⟨.call, ⟨[("name", .text "length")]⟩, [receiver], p⟩ 0 = .ok receiver := rfl
  have hown : s.table.isOwnCall (some s.method) "length" receiver = .ok false :=
    s.table.isOwnCall_of_ne _ hreceiver.typeOf hother
  have hpacking :
      s.table.packing? s.method ⟨.call, ⟨[("name", .text "length")]⟩, [receiver], p⟩ = .ok none :=
    SymbolTable.packing?_other (SymbolTable.callsOther_of_typeOf hname hreceiver.typeOf hother)
  simp only [SymbolTable.resultOf, List.map_cons, List.map_nil, hname, hchild, hown, hpacking, Run.ofExcept,
    pure_bind, Bool.false_and, Bool.false_eq_true, if_false, Run.arguments, Run.all]
  have hvoid : type ≠ .void := fun heq => by simp [heq, Ty.void] at harray
  refine hobject.bind (.refl heap) hheap hvoid fun heap₂ object hgrows₂ htyped₂ hobject => ?_
  refine (Run.safe_cell htyped₂ hobject (Run.isReference_of_isArray harray)).bind ?_
  rintro heap₃ found hgrows₃ htyped₃ ⟨_, hof, _⟩
  obtain ⟨address, found⟩ := found
  obtain ⟨element, items, rfl, -⟩ := Run.exists_items hof harray
  exact .pure htyped₃ rfl

end Context

/-- A typed expression yields values of its type. -/
theorem Typed.yields (hs : s.Settled) (hinvoke : s.table.Invokes invoke) (h : Typed s e type)
    (hframe : s.Serves heap frame) :
    Run.Yields s.table heap type (s.table.result s.method invoke frame e) := by
  have hknown {e : Node} {type : Ty} (h : Typed s e type) : type.name ≠ "any" :=
    (h.isKnown hs.declared hs.strict hs.imports).1
  induction h with
  | intLiteral i p => exact (Typed.intLiteral i p).yields_of fun later hgrows htyped => .pure htyped rfl
  | boolLiteral b p => exact (Typed.boolLiteral b p).yields_of fun later hgrows htyped => .pure htyped rfl
  | @varRef name h p =>
    refine (Typed.varRef h p).yields_of fun later hgrows htyped => ?_
    have hvariable : s.HasVariable name := h.resolve_right fun ⟨hlax, _⟩ => by simp [hs.strict] at hlax
    exact (Context.safe_lookUp hs hvariable (hframe.mono hgrows) htyped).bind
      fun heap' v hgrows' htyped' hv => .pure htyped' hv
  | thisRef h p =>
    refine (Typed.thisRef h p).yields_of fun later hgrows htyped => ?_
    obtain ⟨v, hself, hv⟩ := (hframe.mono hgrows).self h
    simp only [SymbolTable.resultOf, hself, Run.required, pure_bind]
    exact .pure htyped hv
  | paren hinner p ih => exact (Typed.paren hinner p).yields_of ih
  | newObject name hcreated p =>
    refine (Typed.newObject name hcreated p).yields_of fun later hgrows htyped => ?_
    exact (Run.safe_newObject hs.regular htyped (hcreated hs.strict).2).bind
      fun heap' v hgrows' htyped' hv => .pure htyped' hv
  | newArray name hsize hint hcreated p ih =>
    refine (Typed.newArray name hsize hint hcreated p).yields_of fun later hgrows htyped => ?_
    obtain rfl := Ty.eq_of_assignable hint (by decide) (hknown hsize)
    have hname : name ≠ "void" := fun heq => (hcreated hs.strict).2 (heq ▸ rfl)
    refine ih.bind hgrows htyped (by decide) fun heap₁ v hgrows₁ htyped₁ hv => ?_
    refine (Run.safe_number htyped₁ hv).bind fun heap₂ n hgrows₂ htyped₂ _ => ?_
    exact (Run.safe_newArray htyped₂ hname).bind fun heap₃ v hgrows₃ htyped₃ hv => .pure htyped₃ hv
  | emptyLiteral p =>
    refine (Typed.emptyLiteral p).yields_of fun later hgrows htyped => ?_
    exact Context.safe_arrayLiteral (s.table.typeOf_emptyLiteral (some s.method) p) (by decide) (by simp) htyped
  | @arrayLiteral first rest types helements hfit hadmits p ih =>
    have hliteral := Typed.arrayLiteral helements hfit hadmits p
    refine hliteral.yields_of fun later hgrows htyped => ?_
    -- all elements have the type of the first one, which is no array
    have hfirst : (types first).name ≠ "any" := hknown (helements first (by simp))
    have heq (e : Node) (he : e ∈ first :: rest) : (⟨(types first).name, false⟩ : Ty) = types e :=
      Ty.eq_of_assignable (hfit e he) hfirst (hknown (helements e he))
    have hname : (types first).name ≠ "void" := fun hvoid => by
      refine hadmits first (by simp) hs.strict ?_
      rw [← heq first (by simp)]
      exact Ty.eq_mk hvoid rfl
    exact Context.safe_arrayLiteral hliteral.typeOf hname (fun e he => heq e he ▸ (ih e he).mono hgrows) htyped
  | @gatheredLiteral name elements types helements hfit hadmits hcreated p ih =>
    have hliteral := Typed.gatheredLiteral name helements hfit hadmits hcreated p
    refine hliteral.yields_of fun later hgrows htyped => ?_
    have hname := hcreated hs.strict
    have heq (e : Node) (he : e ∈ elements) : (⟨name, false⟩ : Ty) = types e :=
      Ty.eq_of_assignable (hfit e he) hname.1 (hknown (helements e he))
    exact Context.safe_arrayLiteral hliteral.typeOf (fun heq => hname.2 (heq ▸ rfl))
      (fun e he => heq e he ▸ (ih e he).mono hgrows) htyped
  | @arrayAccess array index type indexType harray hindex htype hint hcreated p ih ihindex =>
    refine (Typed.arrayAccess harray hindex htype hint hcreated p).yields_of fun later hgrows htyped => ?_
    obtain rfl := Ty.eq_of_assignable hint (by decide) (hknown hindex)
    have hisArray := htype.resolve_left fun heq => hknown harray (congrArg Ty.name heq)
    exact Context.safe_arrayAccess hisArray (ih.mono hgrows) (ihindex.mono hgrows) htyped
  | length harray htype p ih =>
    refine (Typed.length harray htype p).yields_of fun later hgrows htyped => ?_
    have hisArray := htype.resolve_left fun heq => hknown harray (congrArg Ty.name heq)
    refine ih.bind hgrows htyped (fun heq => by simp [heq, Ty.void] at hisArray)
      fun heap₁ a hgrows₁ htyped₁ ha => ?_
    exact (Run.safe_length htyped₁ ha hisArray).bind fun heap₂ v hgrows₂ htyped₂ hv => .pure htyped₂ hv
  | unary hoperand hboolean p ih =>
    refine (Typed.unary hoperand hboolean p).yields_of fun later hgrows htyped => ?_
    obtain rfl := Ty.eq_of_assignable hboolean (by decide) (hknown hoperand)
    refine ih.bind hgrows htyped (by decide) fun heap₁ v hgrows₁ htyped₁ hv => ?_
    exact (Run.safe_truth htyped₁ hv).bind fun heap₂ b hgrows₂ htyped₂ _ => .pure htyped₂ rfl
  | @binary op o left right leftType rightType hop hleft hright halike hwanted hadmits p ihl ihr =>
    refine (Typed.binary hop hleft hright halike hwanted hadmits p).yields_of fun later hgrows htyped => ?_
    obtain rfl := Ty.eq_of_assignable halike (hknown hleft) (hknown hright)
    have hsame (wanted : Ty) (h : wanted ∈ o.operandType?) : wanted = leftType := by
      refine Ty.eq_of_assignable (hwanted wanted h).1 ?_ (hknown hleft)
      rcases Operator.operandType?_cases h with rfl | rfl
      · decide
      · decide
    exact Context.safe_binary hop (hadmits.1 hs.strict) hsame (ihl.mono hgrows) (ihr.mono hgrows) htyped
  | ownCall hm hreceiver hargs haccepts p ihr iha =>
    refine (Typed.ownCall hm hreceiver hargs haccepts p).yields_of fun later hgrows htyped => ?_
    exact Context.safe_ownCall hs hinvoke hm hreceiver hargs haccepts (ihr.mono hgrows)
      (fun e he => (iha e he).mono hgrows) htyped
  | lengthCall hreceiver hother harray p ih =>
    refine (Typed.lengthCall hreceiver hother harray p).yields_of fun later hgrows htyped => ?_
    exact Context.safe_lengthCall hreceiver hother harray (ih.mono hgrows) htyped
  | foreignCall hreceiver hother hlength himports hargs hadmits p ihr iha => exact absurd hs.imports himports
  | importCall hreceiver hother hargs hadmits p q iha => exact absurd hs.imports hreceiver.imports_ne_nil

end
end JmmCompiler

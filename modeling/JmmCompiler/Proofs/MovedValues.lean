import JmmCompiler.Proofs.LoadableCode
import JmmCompiler.Proofs.StagedChecks
/-! Values that are moved. Types reach the code by two ways, those of expressions and those that are wanted of them. Where
expressions keep to what is known they meet: what is moved has exactly the type of its destination. -/
namespace JmmCompiler

/-! ## Typed code -/

/-- A value of a type may be moved to a place of a type: the types are the same, or the class is for its superclass. -/
def SymbolTable.Moves (t : SymbolTable) (dest value : Ty) : Prop :=
  value = dest ∨ value = t.classType ∧ dest.isArray = false ∧ t.superClass = some dest.name

/-- The type of the value that an instruction gives. -/
def Instruction.valueType : Instruction → Except Failure Ty
  | .single operand => operand.type
  | .binary _ _ _ type | .unary _ _ type | .call _ _ _ _ type => .ok type
  | .getField _ field => field.type
  | _ => .error .malformed

namespace SymbolTable
variable (t : SymbolTable)

/-- A value that is given at all has the type of a place, or is the class for its superclass. -/
def MovesTo (dest value : Except Failure Ty) : Prop := ∃ d v, dest = .ok d ∧ value = .ok v ∧ t.Moves d v

/-- The arguments of a call on the class have the types of the parameters of the method. -/
def PassesTyped (target : Element) (method : Option String) (args : List Element) : Prop :=
  ∀ name m, method = some name → t.method? name = some m → target.type = .ok t.classType →
    List.Forall₂ (fun p arg => t.MovesTo (.ok p.type) arg.type) m.params args

/-- Every value that an instruction moves has exactly the type of its destination. -/
def MovesTyped (returnType : Ty) : Instruction → Prop
  | .assign dest value => t.MovesTo dest.type value.valueType ∧ MovesTyped returnType value
  | .putField _ field value => t.MovesTo field.type value.type
  | .ret operand type => type = returnType ∧ (returnType ≠ .void → t.MovesTo (.ok returnType) operand.type)
  | .call _ target method args _ => t.PassesTyped target method args
  | _ => True

end SymbolTable

instance (t : SymbolTable) (dest value : Ty) : Decidable (t.Moves dest value) := inferInstanceAs (Decidable (_ ∨ _))

instance (t : SymbolTable) (dest value : Except Failure Ty) : Decidable (t.MovesTo dest value) :=
  match dest, value with
  | .ok d, .ok v => decidable_of_iff (t.Moves d v)
      ⟨fun h => ⟨d, v, rfl, rfl, h⟩, fun ⟨_, _, hd, hv, h⟩ => Except.ok.inj hd ▸ Except.ok.inj hv ▸ h⟩
  | .error _, _ => isFalse nofun
  | .ok _, .error _ => isFalse nofun

instance (t : SymbolTable) (target : Element) (method : Option String) (args : List Element) :
    Decidable (t.PassesTyped target method args) :=
  decidable_of_iff (∀ m ∈ method.bind t.method?, target.type = .ok t.classType →
      List.Forall₂ (fun p arg => t.MovesTo (.ok p.type) arg.type) m.params args) <| by
    simp only [SymbolTable.PassesTyped, Option.mem_def, Option.bind_eq_some_iff]
    exact ⟨fun h name m hname hm => h m ⟨name, hname, hm⟩, fun h m ⟨name, hname, hm⟩ => h name m hname hm⟩

def SymbolTable.decidableMovesTyped (t : SymbolTable) (returnType : Ty) :
    (i : Instruction) → Decidable (t.MovesTyped returnType i)
  | .assign _ value => @instDecidableAnd _ _ inferInstance (t.decidableMovesTyped returnType value)
  | .putField .. => inferInstanceAs (Decidable (t.MovesTo _ _))
  | .ret .. => inferInstanceAs (Decidable (_ ∧ _))
  | .call .. => inferInstanceAs (Decidable (t.PassesTyped _ _ _))
  | .single .. | .binary .. | .unary .. | .getField .. | .branch .. | .goto .. | .nop | .label .. => isTrue trivial

instance (t : SymbolTable) (returnType : Ty) (i : Instruction) : Decidable (t.MovesTyped returnType i) :=
  t.decidableMovesTyped returnType i

/-! ## Trees that keep to what is known -/

/-- The parameters that take one argument each. -/
def MethodInfo.fixed (m : MethodInfo) : List Symbol := if m.rest?.isSome then m.params.dropLast else m.params

namespace Context
variable (s : Context)

/-- An expression that is no element of what is not known. -/
def Settles (e : Node) : Prop := ∃ type, Typed s e type ∧ (type = .any → e.coreKind ≠ .arrayAccess)

/-- A node that has no literal of what is not known, and no element of what is not known where an array is wanted. -/
structure KeepsTypes (n : Node) : Prop where
  literals : n.kind = .arrayLiteral → n.attributes = {} → ∀ c ∈ n.children.head?, s.typeOf c ≠ .ok .any
  indexed : n.kind = .arrayAccess → ∀ array ∈ n.children.head?, s.Settles array
  assigned : n.kind = .assign → ∀ target value type, n.children = [target, value] → s.typeOf target = .ok type →
    type.isArray = true → s.Settles value ∧ (value.kind = .arrayLiteral → s.typeOf value = .ok type)
  returned : n.kind = .returnStmt → ∀ m, s.table.method? s.method = some m → m.returnType.isArray = true →
    ∀ e ∈ n.children, s.Settles e
  passed : ∀ attributes receiver args p name m, n = ⟨.call, attributes, receiver :: args, p⟩ → n.name = .ok name →
    s.table.method? name = some m → s.typeOf receiver = .ok s.table.classType →
    ∀ pair ∈ m.fixed.zip args, pair.1.type.isArray = true → s.Settles pair.2

namespace KeepsTypes
variable {s} {n : Node}

theorem of_other (hliteral : n.kind ≠ .arrayLiteral) (haccess : n.kind ≠ .arrayAccess) (hassign : n.kind ≠ .assign)
    (hreturn : n.kind ≠ .returnStmt) (hcall : n.kind ≠ .call) : s.KeepsTypes n where
  literals h := absurd h hliteral
  indexed h := absurd h haccess
  assigned h := absurd h hassign
  returned h := absurd h hreturn
  passed _ _ _ _ _ _ heq := absurd (congrArg Node.kind heq) hcall

theorem of_literal (hkind : n.kind = .arrayLiteral)
    (h : n.attributes = {} → ∀ c ∈ n.children.head?, s.typeOf c ≠ .ok .any) : s.KeepsTypes n where
  literals _ := h
  indexed h := by simp [hkind] at h
  assigned h := by simp [hkind] at h
  returned h := by simp [hkind] at h
  passed _ _ _ _ _ _ heq := by simp [heq] at hkind

theorem of_access (hkind : n.kind = .arrayAccess) (h : ∀ array ∈ n.children.head?, s.Settles array) : s.KeepsTypes n where
  literals h := by simp [hkind] at h
  indexed _ := h
  assigned h := by simp [hkind] at h
  returned h := by simp [hkind] at h
  passed _ _ _ _ _ _ heq := by simp [heq] at hkind

theorem of_assign (hkind : n.kind = .assign)
    (h : ∀ target value type, n.children = [target, value] → s.typeOf target = .ok type → type.isArray = true →
      s.Settles value ∧ (value.kind = .arrayLiteral → s.typeOf value = .ok type)) : s.KeepsTypes n where
  literals h := by simp [hkind] at h
  indexed h := by simp [hkind] at h
  assigned _ := h
  returned h := by simp [hkind] at h
  passed _ _ _ _ _ _ heq := by simp [heq] at hkind

theorem of_return (hkind : n.kind = .returnStmt)
    (h : ∀ m, s.table.method? s.method = some m → m.returnType.isArray = true → ∀ e ∈ n.children, s.Settles e) :
    s.KeepsTypes n where
  literals h := by simp [hkind] at h
  indexed h := by simp [hkind] at h
  assigned h := by simp [hkind] at h
  returned _ := h
  passed _ _ _ _ _ _ heq := by simp [heq] at hkind

theorem of_call {attributes : Assoc Attribute} {receiver : Node} {args : List Node} {p : Position}
    (h : ∀ name m, Node.name ⟨.call, attributes, receiver :: args, p⟩ = .ok name → s.table.method? name = some m →
      s.typeOf receiver = .ok s.table.classType → ∀ pair ∈ m.fixed.zip args, pair.1.type.isArray = true → s.Settles pair.2) :
    s.KeepsTypes ⟨.call, attributes, receiver :: args, p⟩ where
  literals h := by simp at h
  indexed h := by simp at h
  assigned h := by simp at h
  returned h := by simp at h
  passed attributes' receiver' args' p' name m heq hname hm hreceiver := by
    simp only [Node.mk.injEq, List.cons.injEq, true_and] at heq
    obtain ⟨rfl, ⟨rfl, rfl⟩, rfl⟩ := heq
    exact h name m hname hm hreceiver

end KeepsTypes

/-- A context with known types, in which no method is a constructor and no import is the class. -/
structure Exact : Prop extends s.Known where
  class_ne_import : s.table.isImported s.table.className = false
  no_init : s.table.method? "<init>" = none

variable {s}

theorem Replaces.settles {c c' : Node} (h : s.Replaces c c') (hc : s.Settles c) : s.Settles c' := by
  obtain ⟨type, htyped, hsettles⟩ := hc
  refine ⟨type, h.typed htyped, ?_⟩
  rintro rfl
  rw [h.core htyped]
  exact hsettles rfl

theorem exists_of_mem_zip {α : Type} {R : Node → Node → Prop} {xs : List α} {cs cs' : List Node}
    (h : List.Forall₂ R cs cs') {x : α} {c' : Node} (hmem : (x, c') ∈ xs.zip cs') : ∃ c, (x, c) ∈ xs.zip cs ∧ R c c' := by
  induction h generalizing xs with
  | nil => simp at hmem
  | @cons c d cs cs' hc hcs ih =>
    cases xs with
    | nil => simp at hmem
    | cons y ys =>
      simp only [List.zip_cons_cons, List.mem_cons, Prod.mk.injEq] at hmem ⊢
      rcases hmem with ⟨rfl, rfl⟩ | hmem
      · exact ⟨c, .inl ⟨rfl, rfl⟩, hc⟩
      · obtain ⟨c, hmem, hR⟩ := ih hmem
        exact ⟨c, .inr hmem, hR⟩

/-- No stage puts what is not known where an array is wanted. -/
theorem stable_keepsTypes : s.Stable s.KeepsTypes where
  constant c p := by
    cases c <;> exact .of_other Kind.noConfusion Kind.noConfusion Kind.noConfusion Kind.noConfusion Kind.noConfusion
  children {kind attributes cs cs' p} hcs h := by
    have htype {c c' : Node} (hc : s.Replaces c c') : s.typeOf c' = s.typeOf c := hc.retypes.typeOf_eq
    refine ⟨stable_startsKnown.children (p := p) hcs h.literals, fun hkind c' hc' => ?_,
      fun hkind target value type hcs' => ?_, fun hkind m hm harray e' he' => ?_,
      fun attributes' receiver args' q name m heq hname hm hreceiver pair hpair harray => ?_⟩
    · rcases hcs with _ | ⟨hfirst, hrest⟩
      · cases hc'
      · obtain rfl := Option.some.inj hc'
        exact hfirst.settles (h.indexed hkind _ rfl)
    · obtain rfl : cs' = [target, value] := hcs'
      rcases hcs with _ | ⟨htarget, _ | ⟨hvalue, _ | _⟩⟩
      rename_i target' value'
      intro htyped harray
      obtain ⟨hsettles, hliteral⟩ := h.assigned hkind target' value' type rfl ((htype htarget).symm.trans htyped) harray
      exact ⟨hvalue.settles hsettles, fun hkind => (htype hvalue).trans (hliteral (hvalue.literal hkind))⟩
    · obtain ⟨e, he, hreplaces⟩ := exists_of_mem_forall₂ hcs he'
      exact hreplaces.settles (h.returned hkind m hm harray e he)
    · simp only [Node.mk.injEq] at heq
      obtain ⟨rfl, rfl, rfl, rfl⟩ := heq
      rcases hcs with _ | ⟨hfirst, hrest⟩
      rename_i receiver' args
      obtain ⟨p, e'⟩ := pair
      obtain ⟨e, he, hreplaces⟩ := exists_of_mem_zip hrest hpair
      exact hreplaces.settles
        (h.passed attributes receiver' args _ name m rfl hname hm ((htype hfirst).symm.trans hreceiver) (p, e) he harray)
  call {attributes receiver before after literal name m p} hreceiver hname hm hrest hlength h := by
    refine .of_call fun name' m' hname' hm' hreceiver' pair hpair => ?_
    obtain rfl : name = name' := Except.ok.inj (hname.symm.trans hname')
    obtain rfl := Option.some.inj (hm.symm.trans hm')
    have hfixed : m.fixed.length = before.length := by simp [MethodInfo.fixed, hrest, ← hlength]
    refine h.passed attributes receiver (before ++ after) p name m rfl hname hm hreceiver pair ?_
    rw [zip_append_right hfixed] at hpair ⊢
    exact hpair
  gathered hm hrest := .of_literal rfl fun hnone => by cases hnone

/-- All arguments of a call of a method of the class keep to what is known, where arrays are wanted. -/
theorem settles_of_mem_zip {name : String} {m : MethodInfo} {receiver : Node} {args : List Node} {p : Position}
    (hnode : s.KeepsTypes ⟨.call, ⟨[("name", .text name)]⟩, receiver :: args, p⟩ ∧
      s.IsNormal ⟨.call, ⟨[("name", .text name)]⟩, receiver :: args, p⟩)
    (hm : s.table.method? name = some m) (hreceiver : Typed s receiver s.table.classType)
    (hlength : m.params.length = args.length) :
    ∀ pair ∈ m.params.zip args, pair.1.type.isArray = true → s.Settles pair.2 := by
  obtain ⟨hkeeps, hnormal⟩ := hnode
  have hfixed := hkeeps.passed _ receiver args p name m rfl rfl hm hreceiver.typeOf
  cases hrest : m.rest? with
  | none => simpa [MethodInfo.fixed, hrest] using hfixed
  | some last =>
    obtain ⟨types, htypes, -, hlast⟩ := hnormal _ receiver args p name m rfl rfl hm hreceiver.typeOf
    have hparams := MethodInfo.params_of_rest hrest
    have hnonempty : args ≠ [] := by
      rintro rfl
      rw [← hparams, List.length_append] at hlength
      cases hlength
    have hargs := List.dropLast_append_getLast hnonempty
    have hdropped : m.params.dropLast.length = args.dropLast.length := by simp [hlength]
    intro pair hpair harray
    rw [← hparams, ← hargs, List.zip_append hdropped, List.mem_append] at hpair
    rcases hpair with hpair | hpair
    · refine hfixed pair ?_ harray
      rw [MethodInfo.fixed, if_pos (by simp [hrest]), ← hargs, zip_append_right hdropped]
      exact hpair
    · -- the last argument is an array
      obtain rfl : pair = (last, args.getLast hnonempty) := by simpa using hpair
      have hisArray := hlast (by simp [hrest]) _ (List.getLast?_eq_getLast_of_ne_nil hnonempty)
      refine ⟨_, htypes _ (List.getLast_mem hnonempty), fun heq => ?_⟩
      simp [heq, Ty.any] at hisArray

end Context

/-! ## Operands -/

theorem SymbolTable.elementWanted_eq {wanted : Ty} (hany : wanted ≠ .any) (hvoid : wanted ≠ .void)
    (harray : wanted.isArray = false) : elementWanted (some wanted) = wanted := by
  simp [elementWanted, hany, hvoid, harray]

theorem SymbolTable.base_elementWanted (expected : Option Ty) : (elementWanted expected).base = elementWanted expected := by
  unfold elementWanted
  split
  · split
    · rfl
    · rename_i hother
      simp only [not_or, Bool.not_eq_true] at hother
      exact (Ty.eq_mk rfl hother.2.2).symm
  · rfl

theorem SymbolTable.askedType_some {wanted : Ty} (hany : wanted ≠ .any) : askedType (some wanted) = wanted := by
  simp [askedType, Option.filter, hany]

namespace Context
variable {s : Context} {P : Node → Prop} {kind : Kind} {expected : Option Ty} {type t wanted : Ty} {e : Node} {code : Element}

/-- A value has the type of its expression if that is known, that which is wanted of a call of an unknown method, and
that of the elements that are wanted of an array that is not known. -/
theorem Gives.type_cases (hstrict : s.strict = true) (hP : ∀ n, P n → s.KeepsTypes n) (h : s.Gives P kind expected type code)
    (hcode : code.type = .ok t) :
    t = type ∧ type ≠ .any ∨ (type = .any ∨ type = .int) ∧ t = SymbolTable.askedType expected ∨
      kind = .arrayAccess ∧ type = .any ∧ t = SymbolTable.elementWanted expected := by
  cases h with
  | int i => exact .inl ⟨(Except.ok.inj hcode).symm, by decide⟩
  | boolean b => exact .inl ⟨(Except.ok.inj hcode).symm, by decide⟩
  | var name hknown => exact .inl ⟨(Except.ok.inj hcode).symm, hknown hstrict⟩
  | foreign name htype hexpected => exact .inr (.inl ⟨htype, (Except.ok.inj hcode).symm⟩)
  | @element expected name array index p code elementType hnode harray hgives htype =>
    refine .inr (.inr ⟨rfl, rfl, ?_⟩)
    obtain rfl := Except.ok.inj hcode
    -- what is indexed is no element of what is not known
    obtain ⟨type', htyped, hsettles⟩ := (hP _ hnode).indexed rfl array rfl
    have hkind := hsettles (Except.ok.inj (htyped.typeOf.symm.trans harray.typeOf))
    have hasked : elementType = (SymbolTable.elementWanted expected).arrayOf := by
      generalize array.coreKind = kind at hkind hgives
      generalize hwanted : some (SymbolTable.elementWanted expected).arrayOf = wanted at hgives
      generalize hany : Ty.any = type at hgives
      cases hgives with
      | int i => exact absurd hany (by decide)
      | boolean b => exact absurd hany (by decide)
      | var name hknown => exact absurd hany.symm (hknown hstrict)
      | foreign name _ _ =>
        rw [← Except.ok.inj htype, ← hwanted]
        exact SymbolTable.askedType_some (by simp [Ty.arrayOf, Ty.any])
      | element => exact absurd rfl hkind
      | importRef himport hlax => simp [hstrict] at hlax
      | nothing => cases htype
      | discarded hexpected => cases htype
    rw [hasked]
    exact SymbolTable.base_elementWanted expected
  | importRef himport hlax => simp [hstrict] at hlax
  | nothing => cases hcode
  | discarded htype => cases hcode

/-- Where a value is wanted there is one. -/
theorem Gives.exists_type (h : s.Gives P kind (some wanted) type code) (hwanted : wanted ≠ .void) (htype : type ≠ .void) :
    ∃ t, code.type = .ok t := by
  cases h with
  | nothing => exact absurd rfl htype
  | discarded _ => exact absurd rfl hwanted
  | _ => exact ⟨_, rfl⟩

theorem moves_of_compatible {table : SymbolTable} (h : table.compatible wanted type = true) (hwanted : wanted ≠ .any)
    (htype : type ≠ .any) : table.Moves wanted type := by
  simp only [SymbolTable.compatible, Ty.assignable, hwanted, htype, decide_false, Bool.false_or, Bool.or_eq_true,
    decide_eq_true_eq, Bool.and_eq_true, Bool.not_eq_true'] at h
  rcases h with h | ⟨⟨⟨harray, hvalue⟩, hname⟩, hsuper⟩
  · exact .inl h.symm
  · exact .inr ⟨Ty.eq_mk hname hvalue, harray, hsuper⟩

theorem compatible_of_assignable {table : SymbolTable} (h : Ty.assignable wanted type = true) :
    table.compatible wanted type = true := by
  rw [SymbolTable.compatible, h, Bool.true_or]

/-- An operand that is wanted of a type has that type. -/
theorem Operand.moves (hs : s.Exact) (hP : ∀ n, P n → s.KeepsTypes n) (h : s.Operand P (some wanted) e type code)
    (hwanted : wanted.IsKnown) (hvoid : wanted ≠ .void) (hfit : s.table.compatible wanted type = true)
    (hsettles : wanted.isArray = true → s.Settles e) : s.table.MovesTo (.ok wanted) code.type := by
  have hany : wanted ≠ .any := fun heq => hwanted.1 (congrArg Ty.name heq)
  have htype : type ≠ .void := by
    rintro rfl
    rcases moves_of_compatible hfit hany (by decide) with heq | ⟨heq, -⟩
    · exact hvoid heq.symm
    · exact hs.declared.class_ne_void heq.symm
  obtain ⟨t, ht⟩ := h.gives.exists_type hvoid htype
  refine ⟨wanted, t, rfl, ht, ?_⟩
  rcases h.gives.type_cases hs.strict hP ht with ⟨rfl, hne⟩ | ⟨-, rfl⟩ | ⟨hkind, rfl, rfl⟩
  · exact moves_of_compatible hfit hany hne
  · exact .inl (SymbolTable.askedType_some hany)
  · cases harray : wanted.isArray with
    | false => exact .inl (SymbolTable.elementWanted_eq hany hvoid harray)
    | true =>
      obtain ⟨type', htyped, hnot⟩ := hsettles harray
      exact absurd hkind (hnot (Except.ok.inj (htyped.typeOf.symm.trans h.typed.typeOf)))

/-- An operand whose type is that of the class is an object of the class. -/
theorem Operand.type_of_class (hs : s.Exact) (hP : ∀ n, P n → s.KeepsTypes n) (h : s.Operand P none e type code)
    (hcode : code.type = .ok s.table.classType) : type = s.table.classType := by
  have hint : s.table.classType ≠ .int := fun heq => by
    have hreference := hs.regular.classType
    rw [heq] at hreference
    cases hreference
  rcases h.gives.type_cases hs.strict hP hcode with ⟨heq, -⟩ | ⟨-, heq⟩ | ⟨-, -, heq⟩
  · exact heq.symm
  · exact absurd heq hint
  · exact absurd heq hint

/-! ## Instructions -/

variable {i : Instruction} {invocation : Invocation} {target : Element} {name : String} {codes : List Element}

theorem Passes.length_args {params : List Symbol} {args : List Node} (h : s.Passes P params args codes) :
    params.length = args.length := by
  induction h with
  | nil => rfl
  | cons hcode hfit hrest ih => simp [ih]

theorem Passes.moves (hs : s.Exact) (hP : ∀ n, P n → s.KeepsTypes n) {params : List Symbol} {args : List Node}
    (h : s.Passes P params args codes) (hparams : ∀ p ∈ params, p.type.IsKnown ∧ p.type ≠ .void)
    (hsettles : ∀ pair ∈ params.zip args, pair.1.type.isArray = true → s.Settles pair.2) :
    List.Forall₂ (fun p arg => s.table.MovesTo (.ok p.type) arg.type) params codes := by
  induction h with
  | nil => exact .nil
  | @cons p e type code params args codes hcode hfit hrest ih =>
    obtain ⟨hfirst, hmore⟩ := List.forall_mem_cons.1 hparams
    rw [List.zip_cons_cons] at hsettles
    obtain ⟨hhead, htail⟩ := List.forall_mem_cons.1 hsettles
    exact .cons (hcode.moves hs hP hfirst.1 hfirst.2 (compatible_of_assignable hfit) hhead) (ih hmore htail)

/-- The arguments of calls on the class have the types of the parameters. -/
theorem Calls.passesTyped (hs : s.Exact)
    (h : s.Calls (fun n => s.KeepsTypes n ∧ s.IsNormal n) invocation target name codes type) :
    s.table.PassesTyped target (some name) codes := by
  have hP : ∀ n, s.KeepsTypes n ∧ s.IsNormal n → s.KeepsTypes n := fun _ hn => hn.1
  intro name' m' heq hm' htarget
  obtain rfl : name = name' := Option.some.inj heq
  have hown {m : MethodInfo} {receiver : Node} {args : List Node} {p : Position}
      (hnode : s.KeepsTypes ⟨.call, ⟨[("name", .text name)]⟩, receiver :: args, p⟩ ∧
        s.IsNormal ⟨.call, ⟨[("name", .text name)]⟩, receiver :: args, p⟩)
      (hm : s.table.method? name = some m) (hreceiver : Typed s receiver s.table.classType)
      (hcodes : s.Passes (fun n => s.KeepsTypes n ∧ s.IsNormal n) m.params args codes) :
      List.Forall₂ (fun p arg => s.table.MovesTo (.ok p.type) arg.type) m'.params codes := by
    obtain rfl := Option.some.inj (hm.symm.trans hm')
    exact hcodes.moves hs hP (hs.params name m hm) (settles_of_mem_zip hnode hm hreceiver hcodes.length_args)
  cases h with
  | static hnode hm hreceiver hstatic hcodes => exact hown hnode hm hreceiver hcodes
  | own hnode hm hreceiver hcodes => exact hown hnode hm hreceiver.typed hcodes
  | ownImport hnode hm hclass hcodes => exact absurd (congrArg Ty.name hclass) hs.declared.known.1
  | foreign hnode hreceiver hother hlength hcodes =>
    exact absurd (hreceiver.type_of_class hs hP htarget) (hother (by simp [hm']))
  | @imported _ imported _ _ _ _ _ hnode himport hcodes =>
    have hname : imported = s.table.className := congrArg Ty.name (Except.ok.inj htarget)
    have himported := himport.2.2
    rw [hname, hs.class_ne_import] at himported
    cases himported

/-- What is computed into a temporary has the type of the temporary. -/
theorem Computes.movesTyped (returnType : Ty) (hs : s.Exact) (h : s.Computes (fun n => s.KeepsTypes n ∧ s.IsNormal n) i type) :
    i.valueType = .ok type ∧ s.table.MovesTyped returnType i := by
  cases h with
  | call hcall hvalue => exact ⟨rfl, hcall.passesTyped hs⟩
  | newArray | literal | newObject | length => exact ⟨rfl, nofun⟩
  | _ => exact ⟨rfl, trivial⟩

theorem movesTo_refl {table : SymbolTable} (t : Ty) : table.MovesTo (.ok t) (.ok t) := ⟨t, t, rfl, rfl, .inl rfl⟩

/-- What is assigned to a place of a type has that type. -/
theorem Operand.moves_assigned (hs : s.Exact) (hP : ∀ n, P n → s.KeepsTypes n) {p q : Position}
    (h : s.Operand P (some wanted) e type code) (hnode : P ⟨.assign, {}, [⟨.varRef, ⟨[("name", .text name)]⟩, [], p⟩, e], q⟩)
    (hvariable : s.HasVariable name) (hwanted : s.variableType name = wanted) (hassigns : s.Assigns wanted e) :
    s.table.MovesTo (.ok wanted) code.type := by
  obtain ⟨hknown, hvoid⟩ := hs.declared.names name hvariable
  rw [hwanted] at hknown hvoid
  have htarget : s.typeOf ⟨.varRef, ⟨[("name", .text name)]⟩, [], p⟩ = .ok wanted := hwanted ▸ rfl
  have hassigned := (hP _ hnode).assigned rfl _ e wanted rfl htarget
  refine h.moves hs hP hknown hvoid ?_ fun harray => (hassigned harray).1
  cases hassigns with
  | whole hvalue hfit =>
    obtain rfl := Except.ok.inj (hvalue.typeOf.symm.trans h.typed.typeOf)
    exact hfit
  | elementwise hvalue hkind harray helements hfit =>
    obtain rfl := Except.ok.inj (((hassigned harray).2 hkind).symm.trans h.typed.typeOf)
    simp [SymbolTable.compatible, Ty.assignable]

/-- Every value that an instruction moves has the type of its destination. -/
theorem Makes.movesTyped (hs : s.Exact) {m : MethodInfo} (hm : s.table.method? s.method = some m)
    (h : s.Makes (fun n => s.KeepsTypes n ∧ s.IsNormal n) m.returnType i) : s.table.MovesTyped m.returnType i := by
  have hP : ∀ n, s.KeepsTypes n ∧ s.IsNormal n → s.KeepsTypes n := fun _ hn => hn.1
  have hboolean {e : Node} {type : Ty} {code : Element}
      (hcode : s.Operand (fun n => s.KeepsTypes n ∧ s.IsNormal n) (some .boolean) e type code)
      (hfit : Ty.assignable .boolean type = true) : s.table.MovesTo (.ok .boolean) code.type :=
    hcode.moves hs hP (by decide) (by decide) (compatible_of_assignable hfit) fun harray => absurd harray (by decide)
  have hbase {t : Ty} {e : Node} (h : t.base.isArray = true) : s.Settles e := by simp [Ty.base] at h
  cases h with
  | temp name hvalue =>
    obtain ⟨htype, hmoves⟩ := hvalue.movesTyped (m.returnType) hs
    exact ⟨htype ▸ movesTo_refl _, hmoves⟩
  | init temp name =>
    intro name' m' heq hm'
    obtain rfl : "<init>" = name' := Option.some.inj heq
    simp [hs.no_init] at hm'
  | truth name hcode hfit => exact ⟨hboolean hcode hfit, trivial⟩
  | falsity name => exact ⟨movesTo_refl _, trivial⟩
  | @put literal e literalType type code array index hliteral hevery harray hcode hfit hadmits =>
    have hknown := (hliteral.isKnown_or_any hs.toKnown (hevery.imp fun n hn => (hP n hn).literals)).resolve_left fun heq => by
      simp [heq, Ty.any] at harray
    have helement : literalType.base.IsKnown ∧ literalType.base ≠ .void :=
      ⟨⟨hknown.1, by simp [Ty.base]⟩, fun heq => hknown.2 (Ty.eq_mk (congrArg Ty.name heq) harray)⟩
    exact ⟨hcode.moves hs hP helement.1 helement.2 (compatible_of_assignable hfit) hbase, trivial⟩
  | call hcall => exact hcall.passesTyped hs
  | test label h => trivial
  | goto label => trivial
  | label name => trivial
  | assign hnode hname hcode hassigns =>
    exact ⟨hcode.moves_assigned hs hP hnode (.inl (by simp [hname])) (hs.unshadowed.variableType_binding hname) hassigns, trivial⟩
  | update hname hop hother hliteral hwanted hfit => exact ⟨movesTo_refl _, trivial⟩
  | putField hnode hf hinstance hcode hassigns =>
    exact hcode.moves_assigned hs hP hnode (.inr ⟨by simp [hf], hinstance⟩) (variableType_field hf) hassigns
  | @store e e' e'' type indexType valueType elementType array index code name harray htype hknown hname helement
      hindex hint hcode hfit =>
    have hisArray := htype.resolve_left (hknown hs.strict)
    obtain rfl := harray.gives.type_of_array hisArray helement
    have harray := (harray.typed.isKnown_or_any hs.toKnown (harray.every.imp fun n hn => (hP n hn).literals)).resolve_left
      (hknown hs.strict)
    have hvoid : type.base ≠ .void := fun heq => harray.2 (Ty.eq_mk (congrArg Ty.name heq) hisArray)
    exact ⟨hcode.moves hs hP ⟨harray.1, by simp [Ty.base]⟩ hvoid (compatible_of_assignable (hfit hisArray)) hbase, trivial⟩
  | ret hnode hcode hvoid hfit =>
    refine ⟨rfl, fun _ => hcode.moves hs hP (hs.declared.results _ m hm) hvoid hfit fun harray => ?_⟩
    exact hnode.1.returned rfl m hm harray _ (by simp)
  | retNothing hvoid => exact ⟨hvoid.symm, fun h => absurd hvoid h⟩

end Context
end JmmCompiler

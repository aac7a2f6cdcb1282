import JmmCompiler.Proofs.Freshness
import JmmCompiler.Proofs.LoweredCode
import JmmCompiler.Proofs.NormalCalls
import JmmCompiler.Proofs.Returns
/-! Static types and the types of lowered values. The two are computed by two recursions over the same trees, one of which
passes wanted types down; where the static type is known, the value has it. -/
namespace JmmCompiler

/-- A value of a type. The value of a void call is absent. -/
def Element.IsOf (code : Element) (type : Ty) : Prop := code = .absent ∧ type = .void ∨ code.type = .ok type

namespace SymbolTable
open Lower
variable {t : SymbolTable} {method : String} {expected : Option Ty} {ns ns' : Names} {l : Lowered} {type : Ty}

variable (t method) in
/-- A node that is no call of `length` without arguments, unless on an array. -/
def MeasuresArrays (n : Node) : Prop :=
  ∀ receiver type, n.kind = .call → n.name = .ok "length" → n.children = [receiver] →
    t.typeOf (some method) receiver = .ok type → type.isArray = true

variable (t method) in
/-- No parameter and no local variable of a method has the name of a field. -/
def Unhidden : Prop := ∀ name v, t.binding? (some method) name = some v → t.field? name = none

theorem yields_type_intoTemp (before : List Instruction) (type : Ty) (value : Instruction) :
    Yields (intoTemp before type value) fun l => l.code.type = .ok type := .last fun _ => .pure rfl

theorem yields_isOf_intoTemp (before : List Instruction) (type : Ty) (value : Instruction) :
    Yields (intoTemp before type value) (·.code.IsOf type) := .last fun _ => .pure (.inr rfl)

/-- A variable is lowered to a value of its type, unless that is not known. -/
theorem yields_type_lowerVariable {name : String} (hs : t.Unhidden method)
    (htype : t.variableType? (some method) name = some type) :
    Yields (t.lowerVariable method name) fun l => l.code.type = .ok type := by
  intro ns l ns' hrun
  unfold variableType? at htype
  cases leaves_reading name ns l ns' hrun with
  | @binding v hbinding =>
    rw [hs name v hbinding, Option.none_or, ← binding?, hbinding] at htype
    exact congrArg Except.ok (Option.some.inj htype)
  | field hbinding hfield hv =>
    rw [hfield, Option.some_or, Option.some_or] at htype
    exact Option.some.inj htype ▸ (yields_type_intoTemp _ _ _).of_run hv
  | imported hbinding hfield himported =>
    rw [hfield, Option.none_or, ← binding?, hbinding] at htype
    cases htype

/-- A call has the type that the method of the class returns, or that of a call of another class. -/
theorem typeOf_call_cases {attributes : Assoc Attribute} {receiver : Node} {args : List Node} {p : Position} {name : String}
    {own : Bool} (hname : Node.name ⟨.call, attributes, receiver :: args, p⟩ = .ok name)
    (hown : t.isOwnCall (some method) name receiver = .ok own)
    (htype : t.typeOf (some method) ⟨.call, attributes, receiver :: args, p⟩ = .ok type) :
    (own = true ∧ ∃ m, t.method? name = some m ∧ type = m.returnType) ∨ own = false ∧ type = Ty.foreign name args := by
  have hname' : Node.name ⟨.call, attributes, [], p⟩ = .ok name := hname
  rw [typeOf_receiver, hname', ok_bind] at htype
  unfold isOwnCall hasMethod at hown
  cases hm : t.method? name with
  | none =>
    rw [hm] at htype hown
    exact .inr ⟨(Except.ok.inj hown).symm, (Except.ok.inj htype).symm⟩
  | some m =>
    rw [hm] at htype hown
    simp only [bind_eq_ok, pure_eq_ok] at htype
    obtain ⟨receiverType, hreceiver, rfl⟩ := htype
    rw [Option.isSome_some, if_pos rfl, t.isOwnReceiver_eq _ hreceiver, Except.ok.injEq] at hown
    by_cases hclass : receiverType = t.classType
    · exact .inl ⟨by rw [← hown, decide_eq_true hclass], m, rfl, if_pos hclass⟩
    · exact .inr ⟨by rw [← hown, decide_eq_false hclass], if_neg hclass⟩

/-- A call gives a value of its type. -/
theorem Calling.isOf {before : List Instruction} {call : Instruction} (h : Calling before call type ns l ns') :
    l.code.IsOf type := by
  cases h with
  | discarded hvoid => exact .inl ⟨rfl, hvoid⟩
  | kept hvoid hvalue => exact (yields_isOf_intoTemp _ _ _).of_run hvalue

theorem kind_ne_of_typeOf {n : Node} (h : t.typeOf (some method) n = .ok type) : n.kind ≠ .methodDecl := by
  obtain ⟨kind, attributes, children, position⟩ := n
  rintro rfl
  cases h

section
variable {attributes : Assoc Attribute} {children : List Node} {p : Position} {name : String}

/-- A name whose type is known is that of a variable of this type. -/
theorem variableType?_of_typeOf (hname : Node.name ⟨.varRef, attributes, children, p⟩ = .ok name)
    (htype : t.typeOf (some method) ⟨.varRef, attributes, children, p⟩ = .ok type) (hknown : type ≠ .any) :
    t.variableType? (some method) name = some type := by
  have htype' : (do return (t.variableType? (some method) (← Node.name ⟨.varRef, attributes, children, p⟩)).getD .any :
      Except Failure Ty) = .ok type := htype
  rw [hname, ok_bind, pure_eq_ok] at htype'
  cases hvariable : t.variableType? (some method) name with
  | none => exact absurd (by rw [← htype', hvariable]; rfl) hknown
  | some u =>
    rw [hvariable] at htype'
    exact congrArg some htype'

theorem eq_of_typeOf_newObject (hname : Node.text ⟨.newObject, attributes, children, p⟩ "name" = .ok name)
    (htype : t.typeOf (some method) ⟨.newObject, attributes, children, p⟩ = .ok type) : type = ⟨name, false⟩ := by
  have htype' : (do return ⟨← Node.text ⟨.newObject, attributes, children, p⟩ "name", false⟩ : Except Failure Ty) =
      .ok type := htype
  rw [hname, ok_bind, pure_eq_ok] at htype'
  exact htype'.symm

theorem eq_of_typeOf_newArray (hname : Node.name ⟨.newArray, attributes, children, p⟩ = .ok name)
    (htype : t.typeOf (some method) ⟨.newArray, attributes, children, p⟩ = .ok type) : type = ⟨name, true⟩ := by
  have htype' : (do return ⟨← Node.name ⟨.newArray, attributes, children, p⟩, true⟩ : Except Failure Ty) = .ok type :=
    htype
  rw [hname, ok_bind, pure_eq_ok] at htype'
  exact htype'.symm

/-- The type of an element is known only where that of the array is. -/
theorem exists_of_typeOf_arrayAccess {array : Node}
    (htype : t.typeOf (some method) ⟨.arrayAccess, attributes, array :: children, p⟩ = .ok type) (hknown : type ≠ .any) :
    ∃ u, t.typeOf (some method) array = .ok u ∧ u ≠ .any ∧ type = u.base := by
  have htype' : (do
      let u ← t.typeOf (some method) array
      return if u = .any then .any else u.base : Except Failure Ty) = .ok type := htype
  simp only [bind_eq_ok, pure_eq_ok] at htype'
  obtain ⟨u, hu, rfl⟩ := htype'
  have hany : u ≠ .any := fun heq => hknown (if_pos heq)
  exact ⟨u, hu, hany, if_neg hany⟩

/-- An operator has the type of its results, whatever its operands are. -/
theorem eq_resultType_of_typeOf {op : String} {o : Operator}
    (hop : Node.op ⟨.binary, attributes, children, p⟩ = .ok op) (ho : Operator.ofSymbol? op = some o)
    (htype : t.typeOf (some method) ⟨.binary, attributes, children, p⟩ = .ok type) : type = o.resultType := by
  have hop' : Node.op ⟨.binary, attributes, [], p⟩ = .ok op := hop
  rw [typeOf.eq_def] at htype
  dsimp only at htype
  rw [hop', ok_bind, ho] at htype
  exact (Except.ok.inj htype).symm

end

/-- Where the type of an expression is known, its value has that type. Only what is taken for a number because of its name
has to be one. -/
theorem yields_isOf (hs : t.Unhidden method) (n : Node) (expected : Option Ty) (htype : t.typeOf (some method) n = .ok type)
    (hknown : type ≠ .any) (hmeasures : type = .int → n.Everywhere (t.MeasuresArrays method)) :
    Yields (t.lower method expected n) (·.code.IsOf type) := by
  induction n using Node.induction_children generalizing expected type with
  | step n ih =>
    intro ns v ns' hrun
    obtain ⟨kind, attributes, children, position⟩ := n
    have hpart {c : Node} {u : Ty} (hc : c ∈ children) (hu : t.typeOf (some method) c = .ok u)
        (h : u = .int → type = .int) : u = .int → c.Everywhere (t.MeasuresArrays method) := fun hint =>
      (hmeasures (h hint)).child hc (kind_ne_of_typeOf hu)
    cases leaves_lowering expected _ ns v ns' hrun with
    | intLiteral hkind hvalue hi =>
      obtain rfl : kind = .intLiteral := hkind
      exact .inr htype
    | boolLiteral hkind hvalue =>
      obtain rfl : kind = .boolLiteral := hkind
      exact .inr htype
    | thisRef hkind =>
      obtain rfl : kind = .thisRef := hkind
      exact .inr htype
    | varRef hkind hname hv =>
      obtain rfl : kind = .varRef := hkind
      exact .inr ((yields_type_lowerVariable hs (variableType?_of_typeOf hname htype hknown)).of_run hv)
    | @paren inner _ _ _ hkind hchildren hv =>
      obtain rfl : kind = .paren := hkind
      obtain rfl : children = _ := hchildren
      exact (ih inner (by simp) expected htype hknown (hpart (by simp) htype id)).of_run hv
    | and hkind hop hchildren hlabel hl hr htemp =>
      obtain rfl : kind = .binary := hkind
      obtain rfl : type = (Operator.logical .and).resultType := eq_resultType_of_typeOf hop rfl htype
      exact .inr rfl
    | binary hkind hop hand ho hchildren hl hr hv =>
      obtain rfl : kind = .binary := hkind
      rw [eq_resultType_of_typeOf hop ho htype]
      exact (yields_isOf_intoTemp _ _ _).of_run hv
    | unary hkind hop hchildren hu hv =>
      obtain rfl : kind = .unary := hkind
      obtain rfl : Ty.boolean = type := Except.ok.inj htype
      exact (yields_isOf_intoTemp _ _ _).of_run hv
    | newObject hkind hname htemp =>
      obtain rfl : kind = .newObject := hkind
      obtain rfl := eq_of_typeOf_newObject hname htype
      exact .inr rfl
    | newArray hkind hname hchildren hu hv =>
      obtain rfl : kind = .newArray := hkind
      obtain rfl := eq_of_typeOf_newArray hname htype
      exact (yields_isOf_intoTemp _ _ _).of_run hv
    | arrayLiteral hkind htype' harray hname hstores =>
      obtain rfl : kind = .arrayLiteral := hkind
      obtain rfl := Except.ok.inj (htype.symm.trans htype')
      have harray := (yields_type_intoTemp _ _ _).of_run harray
      obtain ⟨name, isArray⟩ := type
      obtain rfl : isArray = true := isArray_of_literal rfl htype
      exact .inr harray
    | @arrayAccess array index _ _ _ _ arrayType _ _ _ _ hkind hchildren ha hi harrayType hname hv =>
      obtain rfl : kind = .arrayAccess := hkind
      obtain rfl : children = _ := hchildren
      obtain ⟨u, hu, hany, rfl⟩ := exists_of_typeOf_arrayAccess htype hknown
      have hpart := hpart (by simp) hu (by rintro rfl; rfl)
      obtain ⟨habsent, -⟩ | hcode := (ih array (by simp) _ hu hany hpart).of_run ha
      · rw [habsent] at harrayType
        cases harrayType
      · obtain rfl := Except.ok.inj (hcode.symm.trans harrayType)
        exact (yields_isOf_intoTemp _ _ _).of_run hv
    | length hkind hchildren ha hv =>
      obtain rfl : kind = .length := hkind
      obtain rfl : Ty.int = type := Except.ok.inj htype
      exact (yields_isOf_intoTemp _ _ _).of_run hv
    | lengthCall hkind hname hchildren hown htype' harray ha hv =>
      obtain rfl : kind = .call := hkind
      obtain rfl : children = _ := hchildren
      obtain ⟨hcontra, -⟩ | ⟨-, rfl⟩ := typeOf_call_cases hname hown htype
      · cases hcontra
      · exact (yields_isOf_intoTemp _ _ _).of_run hv
    | @call name _ receiver args own _ _ _ _ _ _ _ _ _ _ hkind hname hname? hchildren hown hlength htarget hsignature
        hargs hv =>
      obtain rfl : kind = .call := hkind
      obtain rfl : children = _ := hchildren
      obtain ⟨rfl, m, hm, rfl⟩ | ⟨rfl, rfl⟩ := typeOf_call_cases hname hown htype
      · obtain ⟨-, m', hm', rfl⟩ | ⟨hcontra, -⟩ := callSignature_cases hsignature
        · rw [SymbolTable.method, hm] at hm'
          exact Except.ok.inj hm' ▸ hv.isOf
        · cases hcontra
      · -- the only call of another class whose type is known is that of `length`, and it is lowered as one of an array
        obtain ⟨rfl, rfl⟩ : name = "length" ∧ args = [] := by
          by_contra hother
          exact hknown (if_neg hother)
        obtain ⟨u, hu, hother⟩ := hlength rfl rfl rfl
        have harray : u.isArray = true := (hmeasures rfl).here receiver u rfl hname rfl hu
        cases harray.symm.trans hother

/-- In a method where no parameter and no local variable has the name of a field, an expression without a call of `length`
on what is no array has a static type that is not known, or is lowered to a value of its static type, whatever type is wanted
and whatever names are free. -/
theorem lower_keeps_type (t : SymbolTable) (method : String) (hs : t.Unhidden method) (e : Node)
    (he : ∀ v ∈ e.preorder, t.MeasuresArrays method v.2) (expected : Option Ty) (ns : Names) :
    ∀ l ns' type, (t.lower method expected e).run ns = .ok (l, ns') → t.typeOf (some method) e = .ok type →
      type = .any ∨ (l.code = .absent ∧ type = .void ∨ l.code.type = .ok type) := fun _ _ _ h htype =>
  or_iff_not_imp_left.2 fun hknown =>
    yields_isOf hs e expected htype hknown (fun _ => Node.everywhere_at he (show e.at? [] = some e from rfl)) _ _ _ h

/-- An element of the array that a method of the class returns, whose argument is not known. -/
theorem lower_keeps_type_indexed :
    let t : SymbolTable := ⟨"A", none, ["Io"], [⟨"a", .intArray⟩],
      [⟨"g", .intArray, [⟨"k", .boolean⟩], [], false, false, false⟩, ⟨"f", .int, [⟨"n", .int⟩], [], false, false, false⟩]⟩
    let name (s : String) : Assoc Attribute := ⟨[("name", .text s)]⟩
    let p : Position := ⟨1, 1⟩
    let argument : Node := ⟨.call, name "m", [⟨.varRef, name "Io", [], p⟩, ⟨.varRef, name "a", [], p⟩], p⟩
    let e : Node := ⟨.arrayAccess, {}, [⟨.call, name "g", [⟨.thisRef, {}, [], p⟩, argument], p⟩,
      ⟨.varRef, name "n", [], p⟩], p⟩
    ∃ l ns', t.Unhidden "f" ∧ (∀ v ∈ e.preorder, t.MeasuresArrays "f" v.2) ∧
      (t.lower "f" none e).run {} = .ok (l, ns') ∧ t.typeOf (some "f") argument = .ok .any ∧
      t.typeOf (some "f") e = .ok .int ∧ l.code.type = .ok .int := by
  intro t name p argument e
  have hs : t.Unhidden "f" := fun x v hv => by
    have hx : x ≠ "a" := by
      rintro rfl
      cases hv
    simp [t, field?, Symbol.lookup?, hx.symm]
  have hmeasures : ∀ v ∈ e.preorder, t.MeasuresArrays "f" v.2 := by
    have hnames : e.preorder.all (fun v => v.2.name.toOption != some "length") = true := by cbv
    intro v hv receiver type _ hname
    have hother := List.all_eq_true.1 hnames v hv
    simp [hname, Except.toOption] at hother
  obtain ⟨⟨l, ns'⟩, h, -⟩ := exists_of_toOption (show ((t.lower "f" none e).run {}).toOption.map (fun _ => ()) = some ()
    by cbv)
  have hvalue := lower_keeps_type t "f" hs e hmeasures none {} l ns' .int h (by cbv)
  exact ⟨l, ns', hs, hmeasures, h, by cbv, by cbv, by simpa [Ty.int, Ty.any, Ty.void] using hvalue⟩

end SymbolTable
end JmmCompiler

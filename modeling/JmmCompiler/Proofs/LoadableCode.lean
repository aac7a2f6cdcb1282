import JmmCompiler.Proofs.Emittable
import JmmCompiler.Proofs.LivePaths
import JmmCompiler.Proofs.LoweredStatements
/-! Code that can be emitted. Where types are known and no void call is taken for a value, every operand of an instruction is
a literal or a variable, so that no stage after lowering misses one. -/
namespace JmmCompiler

/-! ## Loadable code -/

namespace Element

/-- An element that can be loaded if its variables have slots. -/
def Loadable : Element → Prop
  | literal .. | var .. => True
  | item _ _ index => index.Loadable
  | classRef .. | absent => False

/-- A place that a value can be stored in. -/
def Storable : Element → Prop
  | var .. => True
  | item _ _ index => index.Loadable
  | _ => False

/-- What a call needs as its receiver. -/
def Receives (e : Element) : Invocation → Prop
  | .new => e = .absent ∨ ∃ name type, e = .classRef name type
  | .static => ∃ name type, e = .classRef name type
  | .virtual | .special | .arrayLength => e.Loadable

variable {e : Element} {s : Jasmin.Scope}

theorem Loadable.isPresent (h : e.Loadable) : e.isPresent = true := by
  induction e with
  | item array type index ih => exact ih h
  | classRef name type => exact h.elim
  | absent => exact h.elim
  | _ => rfl

theorem Loadable.loads (h : e.Loadable) {names : List String} (hnames : e.names = .ok names)
    (hslots : ∀ x ∈ names, s.HasSlot x) : s.Loads e := by
  induction e generalizing names with
  | literal n type => trivial
  | var name type =>
    obtain rfl := Except.ok.inj hnames
    exact hslots name (by simp)
  | item array type index ih =>
    simp only [Element.names, bind_eq_ok, pure_eq_ok] at hnames
    obtain ⟨more, hmore, rfl⟩ := hnames
    exact ⟨hslots array (by simp), ih h hmore fun x hx => hslots x (by simp [hx])⟩
  | classRef name type => exact h.elim
  | absent => exact h.elim

theorem Storable.isPlace (h : e.Storable) : e.isPlace = true := by
  cases e with
  | var name type => rfl
  | item array type index => exact Loadable.isPresent (e := index) h
  | _ => exact h.elim

theorem Receives.isWhole {invocation : Invocation} (h : e.Receives invocation) :
    (decide (e = .absent) || e.isPresent) = true := by
  cases invocation with
  | new =>
    rcases h with rfl | ⟨name, type, rfl⟩
    · rfl
    · rfl
  | static =>
    obtain ⟨name, type, rfl⟩ := h
    rfl
  | _ => simp [Loadable.isPresent h]

end Element

namespace Instruction

/-- A value that can be computed if the variables have slots: its operands can be loaded, operators are known, an order
compares integers and an array has one size. -/
def ComputesLoadable : Instruction → Prop
  | single e => e.Loadable
  | binary op left right _ =>
    left.Loadable ∧ right.Loadable ∧ ∃ o, Operator.ofSymbol? op = some o ∧
      ∀ c, o = .comparison c → c.isOrdering = true → left.typeOrVoid.isIntLike = true
  | unary op e _ => op = "!" ∧ e.Loadable
  | call invocation receiver _ args type =>
    (∀ a ∈ args, a.Loadable) ∧ receiver.Receives invocation ∧
      (invocation = .new → type.isArray = true → ∃ size, args = [size])
  | getField _ field => ∃ name, field.name = .ok name
  | _ => False

/-- An instruction that has lines if its variables have slots. -/
def Loadable : Instruction → Prop
  | assign dest i => dest.Storable ∧ i.ComputesLoadable
  | branch condition _ => condition.ComputesLoadable
  | putField _ field e => (∃ name, field.name = .ok name) ∧ e.Loadable
  | ret e _ => e = .absent ∨ e.Loadable
  | goto _ | nop => True
  | i => i.ComputesLoadable

variable {i : Instruction} {s : Jasmin.Scope} {ds us : List String}

theorem ComputesLoadable.isWhole (h : i.ComputesLoadable) : i.isWhole = true := by
  cases i with
  | single e => exact Element.Loadable.isPresent h
  | binary op left right type => simp [Instruction.isWhole, h.1.isPresent, h.2.1.isPresent]
  | unary op e type => exact h.2.isPresent
  | call invocation receiver method args type =>
    exact Bool.and_eq_true_iff.2 ⟨h.2.1.isWhole, List.all_eq_true.2 fun a ha => (h.1 a ha).isPresent⟩
  | getField object field => rfl
  | _ => exact h.elim

theorem Loadable.isWhole (h : i.Loadable) : i.isWhole = true := by
  cases i with
  | assign dest value => exact Bool.and_eq_true_iff.2 ⟨h.1.isPlace, h.2.isWhole⟩
  | branch condition label => exact ComputesLoadable.isWhole (i := condition) h
  | putField object field value => exact h.2.isPresent
  | ret e type =>
    rcases h with rfl | h
    · rfl
    · simp [Instruction.isWhole, h.isPresent]
  | goto label => rfl
  | nop => rfl
  | label name => exact h.elim
  | _ => exact ComputesLoadable.isWhole h

/-- A value has lines if all variables that it reads have slots. -/
theorem ComputesLoadable.emits (h : i.ComputesLoadable) (hus : i.uses = .ok us) (hslots : ∀ x ∈ us, s.HasSlot x) :
    s.ValueEmits i := by
  cases i with
  | single e => exact Element.Loadable.loads h hus hslots
  | binary op left right type =>
    simp only [uses, bind_eq_ok, pure_eq_ok] at hus
    obtain ⟨names, hnames, more, hmore, rfl⟩ := hus
    exact ⟨h.1.loads hnames fun x hx => hslots x (by simp [hx]), h.2.1.loads hmore fun x hx => hslots x (by simp [hx]), h.2.2⟩
  | unary op e type => exact ⟨h.1, h.2.loads hus hslots⟩
  | call invocation receiver method args type =>
    obtain ⟨hargs, hreceiver, hsize⟩ := h
    simp only [uses, bind_eq_ok, pure_eq_ok] at hus
    obtain ⟨names, hnames, more, hmore, rfl⟩ := hus
    have hloads : ∀ a ∈ args, s.Loads a := fun a ha => by
      obtain ⟨own, hmem, hown⟩ := exists_of_mapM hmore ha
      exact (hargs a ha).loads hown fun x hx =>
        hslots x (List.mem_append_right _ (List.mem_flatten.2 ⟨own, hmem, hx⟩))
    have hreceives (hloadable : receiver.Loadable) : s.Loads receiver := by
      refine hloadable.loads (?_ : receiver.names = .ok names) fun x hx => hslots x (List.mem_append_left _ hx)
      cases receiver with
      | absent => exact hloadable.elim
      | _ => exact hnames
    cases invocation with
    | new =>
      intro harray
      obtain ⟨size, rfl⟩ := hsize rfl harray
      exact ⟨size, rfl, hloads size (by simp)⟩
    | arrayLength => exact hreceives hreceiver
    | static =>
      obtain ⟨name, type, rfl⟩ := hreceiver
      exact ⟨⟨name, rfl⟩, hloads⟩
    | virtual => exact ⟨hreceives hreceiver, hloads⟩
    | special => exact ⟨hreceives hreceiver, hloads⟩
  | getField object field => exact h
  | _ => exact h.elim

/-- An instruction has lines if all variables that it writes and reads have slots. -/
theorem Loadable.emits (h : i.Loadable) (hds : i.defs = .ok ds) (hus : i.uses = .ok us)
    (hslots : ∀ x ∈ ds ++ us, s.HasSlot x) : s.InstructionEmits i := by
  have hread : ∀ x ∈ us, s.HasSlot x := fun x hx => hslots x (List.mem_append_right _ hx)
  cases i with
  | assign dest value =>
    obtain ⟨hdest, hvalue⟩ := h
    simp only [uses, bind_eq_ok] at hus
    obtain ⟨names, hnames, hus⟩ := hus
    cases dest with
    | var name type =>
      obtain rfl : names = us := by simpa [Element.isItem] using hus
      obtain rfl : [name] = ds := by simpa [defs, Element.name] using hds
      exact ⟨⟨name, rfl, hslots name (by simp)⟩, hvalue.emits hnames hread⟩
    | item array type index =>
      simp only [Element.isItem, if_true, bind_eq_ok, pure_eq_ok] at hus
      obtain ⟨own, hown, rfl⟩ := hus
      have hloads : s.Loads (.item array type index) :=
        Element.Loadable.loads (e := .item array type index) hdest hown fun x hx => hread x (by simp [hx])
      exact ⟨hloads.1, hloads.2, hvalue.emits hnames fun x hx => hread x (by simp [hx])⟩
    | _ => exact hdest.elim
  | branch condition label => exact ComputesLoadable.emits (i := condition) h hus hread
  | putField object field value => exact ⟨h.1, h.2.loads hus hread⟩
  | ret e type =>
    refine h.imp_right fun h => .inr (h.loads (?_ : e.names = .ok us) hread)
    cases e with
    | absent => exact h.elim
    | _ => exact hus
  | goto label => trivial
  | nop => trivial
  | label name => exact h.elim
  | single e => exact ComputesLoadable.emits (i := single e) h hus hread
  | binary op left right type => exact ComputesLoadable.emits (i := binary op left right type) h hus hread
  | unary op e type => exact ComputesLoadable.emits (i := unary op e type) h hus hread
  | call invocation receiver method args type =>
    exact ComputesLoadable.emits (i := call invocation receiver method args type) h hus hread
  | getField object field => exact ComputesLoadable.emits (i := getField object field) h hus hread

end Instruction

/-! ## Known types -/

namespace Context
variable (s : Context)

/-- A context with strict typing, with what is known of the class and of its variables. -/
structure Known : Prop where
  strict : s.strict = true
  unshadowed : s.Unshadowed
  declared : s.Declared
  regular : s.table.Regular
  params : ∀ name m, s.table.method? name = some m → ∀ p ∈ m.params, p.type.IsKnown ∧ p.type ≠ .void

/-- A node that is no array literal that starts with what is not known. -/
def StartsKnown (n : Node) : Prop :=
  n.kind = .arrayLiteral → n.attributes = {} → ∀ c ∈ n.children.head?, s.typeOf c ≠ .ok .any

/-- A node that is no call on what has no value. -/
def CallsValues (n : Node) : Prop :=
  n.kind = .call → ∀ receiver ∈ n.children.head?, s.typeOf receiver ≠ .ok .void

variable {s}

theorem typeOf_head {cs cs' : List Node} {type : Ty} (hcs : List.Forall₂ s.Replaces cs cs')
    (h : ∀ c ∈ cs.head?, s.typeOf c ≠ .ok type) : ∀ c ∈ cs'.head?, s.typeOf c ≠ .ok type := by
  intro c hc
  rcases hcs with _ | ⟨hfirst, hrest⟩
  · cases hc
  · obtain rfl := Option.some.inj hc
    have htype : s.typeOf _ = s.typeOf _ := hfirst.retypes.typeOf_eq
    rw [htype]
    exact h _ rfl

theorem stable_startsKnown : s.Stable s.StartsKnown where
  constant c p hkind := by cases c <;> cases hkind
  children hcs h hkind hattributes := typeOf_head hcs (h hkind hattributes)
  call _ _ _ _ _ _ hkind := by cases hkind
  gathered _ _ _ hnone := by cases hnone

theorem stable_callsValues : s.Stable s.CallsValues where
  constant c p hkind := by cases c <;> cases hkind
  children hcs h hkind := typeOf_head hcs (h hkind)
  call _ _ _ _ _ h hkind := h hkind
  gathered _ _ hkind := by cases hkind

theorem Known.proper (hs : s.Known) : s.Proper := ⟨hs.unshadowed, fun _ => hs.declared⟩

end Context

/-- The type of an expression is known, or that of an imported call. -/
theorem Typed.isKnown_or_any {s : Context} {e : Node} {type : Ty} (h : Typed s e type) (hs : s.Known)
    (he : e.Everywhere s.StartsKnown) : type = .any ∨ type.IsKnown := by
  induction h with
  | varRef h p =>
    rcases h with h | ⟨hlax, -⟩
    · exact .inr (hs.declared.names _ h).1
    · simp [hs.strict] at hlax
  | thisRef h p => exact .inr hs.declared.known
  | paren hinner p ih => exact ih (he.child (by simp) hinner.kind_ne)
  | newObject name hknown p => exact .inr (hknown hs.strict).1
  | newArray name hsize hint hknown p ih => exact .inr (hknown hs.strict)
  | @arrayLiteral first rest types helements hfit hadmits p ih =>
    refine .inr ?_
    have hfirst := ih first (by simp) (he.child (by simp) (helements first (by simp)).kind_ne)
    obtain ⟨hany, harray⟩ := hfirst.resolve_left fun heq =>
      he.here rfl rfl first rfl (heq ▸ (helements first (by simp)).typeOf)
    refine ⟨hany, fun heq => ?_⟩
    have hname : (types first).name = "void" := congrArg Ty.name heq
    cases hisArray : (types first).isArray with
    | true => exact harray (Ty.eq_mk hname hisArray)
    | false => exact hadmits first (by simp) hs.strict (Ty.eq_mk hname hisArray)
  | gatheredLiteral name helements hfit hadmits hknown p ih => exact .inr (hknown hs.strict)
  | @arrayAccess array index type indexType harray hindex htype hint hknown p ih ihindex =>
    unfold Ty.indexed
    split
    · exact .inl rfl
    · rename_i hne
      obtain ⟨hany, -⟩ := (ih (he.child (by simp) harray.kind_ne)).resolve_left hne
      exact .inr ⟨hany, by simp [Ty.base]⟩
  | @binary op o left right leftType rightType hop hleft hright halike hwanted hadmits p ihl ihr =>
    rcases o.resultType_cases with heq | heq
    all_goals
      rw [heq]
      exact .inr (by decide)
  | ownCall hm hreceiver hargs haccepts p ihr iha => exact .inr (hs.declared.results _ _ hm)
  | foreignCall hreceiver hother hlength himports hargs hadmits p ihr iha =>
    exact (Context.foreign_cases _ _).imp_right fun heq => by
      rw [heq]
      decide
  | importCall hreceiver hother hargs hadmits p q iha =>
    exact (Context.foreign_cases _ _).imp_right fun heq => by
      rw [heq]
      decide
  | _ => exact .inr (by decide)

/-! ## Operands -/

/-- An element of an array of a known type has a value. -/
theorem Ty.base_ne_void {type : Ty} (h : type.IsKnown) (harray : type.isArray = true) : type.base ≠ .void := fun heq =>
  h.2 (Ty.eq_mk (congrArg Ty.name heq :) harray)

theorem Ty.eq_any_or_of_assignable {wanted type : Ty} (h : Ty.assignable wanted type = true) (hwanted : wanted ≠ .any) :
    type = .any ∨ type = wanted := by
  simp only [assignable, hwanted, decide_false, Bool.false_or, Bool.or_eq_true, decide_eq_true_eq] at h
  exact h.imp_right Eq.symm

theorem Ty.ne_void_of_assignable {wanted type : Ty} (h : Ty.assignable wanted type = true) (hwanted : wanted ≠ .any)
    (hvoid : wanted ≠ .void) : type ≠ .void := by
  rcases eq_any_or_of_assignable h hwanted with rfl | rfl
  · decide
  · exact hvoid

namespace Context
variable {s : Context} {P : Node → Prop} {kind : Kind} {expected : Option Ty} {type t : Ty} {e : Node} {code : Element}

/-- Where a value is wanted, and expected of an expression that has one, it can be loaded. -/
theorem Gives.loadable (hstrict : s.strict = true) (h : s.Gives P kind expected type code) (htype : type ≠ .void)
    (hexpected : expected ≠ some .void) : code.Loadable := by
  cases h with
  | importRef himport hlax => simp [hstrict] at hlax
  | nothing => exact absurd rfl htype
  | discarded _ => exact absurd rfl hexpected
  | _ => trivial

/-- What is not known is taken for a number, or for an array of numbers, where one of them is wanted. -/
theorem Gives.base_of_unknown (hstrict : s.strict = true) (h : s.Gives P kind expected type code) (htype : type = .any)
    (hexpected : expected = some .int ∨ expected = some .intArray) (ht : code.type = .ok t) : t.base = .int := by
  induction h generalizing t with
  | int i => exact absurd htype (by decide)
  | boolean b => exact absurd htype (by decide)
  | var name hknown => exact absurd htype (hknown hstrict)
  | foreign name _ _ =>
    obtain rfl := Except.ok.inj ht
    rcases hexpected with rfl | rfl <;> rfl
  | element name hnode harray hgives hcode ih =>
    obtain rfl := Except.ok.inj ht
    rw [ih rfl (.inr ?_) hcode]
    · rfl
    · rcases hexpected with rfl | rfl <;> rfl
  | importRef himport hlax => simp [hstrict] at hlax
  | nothing => exact absurd htype (by decide)
  | discarded _ => cases ht

/-- Where a number is wanted the value is one. -/
theorem Gives.type_of_number (hstrict : s.strict = true) (h : s.Gives P kind (some .int) type code)
    (htype : Ty.assignable .int type = true) : code.type = .ok .int := by
  generalize hwanted : some Ty.int = expected at h
  cases h with
  | int i => rfl
  | boolean b => exact absurd htype (by decide)
  | var name hknown =>
    obtain rfl := (Ty.eq_any_or_of_assignable htype (by decide)).resolve_left (hknown hstrict)
    rfl
  | foreign name _ _ =>
    subst hwanted
    rfl
  | element name hnode harray hgives hcode =>
    subst hwanted
    exact congrArg Except.ok (hgives.base_of_unknown hstrict rfl (.inr rfl) hcode)
  | importRef himport hlax => simp [hstrict] at hlax
  | nothing => exact absurd htype (by decide)
  | discarded _ => exact absurd hwanted (by decide)

/-! ## Instructions -/

variable {i : Instruction} {invocation : Invocation} {target : Element} {name : String} {codes : List Element}

theorem Passes.loadable (hs : s.Known) {params : List Symbol} {args : List Node} (h : s.Passes P params args codes)
    (hparams : ∀ p ∈ params, p.type.IsKnown ∧ p.type ≠ .void) : ∀ code ∈ codes, code.Loadable := by
  induction h with
  | nil => simp
  | cons hcode hfit hrest ih =>
    obtain ⟨⟨hknown, hvoid⟩, hmore⟩ := List.forall_mem_cons.1 hparams
    have hany : _ ≠ Ty.any := fun heq => hknown.1 (congrArg Ty.name heq)
    refine List.forall_mem_cons.2 ⟨hcode.gives.loadable hs.strict (Ty.ne_void_of_assignable hfit hany hvoid) ?_, ih hmore⟩
    simpa using hvoid

theorem Sends.loadable (hs : s.Known) (h : s.Sends P codes) : ∀ code ∈ codes, code.Loadable := by
  intro code hmem
  obtain ⟨e, type, hcode, hadmits⟩ := h code hmem
  exact hcode.gives.loadable hs.strict (hadmits hs.strict) (by simp)

/-- What is called with, and on, can be loaded. -/
theorem Calls.loadable (hs : s.Known) (hP : ∀ n, P n → s.CallsValues n) (h : s.Calls P invocation target name codes type) :
    (∀ code ∈ codes, code.Loadable) ∧ target.Receives invocation ∧ invocation ≠ .new := by
  cases h with
  | static hnode hm hreceiver hstatic hcodes => exact ⟨hcodes.loadable hs (hs.params _ _ hm), ⟨_, _, rfl⟩, by simp⟩
  | own hnode hm hreceiver hcodes =>
    have htarget := hreceiver.gives.loadable hs.strict hs.declared.class_ne_void (by simp)
    exact ⟨hcodes.loadable hs (hs.params _ _ hm), htarget, by simp⟩
  | ownImport hnode hm hclass hcodes => exact ⟨hcodes.loadable hs (hs.params _ _ hm), ⟨_, _, rfl⟩, by simp⟩
  | foreign hnode hreceiver hother hlength hcodes =>
    have hvalue := hP _ hnode rfl _ rfl
    have htarget := hreceiver.gives.loadable hs.strict (fun heq => hvalue (heq ▸ hreceiver.typed.typeOf)) (by simp)
    exact ⟨hcodes.loadable hs, htarget, by simp⟩
  | imported hnode himport hcodes => exact ⟨hcodes.loadable hs, ⟨_, _, rfl⟩, by simp⟩

theorem Calls.computesLoadable (hs : s.Known) (hP : ∀ n, P n → s.CallsValues n)
    (h : s.Calls P invocation target name codes type) :
    (Instruction.call invocation target (some name) codes type).ComputesLoadable := by
  obtain ⟨hcodes, htarget, hnew⟩ := h.loadable hs hP
  exact ⟨hcodes, htarget, fun heq => absurd heq hnew⟩

/-- What is wanted beside a value is a value. -/
theorem hint_ne_void {o : Operator} {other : Ty} (h : other ≠ .void) : some (o.hint other) ≠ some .void := by
  refine fun heq => absurd (Option.some.inj heq) ?_
  cases o with
  | arithmetic op => exact show Ty.int ≠ .void by decide
  | logical op => exact show Ty.boolean ≠ .void by decide
  | comparison c =>
    cases hordering : c.isOrdering with
    | true => simp [Operator.hint, Operator.operandType?, hordering, Ty.int, Ty.void]
    | false =>
      simp only [Operator.hint, Operator.operandType?, hordering, Bool.false_eq_true, if_false, Option.getD_none]
      split
      · decide
      · exact h

/-- What is computed into a temporary can be loaded. -/
theorem Computes.loadable (hs : s.Known) (hP : ∀ n, P n → s.CallsValues n) (h : s.Computes P i type) :
    i.ComputesLoadable := by
  cases h with
  | field hf hinstance => exact ⟨_, rfl⟩
  | newArray name hsize hint =>
    have hloadable := hsize.gives.loadable hs.strict (Ty.ne_void_of_assignable hint (by decide) (by decide)) (by decide)
    exact ⟨by simpa using hloadable, .inl rfl, fun _ _ => ⟨_, rfl⟩⟩
  | literal name count => exact ⟨by simp [Element.Loadable], .inl rfl, fun _ _ => ⟨_, rfl⟩⟩
  | newObject hnode => exact ⟨by simp, .inr ⟨_, _, rfl⟩, fun _ harray => by cases harray⟩
  | length harray htype =>
    have hloadable := harray.gives.loadable hs.strict (fun heq => by simp [heq, Ty.void, Ty.any] at htype) (by decide)
    exact ⟨by simp, hloadable, fun heq => by cases heq⟩
  | unary hoperand hboolean =>
    exact ⟨rfl, hoperand.gives.loadable hs.strict (Ty.ne_void_of_assignable hboolean (by decide) (by decide)) (by decide)⟩
  | @binary op o e e' type type' left right hop hleft hright halike hwanted hadmits =>
    refine ⟨hleft.gives.loadable hs.strict (hadmits.1 hs.strict) (hint_ne_void (hadmits.2 hs.strict)),
      hright.gives.loadable hs.strict (hadmits.2 hs.strict) (hint_ne_void (hadmits.1 hs.strict)), o, hop, ?_⟩
    rintro c rfl hordering
    have hint : (Operator.comparison c).operandType? = some .int := by simp [Operator.operandType?, hordering]
    have hgives := hleft.gives
    rw [Operator.hint, hint] at hgives
    have htype := hgives.type_of_number hs.strict (hwanted .int hint).1
    simp [Element.typeOrVoid, htype, Except.toOption, Ty.isIntLike, Ty.int]
  | @element expected e e' type indexType elementType array index name harray htype hname helement hindex hint =>
    have hloadable : index.Loadable :=
      hindex.gives.loadable hs.strict (Ty.ne_void_of_assignable hint (by decide) (by decide)) (by decide)
    exact hloadable
  | call hcall hvalue => exact hcall.computesLoadable hs hP

/-- A condition can be tested. -/
theorem Tests.loadable (hs : s.Known) (h : s.Tests P i) : i.ComputesLoadable := by
  cases h with
  | @comparison op c e e' type type' left right hop hleft hright halike hwanted hadmits =>
    refine ⟨hleft.gives.loadable hs.strict (hadmits.1 hs.strict) (by decide),
      hright.gives.loadable hs.strict (hadmits.2 hs.strict) (by decide), _, hop, ?_⟩
    rintro c' heq hordering
    obtain rfl := Operator.comparison.inj heq
    have htype := hleft.gives.type_of_number hs.strict (hwanted hordering).1
    simp [Element.typeOrVoid, htype, Except.toOption, Ty.isIntLike, Ty.int]
  | negation hcode hboolean =>
    exact ⟨rfl, hcode.gives.loadable hs.strict (Ty.ne_void_of_assignable hboolean (by decide) (by decide)) (by decide)⟩
  | @truth e type code hcode hboolean =>
    have hloadable : code.Loadable :=
      hcode.gives.loadable hs.strict (Ty.ne_void_of_assignable hboolean (by decide) (by decide)) (by decide)
    exact hloadable

/-- What is assigned to a place of a known type can be loaded. -/
theorem Operand.loadable_of_assigns (hs : s.Known) {target : Ty} (h : s.Operand P (some target) e type code)
    (hassigns : s.Assigns target e) (hknown : target ≠ .any) (hvoid : target ≠ .void) : code.Loadable := by
  refine h.gives.loadable hs.strict ?_ (by simpa using hvoid)
  cases hassigns with
  | whole hvalue hfit =>
    obtain rfl := Except.ok.inj (hvalue.typeOf.symm.trans h.typed.typeOf)
    exact SymbolTable.ne_void_of_compatible_known hs.regular hvoid hknown hfit
  | elementwise hvalue hkind harray helements hfit =>
    rintro rfl
    have hliteral := h.typed.isArray_of_literal hkind
    cases hliteral

/-- Every instruction can be loaded, if its method takes no value of what has none. -/
theorem Makes.loadable (hs : s.Known) (hP : ∀ n, P n → s.StartsKnown n ∧ s.CallsValues n) {m : MethodInfo}
    (hm : s.table.method? s.method = some m) (h : s.Makes P m.returnType i) (hlabel : CodeMethod.isLabel i = false) :
    i.Loadable := by
  have hcalls : ∀ n, P n → s.CallsValues n := fun n hn => (hP n hn).2
  have hvariable {name : String} (hname : s.HasVariable name) :
      s.variableType name ≠ .any ∧ s.variableType name ≠ .void := by
    obtain ⟨hknown, hvoid⟩ := hs.declared.names name hname
    exact ⟨fun heq => hknown.1 (congrArg Ty.name heq), hvoid⟩
  have hbound {name : String} {v : Symbol} (hname : s.table.binding? (some s.method) name = some v) :
      v.type ≠ .any ∧ v.type ≠ .void := by
    rw [← hs.unshadowed.variableType_binding hname]
    exact hvariable (.inl (by simp [hname]))
  have helements {e : Node} {type : Ty} (htyped : Typed s e type) (he : e.Everywhere P) (harray : type.isArray = true) :
      type.base ≠ .any ∧ type.base ≠ .void := by
    rcases htyped.isKnown_or_any hs (he.imp fun n hn => (hP n hn).1) with rfl | hknown
    · cases harray
    · exact ⟨fun heq => hknown.1 (congrArg Ty.name heq), Ty.base_ne_void hknown harray⟩
  cases h with
  | temp name hvalue => exact ⟨trivial, hvalue.loadable hs hcalls⟩
  | init temp name => exact ⟨by simp, trivial, fun heq => by cases heq⟩
  | @truth e type code name hcode hboolean =>
    have hloadable : code.Loadable :=
      hcode.gives.loadable hs.strict (Ty.ne_void_of_assignable hboolean (by decide) (by decide)) (by decide)
    exact ⟨trivial, hloadable⟩
  | falsity name => exact ⟨trivial, trivial⟩
  | @put literal e literalType type code array index hliteral hevery harray hcode hfit hadmits =>
    have hloadable : code.Loadable := hcode.gives.loadable hs.strict (hadmits hs.strict) 
      (by simpa using (helements hliteral hevery harray).2)
    exact ⟨trivial, hloadable⟩
  | call hcall => exact hcall.computesLoadable hs hcalls
  | test label htest => exact htest.loadable hs
  | goto label => trivial
  | label name => cases hlabel
  | @assign name v e type code p q hnode hname hcode hassigns =>
    have hloadable : code.Loadable := hcode.loadable_of_assigns hs hassigns (hbound hname).1 (hbound hname).2
    exact ⟨trivial, hloadable⟩
  | @update name op v o e type literal hname hop hother hliteral hwanted hfit =>
    have hvalue : type ≠ .void := by
      cases o with
      | arithmetic op => exact Ty.ne_void_of_assignable (hwanted .int rfl).2 (by decide) (by decide)
      | logical op => exact Ty.ne_void_of_assignable (hwanted .boolean rfl).2 (by decide) (by decide)
      | comparison c => exact absurd rfl (hother c)
    have hloadable := hliteral.gives.loadable hs.strict hvalue (by simpa using (hbound hname).2)
    exact ⟨trivial, trivial, hloadable, o, hop, fun c heq => absurd heq (hother c)⟩
  | @putField name f e type code p q hnode hf hinstance hcode hassigns =>
    have hfield := @hvariable name (.inr ⟨by simp [hf], hinstance⟩)
    rw [variableType_field hf] at hfield
    exact ⟨⟨_, rfl⟩, hcode.loadable_of_assigns hs hassigns hfield.1 hfield.2⟩
  | @store e e' e'' type indexType valueType elementType array index code name harray htype hknown hname helement hindex hint
      hcode hfit =>
    have hisArray := htype.resolve_left (hknown hs.strict)
    obtain rfl := harray.gives.type_of_array hisArray helement
    have hbase := helements harray.typed harray.every hisArray
    have hloadable : code.Loadable := hcode.gives.loadable hs.strict
      (Ty.ne_void_of_assignable (hfit hisArray) hbase.1 hbase.2) (by simpa using hbase.2)
    have hindexed : index.Loadable :=
      hindex.gives.loadable hs.strict (Ty.ne_void_of_assignable hint (by decide) (by decide)) (by decide)
    exact ⟨hindexed, hloadable⟩
  | ret hnode hcode hvoid hfit =>
    have hany : m.returnType ≠ .any := fun heq => (hs.declared.results _ m hm).1 (congrArg Ty.name heq)
    exact .inr (hcode.gives.loadable hs.strict (SymbolTable.ne_void_of_compatible_known hs.regular hvoid hany hfit)
      (by simpa using hvoid))
  | retNothing hvoid => exact .inl rfl

end Context
end JmmCompiler

import JmmCompiler.Proofs.EmittedValue
/-! Emission gives lines for every instruction of a known form whose variables have slots. -/
namespace JmmCompiler.Jasmin

namespace Scope
variable (s : Scope)

def HasSlot (name : String) : Prop := ∃ n, 0 ≤ n ∧ s.method.slots.find? name = some n

/-- An operand whose variables have slots. -/
def Loads : Element → Prop
  | .literal .. => True
  | .var name _ => s.HasSlot name
  | .item array _ index => s.HasSlot array ∧ Loads index
  | .classRef .. | .absent => False

/-- A value of a known form: operators are known, an order compares integers, an array has one size, and calls
have the receiver that they need. -/
def ValueEmits : Instruction → Prop
  | .single e => s.Loads e
  | .binary op left right _ =>
    s.Loads left ∧ s.Loads right ∧ ∃ o, Operator.ofSymbol? op = some o ∧
      ∀ c, o = .comparison c → c.isOrdering = true → left.typeOrVoid.isIntLike = true
  | .unary op e _ => op = "!" ∧ s.Loads e
  | .call .new _ _ args type => type.isArray = true → ∃ size, args = [size] ∧ s.Loads size
  | .call .arrayLength receiver .. => s.Loads receiver
  | .call .static receiver _ args _ => (∃ name, receiver.name = .ok name) ∧ ∀ a ∈ args, s.Loads a
  | .call _ receiver _ args _ => s.Loads receiver ∧ ∀ a ∈ args, s.Loads a
  | .getField _ field => ∃ name, field.name = .ok name
  | _ => False

def InstructionEmits : Instruction → Prop
  | .assign (.item array _ index) i => s.HasSlot array ∧ s.Loads index ∧ s.ValueEmits i
  | .assign dest i => (∃ name, dest.name = .ok name ∧ s.HasSlot name) ∧ s.ValueEmits i
  | .branch condition _ => s.ValueEmits condition
  | .putField _ field e => (∃ name, field.name = .ok name) ∧ s.Loads e
  | .ret e type => e = .absent ∨ type = .void ∨ s.Loads e
  | .goto _ | .nop => True
  | i => s.ValueEmits i

end Scope

namespace Emit

/-- An emission that succeeds whatever there is already. -/
def Total {α : Type} (f : Emit α) : Prop := ∀ b, ∃ a b', runOn f b = (.ok a, b')

theorem Total.pure {α : Type} (a : α) : Total (Pure.pure a : Emit α) := fun b => ⟨a, b, rfl⟩

theorem Total.bind {α β : Type} {f : Emit α} {g : α → Emit β} (hf : Total f) (hg : ∀ a, Total (g a)) :
    Total (f >>= g) := by
  intro b
  obtain ⟨a, b₁, hfirst⟩ := hf b
  obtain ⟨c, b₂, hrest⟩ := hg a b₁
  exact ⟨c, b₂, runOn_bind_eq_ok.2 ⟨a, b₁, hfirst, hrest⟩⟩

theorem total_line (l : Line) : Total (line l) := fun b => ⟨(), _, runOn_line l b⟩

theorem total_newLabel (stem : String) : Total (newLabel stem) := fun _ => ⟨_, _, rfl⟩

/-- A known result goes on with its value. -/
theorem Total.known {α β : Type} {x : Except Failure α} {a : α} {g : α → Emit β} (hx : x = .ok a)
    (hg : Total (g a)) : Total (ofExcept x >>= g) := by
  intro b
  obtain ⟨c, b', h⟩ := hg b
  exact ⟨c, b', runOn_bind_eq_ok.2 ⟨a, b, by rw [runOn_ofExcept, hx], h⟩⟩

end Emit

namespace Scope
open Emit
variable {s : Scope}

theorem total_slot (op : SlotOp) {name : String} (h : s.HasSlot name) : Total (s.slot op name) := by
  obtain ⟨n, hn, hfind⟩ := h
  exact fun b => ⟨(), _, runOn_scopeSlot_eq_ok.2 ⟨n, hfind, hn, rfl⟩⟩

theorem total_load {e : Element} (h : s.Loads e) : Total (s.load e) := by
  induction e with
  | literal n type => exact total_line _
  | var name type => exact total_slot _ h
  | item array type index ih => exact (total_slot _ h.1).bind fun _ => (ih h.2).bind fun _ => total_line _
  | classRef name type => exact h.elim
  | absent => exact h.elim

theorem total_loadAll {es : List Element} (h : ∀ e ∈ es, s.Loads e) : Total (s.loadAll es) := by
  induction es with
  | nil => exact .pure _
  | cons e es ih =>
    exact (total_load (h e List.mem_cons_self)).bind fun _ => ih fun a ha => h a (List.mem_cons_of_mem _ ha)

theorem exists_type {e : Element} (h : s.Loads e) : ∃ type, e.type = .ok type := by
  cases e with
  | absent => exact h.elim
  | _ => exact ⟨_, rfl⟩

theorem exists_type_of_name {e : Element} (h : ∃ name, e.name = .ok name) : ∃ type, e.type = .ok type := by
  cases e with
  | absent => simp [Element.name] at h
  | _ => exact ⟨_, rfl⟩

theorem total_compareJump {op : String} {c : Comparison} (hop : Comparison.ofSymbol? op = some c)
    {left right : Element} (hleft : s.Loads left) (hright : s.Loads right)
    (horder : c.isOrdering = true → left.typeOrVoid.isIntLike = true) (label : String) :
    Total (s.compareJump op left right label) := by
  obtain ⟨type, htype⟩ := exists_type hleft
  have hnumbers (compared : Compared) : Total (numberJump compared op label) := by
    simp only [numberJump, hop]
    exact total_line _
  unfold compareJump
  refine (total_load hleft).bind fun _ => .known htype ?_
  by_cases hint : type.isIntLike = true
  · simp only [hint, Bool.not_true, Bool.false_eq_true, if_false]
    split
    · exact hnumbers _
    · exact (total_load hright).bind fun _ => hnumbers _
  · have hequality : c.isOrdering = false := by
      rw [typeOrVoid_of_type htype] at horder
      simpa [hint] using horder
    simp only [hint, Bool.not_false, if_true]
    refine (total_load hright).bind fun _ => ?_
    cases c with
    | eq => simpa only [referenceJump, hop] using total_line _
    | ne => simpa only [referenceJump, hop] using total_line _
    | _ => simp [Comparison.isOrdering] at hequality

theorem total_booleanResult (label : String) : Total (booleanResult label) :=
  (total_newLabel _).bind fun _ => (total_line _).bind fun _ => (total_line _).bind fun _ =>
    (total_line _).bind fun _ => (total_line _).bind fun _ => total_line _

theorem total_binary {op : String} {left right : Element} {type : Ty}
    (h : s.ValueEmits (.binary op left right type)) : Total (s.binary op left right) := by
  obtain ⟨hleft, hright, o, hop, horder⟩ := h
  unfold binary
  simp only [hop]
  split
  · exact (total_load hleft).bind fun _ => (total_load hright).bind fun _ => total_line _
  · rename_i hcode
    cases o with
    | arithmetic op => cases op <;> simp [opcode] at hcode
    | logical op => cases op <;> simp [opcode] at hcode
    | comparison c =>
      refine (total_newLabel _).bind fun label => ?_
      exact (total_compareJump (Operator.comparison_ofSymbol hop) hleft hright (horder c rfl) label).bind
        fun _ => total_booleanResult label

theorem total_unary {op : String} {e : Element} {type : Ty} (h : s.ValueEmits (.unary op e type)) :
    Total (s.unary op e) := by
  obtain ⟨rfl, he⟩ := h
  rw [unary_not]
  exact (total_newLabel _).bind fun label => ((total_load he).bind fun _ => total_line _).bind
    fun _ => total_booleanResult label

theorem exists_types {args : List Element} (h : ∀ a ∈ args, s.Loads a) :
    ∃ types, args.mapM Element.type = .ok types :=
  exists_mapM_eq_ok fun a ha => exists_type (h a ha)

theorem total_invoke (op : CallOp) (owner : String) {receiver : Element} (method : Option String)
    {args : List Element} (type : Ty) (hreceiver : ∃ t, receiver.type = .ok t)
    (hargs : ∀ a ∈ args, s.Loads a) : Total (s.invoke op owner receiver method args type) := by
  obtain ⟨types, htypes⟩ := exists_types hargs
  obtain ⟨t, ht⟩ := hreceiver
  obtain ⟨d, hd⟩ : ∃ d, s.callDescriptor receiver method args type = .ok d := by
    have hpresent : receiver ≠ .absent := by
      rintro rfl
      simp [Element.type] at ht
    have hargTypes (t : Ty) : (do return s.methodDescriptor (← args.mapM Element.type) t) =
        (Except.ok (s.methodDescriptor types t) : Except Failure String) := by
      rw [htypes]
      rfl
    unfold callDescriptor
    simp only [hargTypes, if_neg hpresent, ht]
    split
    · exact ⟨_, rfl⟩
    · simp only [bind, Except.bind, pure, Except.pure]
      split
      · exact ⟨_, rfl⟩
      · exact ⟨_, rfl⟩
  exact .known hd (total_line _)

theorem total_call {invocation : Invocation} {receiver : Element} {method : Option String}
    {args : List Element} {type : Ty}
    (h : s.ValueEmits (.call invocation receiver method args type)) :
    Total (s.call invocation receiver method args type) := by
  cases invocation with
  | new =>
    simp only [call]
    by_cases harray : type.isArray = true
    · obtain ⟨size, rfl, hsize⟩ := h harray
      simp only [harray, if_true]
      exact (total_load hsize).bind fun _ => total_line _
    · simp only [harray, Bool.false_eq_true, if_false]
      exact total_line _
  | arrayLength => exact (total_load h).bind fun _ => total_line _
  | static =>
    obtain ⟨⟨name, hname⟩, hargs⟩ := h
    exact (total_loadAll hargs).bind fun _ => .known hname
      (total_invoke _ _ _ _ (exists_type_of_name ⟨name, hname⟩) hargs)
  | virtual =>
    obtain ⟨hreceiver, hargs⟩ := h
    obtain ⟨t, ht⟩ := exists_type hreceiver
    exact (total_load hreceiver).bind fun _ => (total_loadAll hargs).bind fun _ => .known ht
      (total_invoke _ _ _ _ ⟨t, ht⟩ hargs)
  | special =>
    obtain ⟨hreceiver, hargs⟩ := h
    obtain ⟨t, ht⟩ := exists_type hreceiver
    exact (total_load hreceiver).bind fun _ => (total_loadAll hargs).bind fun _ => .known ht
      (total_invoke _ _ _ _ ⟨t, ht⟩ hargs)

theorem total_field (op : FieldOp) {f : Element} (h : ∃ name, f.name = .ok name) :
    Total (s.field op f) := by
  obtain ⟨type, htype⟩ := exists_type_of_name h
  obtain ⟨name, hname⟩ := h
  exact .known hname (.known htype (total_line _))

theorem total_this : Total (Emit.slot .aload 0) :=
  fun _ => ⟨(), _, Emit.runOn_slot_eq_ok.2 ⟨Int.le_refl 0, rfl⟩⟩

theorem total_value {i : Instruction} (h : s.ValueEmits i) : Total (s.value i) := by
  cases i with
  | single e => exact total_load h
  | binary op left right type => exact total_binary h
  | unary op e type => exact total_unary h
  | call invocation receiver method args type => exact total_call h
  | getField object f => exact total_this.bind fun _ => total_field _ h
  | _ => exact h.elim

theorem total_store {dest : Element} {name : String} (hname : dest.name = .ok name)
    (h : s.HasSlot name) : Total (s.store dest) := by
  obtain ⟨type, htype⟩ := exists_type_of_name ⟨name, hname⟩
  obtain ⟨n, hn, hfind⟩ := h
  exact .known hname (.known (slot_eq_ok.2 hfind) (.known htype fun _ =>
    ⟨(), _, Emit.runOn_slot_eq_ok.2 ⟨hn, rfl⟩⟩))

/-- It is known whether an assignment is an increment, and then the amount fits. -/
theorem exists_increment {dest : Element} {name : String} (hname : dest.name = .ok name)
    (i : Instruction) :
    ∃ amount, increment? dest i = .ok amount ∧ ∀ n, amount = some n → fitsByte n = true := by
  obtain ⟨type, htype⟩ := exists_type_of_name ⟨name, hname⟩
  have hnone : ∃ amount : Option Int, (pure none : Except Failure (Option Int)) = .ok amount ∧
      ∀ n, amount = some n → fitsByte n = true := ⟨none, rfl, by simp⟩
  have hamount (x : String) (n : Int) : ∃ amount : Option Int, (do
      if x ≠ (← dest.name) then return none
      return if fitsByte n then some n else none : Except Failure (Option Int)) = .ok amount ∧
        ∀ n, amount = some n → fitsByte n = true := by
    simp only [hname, bind, Except.bind]
    split
    · exact hnone
    · refine ⟨_, rfl, fun k hk => ?_⟩
      split at hk
      · rename_i hfits
        exact Option.some.inj hk ▸ hfits
      · simp at hk
  unfold increment?
  split
  · exact hnone
  · split
    · exact hnone
    · simp only [htype, bind, Except.bind]
      split
      · exact hnone
      · split
        · exact hamount _ _
        · exact hamount _ _
        · exact hnone
  · exact hnone

/-- The lines of an assignment to a variable. -/
theorem total_assign {dest : Element} {name : String} {i : Instruction} (hname : dest.name = .ok name)
    (h : s.HasSlot name) (hi : s.ValueEmits i) :
    Total (s.assignVariable dest i) := by
  obtain ⟨amount, hamount, hfits⟩ := exists_increment hname i
  refine .known hamount ?_
  cases amount with
  | some n =>
    obtain ⟨k, -, hfind⟩ := h
    refine .known hname (.known (slot_eq_ok.2 hfind) ?_)
    simp only [Emit.increment, hfits n rfl, if_true]
    exact total_line _
  | none => exact (total_value hi).bind fun _ => total_store hname h

theorem total_branch {condition : Instruction} (h : s.ValueEmits condition) (label : String) :
    Total (s.branch condition label) := by
  have hvalue : Total (do
      s.value condition
      Emit.line (.jump .zero .ne label)) := (total_value h).bind fun _ => total_line _
  unfold branch
  split
  · rename_i op left right type
    by_cases hop : (Comparison.ofSymbol? op).isSome = true
    · obtain ⟨c, hc⟩ := Option.isSome_iff_exists.1 hop
      obtain ⟨hleft, hright, o, ho, horder⟩ := h
      obtain rfl : o = .comparison c := Option.some.inj (ho.symm.trans (Comparison.operator_ofSymbol hc))
      simp only [hop, if_true]
      exact total_compareJump hc hleft hright (horder c rfl) label
    · simp only [hop]
      exact hvalue
  · exact (total_load h.2).bind fun _ => total_line _
  · exact hvalue

theorem total_ret {e : Element} {type : Ty} (h : s.InstructionEmits (.ret e type)) :
    Total (s.ret e type) := by
  unfold ret
  by_cases hvoid : e = .absent ∨ type = .void
  · simp only [hvoid, if_true]
    exact total_line _
  · simp only [hvoid, if_false]
    have he : s.Loads e := by
      rcases h with habsent | hrest
      · exact absurd (.inl habsent) hvoid
      · exact hrest.resolve_left fun htype => hvoid (.inr htype)
    exact (total_load he).bind fun _ => total_line _

theorem total_instruction {i : Instruction} (h : s.InstructionEmits i) : Total (s.instruction i) := by
  have hpopped (i : Instruction) (h : s.ValueEmits i) : Total (do
      s.value i
      Emit.plain .pop) := (total_value h).bind fun _ => total_line _
  cases i with
  | assign dest i =>
    cases dest with
    | item array type index =>
      exact (total_slot _ h.1).bind fun _ => (total_load h.2.1).bind fun _ =>
        (total_value h.2.2).bind fun _ => total_line _
    | var name type => exact total_assign rfl (by simpa [InstructionEmits, Element.name] using h.1) h.2
    | classRef name type => exact total_assign rfl (by simpa [InstructionEmits, Element.name] using h.1) h.2
    | literal n type => simp [InstructionEmits, Element.name] at h
    | absent => simp [InstructionEmits, Element.name] at h
  | call invocation receiver method args type =>
    refine (total_call h).bind fun _ => ?_
    split
    · exact total_line _
    · exact .pure _
  | putField object f e =>
    exact total_this.bind fun _ => (total_load h.2).bind fun _ => total_field _ h.1
  | ret e type => exact total_ret h
  | branch condition label => exact total_branch h label
  | goto label => exact total_line _
  | nop => exact total_line _
  | label name => exact h.elim
  | single e => exact hpopped _ h
  | binary op left right type => exact hpopped _ h
  | unary op e type => exact hpopped _ h
  | getField object f => exact hpopped _ h

end Scope
end JmmCompiler.Jasmin

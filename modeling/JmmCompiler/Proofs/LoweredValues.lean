import JmmCompiler.Proofs.MethodRuns
/-! The code of each form of expression computes what the form means, given that the code of its operands does. -/
namespace JmmCompiler
namespace MethodRun
variable {W : Type} {A : MethodRun W} {ns ns₁ ns' : Names} {memory : Int → Value} {store : Store}
  {x y : Store → Act W Value} {l r : Lowered} {e left right : Node} {void void' void'' : Bool}
open CodeMethod

theorem computes_paren (h : A.Computes x void e) (p : Position) : A.Computes x void ⟨.paren, {}, [e], p⟩ := by
  intro expected ns hns
  rw [SymbolTable.lower_paren]
  exact h expected ns hns

/-! ## Operators -/

theorem value_unary {code : Element} {a : Value} (hslots : A.code.HasSlotsFor code.names)
    (ha : code.Gives (A.code.read memory) a) (type : Ty) :
    (Query.setting A.ask).value (A.code.read memory) (.unary "!" code type) =
      (do return .ofBool (!(← Act.truth a))) := by
  simp only [Setting.value, operand_of_gives A.ask hslots ha, pure_bind, if_true]

theorem value_binary {op : String} {o : Operator} (hop : Operator.ofSymbol? op = some o) {code code' : Element} {type : Ty}
    {a b : Value} (hslots : A.code.HasSlotsFor (Instruction.binary op code code' type).uses)
    (ha : code.Gives (A.code.read memory) a) (hb : code'.Gives (A.code.read memory) b) :
    (Query.setting A.ask).value (A.code.read memory) (.binary op code code' type) = o.apply a b := by
  obtain ⟨hleft, hright⟩ := hasSlotsFor_append hslots
  simp only [Setting.value, operand_of_gives A.ask hleft ha, operand_of_gives A.ask hright hb, pure_bind, hop]

theorem computes_unary (h : A.Computes x void e) (p : Position) :
    A.Computes (fun store => do return .ofBool (!(← Act.truth (← x store)))) void'
      ⟨.unary, ⟨[("op", .text "!")]⟩, [e], p⟩ := by
  refine computes_of_value fun expected ns hns => ?_
  rw [SymbolTable.lower_unary]
  refine (h _ ns hns).bind fun l ns₁ hl => leaves_intoTemp hl.1.later fun temp htemp store memory hmirrors => ?_
  refine hl.1.bind hns hmirrors fun a memory₁ _ hframe ha => ?_
  exact runs_temp hframe hl.1.later htemp fun hslots => value_unary hslots ha _

/-- An operator whose operands are both evaluated. -/
theorem computes_binary {op : String} {o : Operator} (hop : Operator.ofSymbol? op = some o) (hand : op ≠ "&&")
    (hleft : A.Computes x void left) (hright : A.Computes y void' right) (p : Position) :
    A.Computes (fun store => do
      let a ← x store
      let b ← y store
      o.apply a b) void ⟨.binary, ⟨[("op", .text op)]⟩, [left, right], p⟩ := by
  refine computes_of_value fun expected ns hns => ?_
  rw [SymbolTable.lower_binary _ _ _ _ hop hand]
  refine .known fun leftHint _ => (hleft _ ns hns).bind fun l ns₁ hl => ?_
  refine .known fun rightHint _ => (hright _ ns₁ (hns.later hl.1.later)).bind fun r ns₂ hr => ?_
  refine leaves_intoTemp (hl.1.later.trans hr.1.later) fun temp htemp store memory hmirrors => ?_
  refine hl.1.bind₂ hr.1 hns hmirrors fun a b memory₂ _ hframe ha hb => ?_
  exact runs_temp hframe (hl.1.later.trans hr.1.later) htemp fun hslots => value_binary hop hslots ha hb

/-- The right operand is evaluated only where the left one is true. -/
theorem computes_and (hleft : A.Computes x void left) (hright : A.Computes y void' right) (p : Position) :
    A.Computes (fun store => do
      let a ← x store
      if ← Act.truth a then y store else return .ofBool false) void
        ⟨.binary, ⟨[("op", .text "&&")]⟩, [left, right], p⟩ := by
  refine computes_of_value fun expected ns hns => ?_
  rw [SymbolTable.lower_and]
  refine Lower.leaves_label.bind fun label ns₀ hlabel => ?_
  refine (hleft _ ns₀ (hns.later hlabel)).bind fun l ns₁ hl => ?_
  replace hl : A.Carries x ns l ns₁ := hl.1.earlier hlabel
  refine (hright _ ns₁ (hns.later hl.later)).bind fun r ns₂ hr => ?_
  replace hr : A.Carries y ns₁ r ns₂ := hr.1
  refine Lower.leaves_temp.bind fun temp ns' htemp => .pure ⟨⟨?_, htemp.2.2, fun store memory hmirrors => ?_⟩, by simp⟩
  · exact (hl.later.trans hr.later).trans htemp.1
  dsimp only
  rw [List.append_assoc, List.append_assoc]
  refine hl.bind hns hmirrors fun a memory₁ hmirrors₁ hframe ha => ?_
  have hthen : A.code.Runs A.ask (r.computation ++ [.assign (.var temp .boolean) (.single r.code)]) memory₁ (y store)
      (A.Finds ns memory (.var temp .boolean)) := by
    rw [← bind_pure (y store)]
    refine hr.bind (hns.later hl.later) hmirrors₁ fun b memory₂ _ hframe₂ hb => ?_
    exact runs_temp (hframe.trans hl.later hframe₂) (hl.later.trans hr.later) htemp.2.1 fun hslots =>
      operand_of_gives A.ask hslots hb
  have helse : A.code.Runs A.ask [.assign (.var temp .boolean) (.single (.literal 0 .boolean))] memory₁ (pure (.ofBool false))
      (A.Finds ns memory (.var temp .boolean)) :=
    runs_temp hframe (hl.later.trans hr.later) htemp.2.1 fun _ => rfl
  simpa using Runs.choice A.finished .boolean ("and_false_" ++ toString label) ("and_end_" ++ toString label) ha hthen helse

/-! ## Objects and arrays -/

/-- The constructor of a new object runs before its value is used. -/
theorem computes_newObject (name : String) (p : Position) :
    A.Computes (fun _ => do
      let object ← A.ask (.new name)
      let _ ← A.ask (.construct object)
      return object) void ⟨.newObject, ⟨[("name", .text name)]⟩, [], p⟩ := by
  refine computes_of_value fun expected ns hns => ?_
  rw [SymbolTable.lower_newObject]
  refine Lower.leaves_temp.bind fun temp ns' htemp => .pure ?_
  refine ⟨⟨htemp.1, htemp.2.2, fun store memory hmirrors => ?_⟩, by simp⟩
  have hnew : A.code.Runs A.ask [.assign (.var temp ⟨name, false⟩) (.call .new (.classRef name ⟨name, false⟩) none []
      ⟨name, false⟩)] memory (A.ask (.new name)) (A.Finds ns memory (.var temp ⟨name, false⟩)) :=
    runs_temp (.refl ns memory) (.refl ns) htemp.2.1 fun _ => rfl
  refine hnew.append fun object memory₁ hobject => ?_
  have hconstruct : A.code.Runs A.ask [.call .special (.var temp ⟨name, false⟩) (some "<init>") [] .void] memory₁
      (A.ask (.construct object)) fun _ memory' => memory' = memory₁ := by
    refine Runs.effect A.finished (by simp) rfl rfl id fun hslots => ?_
    have hreceiver := operand_of_gives A.ask (hasSlotsFor_call hslots).1 hobject.2
    simp only [Setting.act, Setting.value, Setting.call, hreceiver, Setting.operands, pure_bind]
    rfl
  refine hconstruct.map fun v memory₂ heq => ?_
  rw [heq]
  exact hobject

theorem leaves_lowerNewArray {name : String} {size : Lowered} (hns : A.Reserves ns) (h : A.Carries x ns size ns₁) :
    Lower.Leaves ns₁ (SymbolTable.lowerNewArray name size) fun l ns' =>
      A.Carries (fun store => do A.ask (.newArray name (← Act.number (← x store)))) ns l ns' ∧ l.code ≠ .absent := by
  refine leaves_intoTemp h.later fun temp htemp store memory hmirrors => ?_
  refine h.bind hns hmirrors fun a memory₁ _ hframe ha => runs_temp hframe h.later htemp fun hslots => ?_
  have hsize := operand_of_gives A.ask (hasSlotsFor_of_mem (hasSlotsFor_call hslots).2 List.mem_cons_self) ha
  simp only [Setting.value, Setting.call, if_true, hsize, pure_bind]
  rfl

theorem computes_newArray (name : String) (h : A.Computes x void e) (p : Position) :
    A.Computes (fun store => do A.ask (.newArray name (← Act.number (← x store)))) void'
      ⟨.newArray, ⟨[("name", .text name)]⟩, [e], p⟩ := by
  refine computes_of_value fun expected ns hns => ?_
  rw [SymbolTable.lower_newArray]
  exact (h _ ns hns).bind fun size ns₁ hsize => leaves_lowerNewArray hns hsize.1

theorem leaves_lengthOf {array : Lowered} (hns : A.Reserves ns) (h : A.Carries x ns array ns₁)
    (hvalue : array.code ≠ .absent) :
    Lower.Leaves ns₁ (SymbolTable.lengthOf array) fun l ns' =>
      A.Carries (fun store => do A.ask (.length (← x store))) ns l ns' ∧ l.code ≠ .absent := by
  refine leaves_intoTemp h.later fun temp htemp store memory hmirrors => ?_
  refine h.bind hns hmirrors fun a memory₁ _ hframe ha => runs_temp hframe h.later htemp fun hslots => ?_
  have harray := operand_of_gives A.ask (hasSlotsFor_of_optional (hasSlotsFor_call hslots).1 hvalue) ha
  simp only [Setting.value, Setting.call, harray, pure_bind, Query.setting_held]
  rfl

/-- What has a value is lowered to a value where one is wanted. -/
theorem leaves_operand {wanted : Option Ty} (h : A.Computes x false e) (hwanted : wanted ≠ some .void) (hns : A.Reserves ns) :
    Lower.Leaves ns (A.context.table.lower A.context.method wanted e) fun l ns' =>
      A.Carries x ns l ns' ∧ l.code ≠ .absent :=
  (h wanted ns hns).imp fun _ _ hl => ⟨hl.1, fun habsent => (hl.2 habsent).elim (by simp) hwanted⟩

theorem computes_length (h : A.Computes x false e) (p : Position) :
    A.Computes (fun store => do A.ask (.length (← x store))) void ⟨.length, {}, [e], p⟩ := by
  refine computes_of_value fun expected ns hns => ?_
  rw [SymbolTable.lower_length]
  exact (leaves_operand h (by decide) hns).bind fun array ns₁ harray => leaves_lengthOf hns harray.1 harray.2

/-- What is an array has the name of a variable. -/
theorem exists_var_of_name {code : Element} {name : String} {read : String → Option Value} {a : Value}
    (hname : code.name = .ok name) (ha : code.Gives read a) : ∀ v, read name = some v → v = a := by
  cases code with
  | var x type =>
    obtain rfl : x = name := Except.ok.inj hname
    exact ha
  | classRef x type => exact ha.elim
  | item array type index => exact ha.elim
  | literal n type => cases hname
  | absent => cases hname

theorem hasSlotsFor_item {array : String} {type : Ty} {index : Element}
    (h : A.code.HasSlotsFor (Element.item array type index).names) :
    (∃ n, A.code.slots.find? array = some n) ∧ A.code.HasSlotsFor index.names := by
  obtain ⟨xs, hxs, hslots⟩ := h
  simp only [Element.names, bind_eq_ok, pure_eq_ok] at hxs
  obtain ⟨inner, hinner, rfl⟩ := hxs
  exact ⟨hslots array List.mem_cons_self, inner, hinner, fun z hz => hslots z (List.mem_cons_of_mem _ hz)⟩

theorem lookup_of_slot {array : String} {type : Ty} {a : Value} (hslot : ∃ n, A.code.slots.find? array = some n)
    (ha : ∀ v, A.code.read memory array = some v → v = a) :
    (Query.setting A.ask).lookup (A.code.read memory) array type = pure a := by
  obtain ⟨n, hn⟩ := hslot
  have hread := read_of_slot hn memory
  obtain rfl := ha _ hread
  simp [Setting.lookup, hread]

theorem computes_arrayAccess (hleft : A.Computes x void left) (hright : A.Computes y void' right) (p : Position) :
    A.Computes (fun store => do
      let array ← x store
      let index ← y store
      A.ask (.load array (← Act.number index))) void ⟨.arrayAccess, {}, [left, right], p⟩ := by
  refine computes_of_value fun expected ns hns => ?_
  rw [SymbolTable.lower_arrayAccess]
  refine (hleft _ ns hns).bind fun l ns₁ hl => (hright _ ns₁ (hns.later hl.1.later)).bind fun r ns₂ hr => ?_
  refine .known fun type _ => .known fun name hname => ?_
  refine leaves_intoTemp (hl.1.later.trans hr.1.later) fun temp htemp store memory hmirrors => ?_
  refine hl.1.bind₂ hr.1 hns hmirrors fun a b memory₂ _ hframe ha hb => ?_
  refine runs_temp hframe (hl.1.later.trans hr.1.later) htemp fun hslots => ?_
  obtain ⟨harray, hindex⟩ := hasSlotsFor_item hslots
  simp only [Setting.value, Setting.operand, lookup_of_slot harray (exists_var_of_name hname ha),
    operand_of_gives A.ask hindex hb, pure_bind, Query.setting_held, bind_pure]
  rfl

/-- A store into an array. -/
theorem runs_store {array : String} (type : Ty) {index code : Element} {a b c : Value}
    (ha : ∀ v, A.code.read memory array = some v → v = a) (hb : index.Gives (A.code.read memory) b)
    (hc : code.Gives (A.code.read memory) c) :
    A.code.Runs A.ask [.assign (.item array type index) (.single code)] memory (do
      A.ask (.store a (← Act.number b) c)) fun _ memory' => memory' = memory := by
  refine Runs.effect A.finished (by simp) rfl rfl id fun hslots => ?_
  obtain ⟨hitem, hcode⟩ : A.code.HasSlotsFor (Element.item array type index).names ∧ A.code.HasSlotsFor code.names := by
    obtain ⟨xs, hxs, hslots⟩ := hslots
    simp only [Instruction.uses, Element.isItem, if_true, bind_eq_ok, pure_eq_ok] at hxs
    obtain ⟨ys, hys, zs, hzs, rfl⟩ := hxs
    exact ⟨⟨zs, hzs, fun z hz => hslots z (List.mem_append_left ys hz)⟩,
      ⟨ys, hys, fun z hz => hslots z (List.mem_append_right zs hz)⟩⟩
  obtain ⟨harray, hindex⟩ := hasSlotsFor_item hitem
  simp only [Setting.act, lookup_of_slot harray ha, operand_of_gives A.ask hindex hb, Setting.value,
    operand_of_gives A.ask hcode hc, pure_bind, Query.setting_held, bind_assoc]
  rfl

/-- The elements of a new array are stored one after the other, each when it has been computed. -/
theorem leaves_lowerElements {array : String} {element : Ty} {xs : List (Store → Act W Value)} {es : List Node}
    (h : List.Forall₂ (fun x e => A.Computes x true e) xs es) (index : Nat) (hns : A.Reserves ns)
    (harray : ¬ns.Fresh array) :
    Lower.Leaves ns (A.context.table.lowerElements A.context.method array element index es) fun is ns' =>
      ns.Later ns' ∧ ∀ a store memory, A.Mirrors store memory → (∀ v, A.code.read memory array = some v → v = a) →
        A.code.Runs A.ask is memory (SymbolTable.fill A.ask a index (xs.map (· store))) fun _ memory' =>
          A.code.Frame ns memory memory' := by
  induction h generalizing index ns with
  | nil => exact .pure ⟨.refl ns, fun _ _ memory _ _ => .nil (.refl ns memory)⟩
  | cons hx _ ih =>
    rw [SymbolTable.lowerElements]
    refine (hx _ ns hns).bind fun l ns₁ hl => ?_
    obtain ⟨hl, -⟩ := hl
    have harray' : ¬ns₁.Fresh array := fun hfresh => harray (hl.later.fresh hfresh)
    refine (ih (index + 1) (hns.later hl.later) harray').bind fun rest ns' hrest => .pure ?_
    refine ⟨hl.later.trans hrest.1, fun a store memory hmirrors ha => ?_⟩
    rw [List.map_cons, SymbolTable.fill, List.append_assoc]
    refine hl.bind hns hmirrors fun v memory₁ hmirrors₁ hframe₁ hv => ?_
    have ha₁ (v' : Value) (hv' : A.code.read memory₁ array = some v') : v' = a :=
      ha v' ((hframe₁ array harray).symm.trans hv')
    have hindex : (Element.literal index .int).Gives (A.code.read memory₁) (.int index) := rfl
    refine (runs_store element ha₁ hindex hv).append fun _ memory₂ heq => ?_
    rw [heq]
    exact (hrest.2 a store memory₁ hmirrors₁ ha₁).imp fun _ memory₃ hframe => hframe₁.trans hl.later hframe

/-- A new array with its elements. -/
theorem computes_arrayLiteral {attributes : Assoc Attribute} {p : Position} {type : Ty} {xs : List (Store → Act W Value)}
    {es : List Node} (htype : A.context.typeOf ⟨.arrayLiteral, attributes, es, p⟩ = .ok type)
    (h : List.Forall₂ (fun x e => A.Computes x true e) xs es) :
    A.Computes (fun store => SymbolTable.arrayOf A.ask type.name (xs.map (· store))) void
      ⟨.arrayLiteral, attributes, es, p⟩ := by
  refine computes_of_value fun expected ns hns => ?_
  rw [SymbolTable.lower_arrayLiteral _ _ _ _ _ _ htype]
  have hsize : A.Carries (fun _ => pure (.int es.length)) ns ⟨.literal es.length .int, []⟩ ns :=
    ⟨.refl ns, trivial, fun store memory _ => .nil ⟨.refl ns memory, rfl⟩⟩
  refine (leaves_lowerNewArray hns hsize).bind fun array ns₁ harray => ?_
  obtain ⟨harray, hvalue⟩ := harray
  refine .known fun name hname => ?_
  have hnot : ¬ns₁.Fresh name := harray.old.not_fresh hname
  refine (leaves_lowerElements h 0 (hns.later harray.later) hnot).bind fun stores ns' hstores => .pure ?_
  refine ⟨⟨harray.later.trans hstores.1, harray.old.later hstores.1, fun store memory hmirrors => ?_⟩, hvalue⟩
  have hmeans : SymbolTable.arrayOf A.ask type.name (xs.map (· store)) = (do
      let array ← (do A.ask (.newArray type.name (← Act.number (← pure (.int es.length)))))
      let _ ← SymbolTable.fill A.ask array 0 (xs.map (· store))
      return array) := by
    simp [SymbolTable.arrayOf, Act.number, h.length_eq]
  rw [hmeans]
  refine harray.bind hns hmirrors fun a memory₁ hmirrors₁ hframe ha => ?_
  have hfilled := hstores.2 a store memory₁ hmirrors₁ (exists_var_of_name hname ha)
  refine hfilled.map (f := fun _ => a) fun _ memory₂ hframe₂ => ?_
  exact ⟨hframe.trans harray.later hframe₂, hframe₂.gives harray.old ha⟩

end MethodRun
end JmmCompiler

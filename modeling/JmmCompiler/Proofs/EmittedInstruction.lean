import JmmCompiler.Proofs.EmittedValue
/-! Emitted lines do what instructions do: from the empty stack to the empty stack, or to the end of the
run. -/
namespace JmmCompiler

namespace Jasmin.Scope

/-- What an instruction loads and computes fits, and what is assigned or tested is a value. -/
def InstructionFits (s : Scope) : Instruction → Prop
  | .assign (.item _ type index) i =>
    type.isArray = false ∧ index.Operand ∧ s.ValueFits i ∧ GivesValue i
  | .assign _ i | .branch i _ => s.ValueFits i ∧ GivesValue i
  | .putField object _ e => s.IsThis object ∧ e.Operand
  | .ret e type => e = .absent ∨ type = .void ∨ e.Operand
  | i => s.ValueFits i

end Jasmin.Scope

namespace Jasmin
variable {W : Type} {s : Scope} {code : List Line} {ask : Demand → Act W Value} {b b' : Body}
  {stack : List Value} {memory : Int → Value} {w : W}

/-- Where the machine is after an instruction. The first exit of a jump is its target. -/
def exitStage (taken : Nat) (b' : Body) (i : Instruction) (memory' : Value → Int → Value) :
    Value × Exit Outcome → W → Stage W
  | (v, .follow choice), w =>
    .running ⟨if i.target?.isSome ∧ choice = 0 then taken else b'.lines.length, [], memory' v, w⟩
  | (_, .stop outcome), w => .halted (some outcome) w

theorem exitStage_next {taken : Nat} {i : Instruction} {memory' : Value → Int → Value}
    (hi : i.target? = none) (v : Value) :
    exitStage taken b' i memory' (v, .follow 0) w = b'.stage [] (memory' v) w := by
  simp [exitStage, hi, Body.stage]

/-- The last line of an instruction that ends in what comes next. -/
theorem delivers_next {l : Line} {n taken : Nat} {i : Instruction} {x : Act W Value}
    {memory' : Value → Int → Value} (hi : i.target? = none) (hcode : b.lines ++ [l] <+: code)
    (hexec : l.exec code ask (b.lines.length + 1) stack memory = (do
      let v ← x
      pure (.to (b.lines.length + 1) [] (memory' v)))) :
    Delivers code ask 1 (b.stage stack memory w) (runOn (do return (← x, .follow 0)) w)
      (exitStage taken ⟨b.lines ++ [l], n⟩ i memory') := by
  have hline : Delivers code ask 1 (b.stage stack memory w) _ _ :=
    delivers_line (n := n) hcode hexec
  exact hline.bind_left fun v w' _ => .pure _ (exitStage_next hi v)

theorem exec_slotStore (s : Scope) (type : Ty) (n : Int) (v : Value) (pc : Nat) :
    (if type.isIntLike then SlotOp.istore else .astore).exec pc memory n (v :: stack) = (do
      let v ← (s.setting ask).held type v
      pure (.to pc stack (Function.update memory n v))) := by
  simp only [Setting.held, Scope.setting, Ty.fits]
  by_cases ht : type.isIntLike = true <;> by_cases hv : v.isReference = true <;>
    simp [SlotOp.exec, ht, hv]

theorem write_of_slot {name : String} {n : Int} (h : s.method.slots.find? name = some n) (v : Value) :
    s.method.writeAll memory [name] v = Function.update memory n v := by
  simp [CodeMethod.writeAll, CodeMethod.write, h]

/-- The value on the stack goes to the slot of a variable. -/
theorem delivers_store {dest : Element} {name : String} {type : Ty} {i : Instruction} {taken : Nat}
    (hi : i.target? = none) (hname : dest.name = .ok name) (htype : dest.type = .ok type)
    (h : runOn (s.store dest) b = (.ok (), b')) (hcode : b'.lines <+: code) (v : Value) :
    Delivers code ask 1 (b.stage [v] memory w)
      (runOn (do return (← (s.setting ask).held type v, .follow 0)) w)
      (exitStage taken b' i (s.method.writeAll memory [name])) := by
  simp only [Scope.store, hname, htype, runOn_bind_eq_ok, Emit.runOn_ofExcept, Prod.mk.injEq,
    Except.ok.injEq, slot_eq_ok] at h
  obtain ⟨_, _, ⟨rfl, rfl⟩, n, _, ⟨hn, rfl⟩, _, _, ⟨rfl, rfl⟩, hslot⟩ := h
  obtain ⟨hnonneg, rfl⟩ := Emit.runOn_slot_eq_ok.1 hslot
  refine delivers_next hi hcode ?_
  simp only [Line.exec, readSlot_body hnonneg, write_of_slot hn]
  exact exec_slotStore s type n v _

/-- An assignment that becomes an increment adds a number to the variable, or takes one away. -/
theorem increment_eq_some {dest : Element} {i : Instruction} {amount : Int}
    (h : Scope.increment? dest i = .ok (some amount)) :
    ∃ op left name n type type', i = .binary op left (.literal n type) type' ∧
      left.isItem = false ∧ left.name = .ok name ∧ dest.name = .ok name ∧ dest.type = .ok .int ∧
      (op = "+" ∧ amount = n ∨ op = "-" ∧ amount = -n) := by
  unfold Scope.increment? at h
  split at h
  · simp at h
  · rename_i op left right type' hitem
    by_cases hop : op ≠ "+" ∧ op ≠ "-"
    · simp [hop] at h
    simp only [hop, if_false, bind_eq_ok] at h
    obtain ⟨destType, hdest, h⟩ := h
    by_cases hint : destType ≠ .int
    · simp [hint] at h
    obtain rfl : destType = .int := by simpa using hint
    have hamount (name : String) (n : Int) (h : (do
        if name ≠ (← dest.name) then return none
        let amount := if op = "+" then n else -n
        return if fitsByte amount then some amount else none) =
          (Except.ok (some amount) : Except Failure (Option Int))) :
        dest.name = .ok name ∧ (op = "+" ∧ amount = n ∨ op = "-" ∧ amount = -n) := by
      obtain ⟨destName, hname, h⟩ := bind_eq_ok.1 h
      by_cases heq : name = destName
      · subst heq
        refine ⟨hname, ?_⟩
        have hop : op = "+" ∨ op = "-" := by
          by_contra hneither
          exact hop (not_or.1 hneither)
        simp only [ne_eq, not_true_eq_false, if_false, pure_eq_ok, Option.ite_none_right_eq_some,
          Option.some.injEq] at h
        rcases hop with rfl | rfl
        · exact .inl ⟨rfl, h.2.symm⟩
        · exact .inr ⟨rfl, h.2.symm⟩
      · simp [heq] at h
    simp only [ne_eq, not_true_eq_false, if_false] at h
    split at h
    · rename_i name type n type''
      obtain ⟨hname, hop⟩ := hamount name n h
      exact ⟨op, _, name, n, type'', type', rfl, rfl, rfl, hname, hdest, hop⟩
    · rename_i name type n type''
      obtain ⟨hname, hop⟩ := hamount name n h
      exact ⟨op, _, name, n, type'', type', rfl, rfl, rfl, hname, hdest, hop⟩
    · simp at h
  · simp at h

theorem act_assign {dest : Element} {name : String} {type : Ty} (hname : dest.name = .ok name)
    (htype : dest.type = .ok type) (hitem : dest.isItem = false) (read : String → Option Value)
    (i : Instruction) :
    (s.setting ask).act read (.assign dest i) = (do
      let v ← (s.setting ask).value read i
      return (← (s.setting ask).held type v, .follow 0)) := by
  cases dest with
  | var n t =>
    obtain rfl : t = type := by simpa [Element.type] using htype
    simp [Setting.act]
  | classRef n t =>
    obtain rfl : t = type := by simpa [Element.type] using htype
    simp [Setting.act]
  | literal n t => simp [Element.name] at hname
  | item array t index => simp [Element.isItem] at hitem
  | absent => simp [Element.name] at hname

/-- Taking a number away is adding its negative. -/
theorem exists_operator_increment {op : String} {amount n : Int}
    (hop : op = "+" ∧ amount = n ∨ op = "-" ∧ amount = -n) :
    ∃ o, Operator.ofSymbol? op = some o ∧
      ∀ a, (o.apply (.int a) (.int n) : Act W Value) = pure (.int (wrap (a + amount))) := by
  rcases hop with ⟨rfl, rfl⟩ | ⟨rfl, rfl⟩
  · exact ⟨.arithmetic .add, rfl, fun a => rfl⟩
  · exact ⟨.arithmetic .sub, rfl, fun a => by rw [← Int.sub_eq_add_neg]; rfl⟩

/-- The increment of a variable does what the addition or the subtraction of a number does. -/
theorem delivers_increment {dest : Element} {i : Instruction} {amount : Int} {taken : Nat} {name : String}
    (hfits : s.ValueFits i) (hamount : Scope.increment? dest i = .ok (some amount))
    (hname : dest.name = .ok name)
    (h : runOn (do Emit.increment (← Emit.ofExcept (s.method.slot name)) amount) b = (.ok (), b'))
    (hcode : b'.lines <+: code) (hitem : dest.isItem = false) :
    Delivers code ask 1 (b.stage [] memory w)
      (runOn ((s.setting ask).act (s.method.read memory) (.assign dest i)) w)
      (exitStage taken b' (.assign dest i) (s.method.writeAll memory [name])) := by
  obtain ⟨op, left, x, n, type, type', rfl, hvar, hleft, hdest, htype, hop⟩ := increment_eq_some hamount
  obtain rfl : x = name := Except.ok.inj (hdest.symm.trans hname)
  simp only [runOn_bind_eq_ok, Emit.runOn_ofExcept, Prod.mk.injEq, slot_eq_ok] at h
  obtain ⟨k, _, ⟨hk, rfl⟩, h⟩ := h
  obtain rfl : ⟨b.lines ++ [.increment k amount], b.nextLabel⟩ = b' := by
    unfold Emit.increment at h
    split at h
    · simpa using h
    · simp at h
  obtain ⟨ltype, rfl⟩ : ∃ ltype, left = .var x ltype := by
    cases left with
    | var y ltype => exact ⟨ltype, by rw [Except.ok.inj hleft]⟩
    | classRef y ltype => exact hfits.1.elim
    | literal k type => simp [Element.name] at hleft
    | item array type index => simp [Element.isItem] at hvar
    | absent => simp [Element.name] at hleft
  have hint : Ty.int.isIntLike = true := by decide
  have hop' : op = "+" ∨ op = "-" := hop.imp And.left And.left
  have hltype : ltype.isIntLike = true := hfits.2.2 hop'
  simp only [act_assign hname htype hitem]
  have hexec : (Line.increment k amount).exec code ask (b.lines.length + 1) [] memory = (do
      let v ← (do
        let v ← (s.setting ask).value (s.method.read memory)
          (.binary op (.var x ltype) (.literal n type) type')
        (s.setting ask).held .int v)
      pure (.to (b.lines.length + 1) [] (s.method.writeAll memory [x] v))) := by
    obtain ⟨o, ho, happly⟩ := exists_operator_increment (W := W) hop
    simp only [Setting.value, Setting.operand, lookup_of_slot hk, write_of_slot hk, Line.exec, ho]
    cases hvalue : memory k with
    | int a => simp [Setting.held, Scope.setting, Ty.fits, Value.isReference, hltype, happly, hint]
    | null => simp [Setting.held, Scope.setting, Ty.fits, Value.isReference, hltype]
    | ref a => simp [Setting.held, Scope.setting, Ty.fits, Value.isReference, hltype]
  have hnext : Delivers code ask 1 (b.stage [] memory w) _ (exitStage taken
      ⟨b.lines ++ [.increment k amount], b.nextLabel⟩
      (.assign dest (.binary op (.var x ltype) (.literal n type) type'))
      (s.method.writeAll memory [x])) := delivers_next rfl hcode hexec
  simpa only [bind_assoc] using hnext

/-- The lines of an assignment to a variable. -/
theorem delivers_assign {dest : Element} {name : String} {i : Instruction} {taken : Nat}
    (hlabels : (labelNames code).Nodup) (hvalueFits : s.ValueFits i) (hgives : Scope.GivesValue i)
    (hitem : dest.isItem = false) (hname : dest.name = .ok name)
    (h : runOn (s.assign dest i) b = (.ok (), b')) (hcode : b'.lines <+: code) :
    Delivers code ask 1 (b.stage [] memory w)
      (runOn ((s.setting ask).act (s.method.read memory) (.assign dest i)) w)
      (exitStage taken b' (.assign dest i) (s.method.writeAll memory [name])) := by
  obtain ⟨type, htype⟩ : ∃ type, dest.type = .ok type := by
    cases dest with
    | absent => simp [Element.name] at hname
    | _ => exact ⟨_, rfl⟩
  rw [s.assign_of_not_isItem hitem] at h
  obtain ⟨amount, _, hamount, h⟩ := runOn_bind_eq_ok.1 h
  simp only [Emit.runOn_ofExcept, Prod.mk.injEq] at hamount
  obtain ⟨hamount, rfl⟩ := hamount
  cases amount with
  | some amount =>
    obtain ⟨x, _, hx, h⟩ := runOn_bind_eq_ok.1 h
    simp only [Emit.runOn_ofExcept, Prod.mk.injEq] at hx
    obtain ⟨hx, rfl⟩ := hx
    obtain rfl : x = name := Except.ok.inj (hx.symm.trans hname)
    exact delivers_increment hvalueFits hamount hname h hcode hitem
  | none =>
    obtain ⟨_, b₁, hvalue, hstore⟩ := runOn_bind_eq_ok.1 h
    have hcode₁ : b₁.lines <+: code := (s.adds_store dest b₁ _ b' hstore).lines_le.trans hcode
    simp only [act_assign hname htype hitem]
    refine (delivers_value hlabels hvalueFits hgives hvalue hcode₁).bind fun v w₁ _ => ?_
    exact delivers_store rfl hname htype hstore hcode v

/-- A jump that is taken if a truth value is 1 goes where the instruction goes. -/
theorem delivers_branch_of_jumps {condition : Instruction} {label : String} {taken : Nat} {x : Act W Value}
    (hx : Jumps code ask (b.stage [] memory w) (runOn x w) taken b' [] memory)
    (hbool : ∀ v w', runOn x w = (.ok v, w') → ∃ t, v = .ofBool t) :
    Delivers code ask 1 (b.stage [] memory w)
      (runOn (do
        let v ← x
        return (v, .follow (if ← Act.truth v then 0 else 1))) w)
      (exitStage taken b' (.branch condition label) fun _ => memory) := by
  refine hx.bind_left fun v w' hv => ?_
  obtain ⟨t, rfl⟩ := hbool v w' hv
  cases t with
  | true => exact .pure _ rfl
  | false => exact .pure _ rfl

/-- A value on the stack that is not 0 lets a jump be taken. -/
theorem delivers_test {condition : Instruction} {label : String} {taken n : Nat}
    (htaken : target code label = some taken) (hcode : b.lines ++ [.jump .zero .ne label] <+: code)
    (v : Value) :
    Delivers code ask 1 (b.stage [v] memory w)
      (runOn (do return (v, Exit.follow (if ← Act.truth v then 0 else 1))) w)
      (exitStage taken ⟨b.lines ++ [.jump .zero .ne label], n⟩ (.branch condition label)
        fun _ => memory) := by
  have hline (hexec : (Line.jump .zero .ne label).exec code ask (b.lines.length + 1) [v] memory = (do
      let t ← Act.truth v
      pure (.to (if t then taken else b.lines.length + 1) [] memory))) :
      Delivers code ask 1 (b.stage [v] memory w)
        (runOn (do return (v, Exit.follow (if ← Act.truth v then 0 else 1))) w)
        (exitStage taken ⟨b.lines ++ [.jump .zero .ne label], n⟩ (.branch condition label)
          fun _ => memory) := by
    have hl : code[b.lines.length]? = some (.jump .zero .ne label) :=
      getElem?_of_append (i := 0) hcode rfl
    have h : Delivers code ask 1 (b.stage [v] memory w) _ _ :=
      Delivers.line (f := ⟨b.lines.length, [v], memory, w⟩) hl hexec
    refine h.bind_left fun t w' _ => .pure _ ?_
    cases t <;> simp [exitStage, Instruction.target?, Move.stage]
  rcases truth_cases (W := W) v with hv | hv | ⟨hv, hfault⟩ | hv
  · subst hv
    exact hline (by simp [Line.exec, Comparison.holds])
  · subst hv
    exact hline (by simp [Line.exec, Comparison.holds, goTo, htaken])
  · refine hline ?_
    rw [hfault]
    cases v with
    | int n => simp [Value.isReference] at hv
    | null => rfl
    | ref n => rfl
  · simp only [hv, runOn_bind, runOn_throw]
    exact fun h => absurd rfl h

/-- The lines of a conditional jump. -/
theorem delivers_branch {condition : Instruction} {label : String} {taken : Nat}
    (hlabels : (labelNames code).Nodup) (hvalueFits : s.ValueFits condition)
    (hgives : Scope.GivesValue condition) (htaken : target code label = some taken)
    (h : runOn (s.branch condition label) b = (.ok (), b')) (hcode : b'.lines <+: code) :
    Delivers code ask 1 (b.stage [] memory w)
      (runOn ((s.setting ask).act (s.method.read memory) (.branch condition label)) w)
      (exitStage taken b' (.branch condition label) fun _ => memory) := by
  have hvalue (h : runOn (do
      s.value condition
      Emit.line (.jump .zero .ne label)) b = (.ok (), b')) :
      Delivers code ask 1 (b.stage [] memory w)
        (runOn ((s.setting ask).act (s.method.read memory) (.branch condition label)) w)
        (exitStage taken b' (.branch condition label) fun _ => memory) := by
    obtain ⟨_, b₁, hcondition, hline⟩ := runOn_bind_eq_ok.1 h
    obtain rfl : ⟨b₁.lines ++ [.jump .zero .ne label], b₁.nextLabel⟩ = b' := by simpa using hline
    have hcode₁ : b₁.lines <+: code := (List.prefix_append _ _).trans hcode
    exact (delivers_value hlabels hvalueFits hgives hcondition hcode₁).bind fun v w₁ _ =>
      delivers_test htaken hcode v
  unfold Scope.branch at h
  split at h
  · rename_i op left right type
    by_cases hop : (Comparison.ofSymbol? op).isSome = true
    · obtain ⟨c, hc⟩ := Option.isSome_iff_exists.1 hop
      simp only [hop, if_true] at h
      have hsymbol := Comparison.operator_ofSymbol hc
      have hjumps : Jumps code ask (b.stage [] memory w) _ taken b' [] memory :=
        jumps_compareJump hc hvalueFits.1 hvalueFits.2.1 h hcode htaken
      have hbranch : Delivers code ask 1 (b.stage [] memory w) _
          (exitStage taken b' (.branch (.binary op left right type) label) fun _ => memory) :=
        delivers_branch_of_jumps hjumps fun v w' hv => by
          simp only [runOn_bind_eq_ok] at hv
          obtain ⟨_, _, _, _, _, _, happly⟩ := hv
          exact apply_comparison_bool happly
      simpa [Setting.act, Setting.value, hsymbol] using hbranch
    · simp only [hop] at h
      exact hvalue h
  · rename_i e type
    have hjumps : Jumps code ask (b.stage [] memory w) _ taken b' [] memory :=
      jumps_not hvalueFits h hcode htaken type
    refine delivers_branch_of_jumps hjumps fun v w' hv => ?_
    simp only [Setting.value, if_true, runOn_bind_eq_ok, runOn_pure, Prod.mk.injEq,
      Except.ok.injEq] at hv
    obtain ⟨_, _, _, t, _, _, rfl, _⟩ := hv
    exact ⟨!t, rfl⟩
  · exact hvalue h

/-- The lines of a return. -/
theorem delivers_ret {e : Element} {type : Ty} {taken : Nat} (hfits : s.InstructionFits (.ret e type))
    (h : runOn (s.ret e type) b = (.ok (), b')) (hcode : b'.lines <+: code) :
    Delivers code ask 1 (b.stage [] memory w)
      (runOn ((s.setting ask).act (s.method.read memory) (.ret e type)) w)
      (exitStage taken b' (.ret e type) fun _ => memory) := by
  unfold Scope.ret at h
  simp only [Setting.act]
  by_cases hvoid : e = .absent ∨ type = .void
  · simp only [hvoid, if_true, Emit.runOn_plain, Prod.mk.injEq, true_and] at h ⊢
    subst h
    have hl : code[b.lines.length]? = some (.plain .ret) := getElem?_of_append (i := 0) hcode rfl
    have hline : Reaches code ask 1 _ _ := Reaches.line (f := ⟨b.lines.length, [], memory, w⟩) hl
    exact delivers_ok.2 hline
  · simp only [hvoid, if_false, runOn_bind_eq_ok, Emit.runOn_plain, Prod.mk.injEq, true_and] at h ⊢
    obtain ⟨_, b₁, hload, rfl⟩ := h
    have he : e.Operand := by
      rcases hfits with habsent | hrest
      · exact absurd (Or.inl habsent) hvoid
      · exact hrest.resolve_left fun htype => hvoid (Or.inr htype)
    refine (delivers_load he hload ((List.prefix_append _ _).trans hcode)).bind fun v w₁ _ => ?_
    have hl : code[b₁.lines.length]? =
        some (.plain (if type.isIntLike then .iret else .aret)) := getElem?_of_append (i := 0) hcode rfl
    have hexec : (Line.plain (if type.isIntLike then .iret else .aret)).exec code ask
        (b₁.lines.length + 1) [v] memory = (do
          let v ← (s.setting ask).held type v
          pure (.stop (some v))) := by
      simp only [Setting.held, Scope.setting, Ty.fits]
      by_cases ht : type.isIntLike = true <;> by_cases hv : v.isReference = true <;>
        simp [Line.exec, Plain.exec, ht, hv]
    have hline : Delivers code ask 1 (b₁.stage [v] memory w₁) _ _ :=
      Delivers.line (f := ⟨b₁.lines.length, [v], memory, w₁⟩) hl hexec
    exact hline.bind_left fun v w₂ _ => .pure _ rfl

/-- The line of a jump. -/
theorem reaches_goto {label : String} {taken : Nat} (htaken : target code label = some taken)
    (hcode : b.lines ++ [.goto label] <+: code) :
    Reaches code ask 1 (b.stage [] memory w) (.running ⟨taken, [], memory, w⟩) :=
  reaches_line (getElem?_of_append (i := 0) hcode rfl) (by simp [Line.exec, goTo, htaken])

end Jasmin
end JmmCompiler

import JmmCompiler.Proofs.ComputedExpressions
/-! The code of a condition and of what comes behind it. A jump is taken where the condition holds. -/
namespace JmmCompiler
namespace MethodRun
variable {W : Type} {A : MethodRun W} {ns ns₁ ns' : Names} {type : Ty} {c c' e e' : Node}
open CodeMethod

/-- An operand has a value wherever one is wanted. -/
theorem Operand.computes (h : A.Operand e) (htyped : Typed A.context e type) (he' : A.normalize e = .ok e') :
    A.Computes (A.eval e) false e' :=
  h.value ▸ computes_of_typed htyped h.orderly h.noClass he'

/-- Code goes to a label where a condition holds, and on where it does not. -/
def Tests (A : MethodRun W) (c : Node) (label : String) (ns : Names) (is : List Instruction) : Prop :=
  ∀ store memory, A.Mirrors store memory → ∀ pc w target, A.code.Contains pc is → A.code.labels.find? label = some target →
    target < A.code.code.length → (A.code.machine A.ask).Delivers 1 (A.code.place pc memory w)
      (runOn (A.context.table.holds A.context.method A.ask c store) w) fun taken w' s =>
        ∃ memory', s = A.code.place (if taken then target else pc + size is) memory' w' ∧ A.code.Frame ns memory memory'

/-- What a condition needs is computed, and then the jump tests it. -/
theorem tests_of_runs {α : Type} {before : List Instruction} {test : Instruction} {y : Store → Act W α}
    {z : α → Act W Value} {P : α → (Int → Value) → Prop} (label : String) (hbefore : ∀ store memory, A.Mirrors store memory →
      A.code.Runs A.ask before memory (y store) fun a memory' => A.code.Frame ns memory memory' ∧ P a memory')
    (htest : ∀ a memory, P a memory → A.code.HasSlotsFor test.uses →
      (Query.setting A.ask).value (A.code.read memory) test = z a)
    (hmeans : ∀ store, A.eval c store = y store >>= z) : A.Tests c label ns (before ++ [.branch test label]) := by
  intro store memory hmirrors pc w target hcontains hlabel htarget
  obtain ⟨hcode, hbranch, -⟩ := contains_append.1 hcontains
  have hholds : A.context.table.holds A.context.method A.ask c store = y store >>= fun a => z a >>= Act.truth := by
    rw [SymbolTable.holds, ← bind_assoc, ← hmeans]
    rfl
  rw [hholds]
  refine ((hbefore store memory hmirrors pc w hcode).bind (n := 1) fun a w' s _ hs => ?_).weaken (Nat.le_add_left 1 0)
  obtain ⟨memory', rfl, hframe, ha⟩ := hs
  have hslots : A.code.HasSlotsFor test.uses := (A.finished.mentions _ _ hbranch).2
  rw [← htest a memory' ha hslots]
  refine (delivers_branch hbranch hlabel htarget).imp fun taken w'' s hs => ⟨memory', ?_, hframe⟩
  rw [hs, size_append]
  rfl

/-- A condition becomes code that tests it. -/
theorem leaves_lowerBranch (h : Typed A.context c type) (hc : A.Operand c) (hc' : A.normalize c = .ok c') (label : String)
    (hns : A.Reserves ns) :
    Lower.Leaves ns (A.context.table.lowerBranch A.context.method c' label) fun is ns' =>
      ns.Later ns' ∧ A.Tests c label ns is := by
  -- what is no comparison and no negation has its value tested
  have hvalue (hunary : c'.kind ≠ .unary)
      (hbinary : c'.kind = .binary → ∃ op, c'.op = .ok op ∧ Comparison.ofSymbol? op = none) :
      Lower.Leaves ns (A.context.table.lowerBranch A.context.method c' label) fun is ns' =>
        ns.Later ns' ∧ A.Tests c label ns is := by
    rw [SymbolTable.lowerBranch_value _ _ hunary hbinary]
    refine (hc.computes h hc' _ ns hns).bind fun l ns' hl => .pure ⟨hl.1.later, ?_⟩
    exact tests_of_runs label hl.1.runs (fun a memory ha hslots => operand_of_gives A.ask hslots ha) (z := pure) (by simp)
  obtain ⟨hkind, -⟩ := SymbolTable.kind_normalizeVarargs hc'
  cases h with
  | @unary operand _ ho hboolean p =>
    obtain ⟨_, _ | ⟨ho', _ | _⟩, rfl⟩ := children_of_normalize hc' (by simp) (by simp)
    have hoperand := hc.orderly.operand (by simp) ho (by simp)
    rw [SymbolTable.lowerBranch_not]
    refine (hoperand.computes ho ho' _ ns hns).bind fun l ns' hl => .pure ⟨hl.1.later, ?_⟩
    exact tests_of_runs label hl.1.runs (fun a memory ha hslots => value_unary hslots ha _) fun store => by rw [eval_eq]; rfl
  | @binary op o left right _ _ hop hl hr halike hwanted hadmits p =>
    obtain ⟨_, _ | ⟨hl', _ | ⟨hr', _ | _⟩⟩, rfl⟩ := children_of_normalize hc' (by simp) (by simp)
    rename_i left' _ right'
    have hnamed : Node.op ⟨.binary, ⟨[("op", .text op)]⟩, [left, right], p⟩ = .ok op := rfl
    cases hcomparison : Comparison.ofSymbol? op with
    | none => exact hvalue (by simp) fun _ => ⟨op, rfl, hcomparison⟩
    | some comparison =>
      have hand : op ≠ "&&" := by
        rintro rfl
        cases hcomparison
      have hleft := (hc.orderly.operand (by simp) hl (by simp)).computes hl hl'
      have hright := (hc.orderly.operand (by simp) hr (by simp)).computes hr hr'
      rw [SymbolTable.lowerBranch_compare _ _ _ hcomparison]
      refine (hleft _ ns hns).bind fun l ns₁ hl => (hright _ ns₁ (hns.later hl.1.later)).bind fun r ns' hr => ?_
      refine .pure ⟨hl.1.later.trans hr.1.later, ?_⟩
      have hbefore (store : Store) (memory : Int → Value) (hmirrors : A.Mirrors store memory) :
          A.code.Runs A.ask (l.computation ++ r.computation) memory (do
            let a ← A.eval left store
            let b ← A.eval right store
            return (a, b)) fun v memory' => A.code.Frame ns memory memory' ∧
              l.code.Gives (A.code.read memory') v.1 ∧ r.code.Gives (A.code.read memory') v.2 := by
        rw [← List.append_nil (l.computation ++ r.computation)]
        exact hl.1.bind₂ hr.1 hns hmirrors fun a b memory₂ _ hframe ha hb => .nil ⟨hframe, ha, hb⟩
      refine tests_of_runs (z := fun v => o.apply v.1 v.2) label hbefore
        (fun v memory hv hslots => value_binary hop hslots hv.1 hv.2) fun store => ?_
      rw [eval_eq]
      simp only [SymbolTable.valueOf, List.map_cons, hnamed, Act.ofExcept_ok, pure_bind, hand, if_false, hop, bind_assoc]
  | _ =>
    refine hvalue ?_ ?_
    · simp [hkind]
    · simp [hkind]

end MethodRun
end JmmCompiler

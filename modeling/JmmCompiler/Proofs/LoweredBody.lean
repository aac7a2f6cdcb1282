import JmmCompiler.Proofs.LoweredFlow
import JmmCompiler.Proofs.StagedStatements
/-! The code of every statement that fits into its method leads where the statement does. -/
namespace JmmCompiler
namespace SymbolTable

/-- What an update is made of. -/
theorem parts_of_selfUpdate {name op : String} {target : Ty} {o : Operator} {left right : Node} {p : Position}
    {update : Instruction} (hop : Operator.ofSymbol? op = some o)
    (h : selfUpdate? name target ⟨.binary, ⟨[("op", .text op)]⟩, [left, right], p⟩ = .ok (some update)) :
    left.kind = .varRef ∧ left.name = .ok name ∧ ∃ literal, literalElement? right = .ok (some literal) ∧
      update = .binary op (.var name target) literal target := by
  have hparts (h : (if left.kind ≠ .varRef then .ok none else do
      if (← left.name) ≠ name then return none
      return (← literalElement? right).map fun literal => .binary op (.var name target) literal target :
        Except Failure (Option Instruction)) = .ok (some update)) :
      left.kind = .varRef ∧ left.name = .ok name ∧ ∃ literal, literalElement? right = .ok (some literal) ∧
        update = .binary op (.var name target) literal target := by
    split at h
    · cases h
    rename_i hkind
    rw [bind_eq_ok] at h
    obtain ⟨read, hread, h⟩ := h
    split at h
    · cases h
    rename_i hname
    simp only [bind_eq_ok, pure_eq_ok, Option.map_eq_some_iff] at h
    obtain ⟨found, hfound, literal, rfl, rfl⟩ := h
    exact ⟨not_not.1 hkind, not_not.1 hname ▸ hread, literal, hfound, rfl⟩
  rw [selfUpdate?_binary name target hop] at h
  cases o with
  | comparison c => cases h
  | arithmetic a => exact hparts h
  | logical l => exact hparts h

/-- Gathering arguments makes no update of what was none, and leaves updates as they are. -/
theorem selfUpdate?_normalizeVarargs {t : SymbolTable} {method name : String} {target : Ty} {e e' : Node}
    (h : t.normalizeVarargs (some method) e = .ok e') : selfUpdate? name target e' = selfUpdate? name target e := by
  obtain ⟨hkind, hattributes⟩ := kind_normalizeVarargs h
  obtain ⟨kind, attributes, cs, p⟩ := e
  by_cases hbinary : kind = .binary
  · subst hbinary
    obtain ⟨below, cs', hbelow, hcs, rfl⟩ := normalizeVarargs_eq_ok.1 h
    have hop : Node.op ⟨.binary, attributes, cs', p⟩ = Node.op ⟨.binary, attributes, cs, p⟩ := rfl
    have hparts {c c' : Node} (h : t.normalizeVarargs below c = .ok c') :
        c'.kind = c.kind ∧ c'.name = c.name ∧ literalElement? c' = literalElement? c := by
      obtain ⟨hkind, hattributes⟩ := kind_normalizeVarargs h
      obtain ⟨kind, attributes, cs, p⟩ := c
      obtain ⟨kind', attributes', cs', p'⟩ := c'
      obtain rfl : kind' = kind := hkind
      obtain rfl : attributes' = attributes := hattributes
      exact ⟨rfl, rfl, rfl⟩
    unfold selfUpdate?
    rw [hop]
    rcases mapM_eq_ok_iff.1 hcs with _ | ⟨hleft, _ | ⟨hright, _ | _⟩⟩
    · rfl
    · rfl
    · simp only [hparts hleft, hparts hright]
    · rfl
  · have hbinary' : e'.kind ≠ .binary := by rwa [hkind]
    simp only [selfUpdate?, ne_eq, hbinary, hbinary', not_false_eq_true, if_true]

end SymbolTable

namespace MethodRun
variable {W : Type} {A : MethodRun W} {ns ns' : Names} {memory : Int → Value} {store : Store} {name : String} {type : Ty}
  {value value' : Node} {n : Nat} {is : List Instruction} {p q : Position}
open CodeMethod

variable (A) in
/-- What a statement of the method does. -/
def exec (returnType : Ty) (rounds : Nat) (n : Node) : Store → Act W Flow :=
  A.context.table.exec A.context.method returnType A.ask rounds n

theorem exec_eq (returnType : Ty) (rounds : Nat) (n : Node) (store : Store) : A.exec returnType rounds n store =
    A.context.table.flowOf A.context.method returnType A.ask rounds n (n.children.map (A.exec returnType rounds)) store := by
  rw [exec, SymbolTable.exec_eq]
  rfl

variable (A) in
/-- However names have been given out, a rewritten statement becomes code that leads where the statement does. -/
def Performs (returnType : Ty) (rounds : Nat) (n n' : Node) : Prop :=
  ∀ ns, A.Reserves ns → Lower.Leaves ns (A.context.table.lowerStatement A.context.method returnType n') fun is ns' =>
    ns.Later ns' ∧ A.Leads rounds is (A.exec returnType rounds n)

theorem Leads.congr {x y : Store → Act W Flow} (h : A.Leads n is y)
    (hxy : ∀ store, store.self = A.self → x store = y store) : A.Leads n is x := by
  intro store memory hmirrors
  rw [hxy store hmirrors.self]
  exact h store memory hmirrors

/-! ## Assignments -/

/-- A variable is given a value that is computed. -/
theorem leads_assign {x : Store → Act W Value} {l : Lowered} (h : A.Carries x ns l ns') (hns : A.Reserves ns)
    (hname : A.Binds name) (type : Ty) (n : Nat) :
    A.Leads n (l.computation ++ [.assign (.var name type) (.single l.code)]) fun store => do
      let v ← x store
      return .next (store.set name v) := by
  refine leads_of_runs n fun store memory hmirrors => ?_
  rw [← bind_pure (x store)]
  refine h.bind hns hmirrors fun a memory₁ hmirrors₁ _ ha => ?_
  have hassign : A.code.Runs A.ask [.assign (.var name type) (.single l.code)] memory₁ (pure a) _ :=
    Runs.assign A.finished fun hslots => operand_of_gives A.ask hslots ha
  refine hassign.imp fun v memory₂ hv => ?_
  rw [hv.1]
  exact hmirrors₁.write hname v

theorem eval_variable (hname : A.Binds name) (p : Position) (store : Store) :
    A.eval ⟨.varRef, ⟨[("name", .text name)]⟩, [], p⟩ store = pure (store.vars name) := by
  rw [eval_varRef, SymbolTable.readVariable]
  exact if_pos hname

/-- A literal is an operand that has the value of the literal, which is a truth value where one is wanted. -/
theorem exists_of_literalElement {e : Node} {literal : Element} (h : Typed A.context e type)
    (hliteral : SymbolTable.literalElement? e = .ok (some literal)) :
    ∃ k t, literal = .literal k t ∧ (∀ store, A.eval e store = pure (.int k)) ∧
      (Ty.assignable .boolean type = true → ∃ b, Value.int k = .ofBool b) := by
  cases h with
  | intLiteral i p =>
    obtain rfl := Option.some.inj (Except.ok.inj hliteral)
    refine ⟨i, .int, rfl, fun store => ?_, fun hboolean => absurd hboolean (by decide)⟩
    rw [eval_eq]
    rfl
  | boolLiteral b p =>
    obtain rfl := Option.some.inj (Except.ok.inj hliteral)
    refine ⟨_, .boolean, rfl, fun store => ?_, fun _ => ⟨b, rfl⟩⟩
    rw [eval_eq]
    rfl
  | _ => cases hliteral

/-- An update of a variable has the value of the expression that it is made of. -/
theorem value_update {update : Instruction} (h : Typed A.context value type) {target : Ty}
    (hupdate : SymbolTable.selfUpdate? name target value = .ok (some update)) (hname : A.Binds name)
    (hmirrors : A.Mirrors store memory) (hslots : A.code.HasSlotsFor update.uses) :
    (Query.setting A.ask).value (A.code.read memory) update = A.eval value store := by
  by_cases hkind : value.kind = .binary
  · cases h with
    | @binary op o left right leftType rightType hop hleft hright halike hwanted hadmits p =>
      obtain ⟨hvariable, hread, literal, hliteral, rfl⟩ := SymbolTable.parts_of_selfUpdate hop hupdate
      obtain ⟨k, t, rfl, hk, hboolean⟩ := exists_of_literalElement hright hliteral
      have hleftValue : A.eval left store = pure (store.vars name) := by
        cases hleft with
        | @varRef found h p =>
          obtain rfl : found = name := Except.ok.inj hread
          exact eval_variable hname p store
        | _ => cases hvariable
      have hnamed : Node.op ⟨.binary, ⟨[("op", .text op)]⟩, [left, right], p⟩ = .ok op := rfl
      have hmeans : A.eval ⟨.binary, ⟨[("op", .text op)]⟩, [left, right], p⟩ store =
          if op = "&&" then (do if ← Act.truth (store.vars name) then pure (.int k) else return .ofBool false)
          else o.apply (store.vars name) (.int k) := by
        rw [eval_eq]
        change SymbolTable.valueOf _ _ _ store _ [A.eval left store, A.eval right store] = _
        simp only [SymbolTable.valueOf, hnamed, hleftValue, hk, Act.ofExcept_ok, pure_bind, hop]
      rw [hmeans, value_binary hop hslots (hmirrors.vars name hname) (show Element.Gives _ (.int k) (.literal k t) from rfl)]
      split
      · rename_i hand
        subst hand
        obtain rfl : o = .logical .and := (Option.some.inj hop).symm
        obtain ⟨b, hb⟩ := hboolean (hwanted .boolean rfl).2
        rw [hb]
        have htruth : (Act.truth (.ofBool b) : Act W Bool) = pure b := by cases b <;> rfl
        simp only [Operator.apply, htruth, pure_bind]
        refine bind_congr fun a => ?_
        cases a <;> rfl
      · rfl
    | _ => cases hkind
  · simp [SymbolTable.selfUpdate?, hkind, pure, Except.pure] at hupdate

/-- A variable is updated by a literal. -/
theorem leads_update {update : Instruction} (h : Typed A.context value type) {target : Ty}
    (hupdate : SymbolTable.selfUpdate? name target value = .ok (some update)) (hname : A.Binds name) (n : Nat) :
    A.Leads n [.assign (.var name target) update] fun store => do
      let v ← A.eval value store
      return .next (store.set name v) := by
  refine leads_of_runs n fun store memory hmirrors => ?_
  refine (Runs.assign A.finished fun hslots => value_update h hupdate hname hmirrors hslots).imp fun v memory₁ hv => ?_
  rw [hv.1]
  exact hmirrors.write hname v

/-- A field of `this` is given a value that is computed. -/
theorem leads_putField {x : Store → Act W Value} {l : Lowered} (h : A.Carries x ns l ns') (hns : A.Reserves ns)
    (hstatic : A.context.isStatic = false) (name : String) (type : Ty) (n : Nat) :
    A.Leads n (l.computation ++ [.putField A.context.table.thisElement (.var name type) l.code]) (fun store => do
      let v ← x store
      match store.self with
      | some object => do
        let _ ← A.ask (.putField name object v)
        return .next store
      | none => throw .fault) := by
  cases hself : A.self with
  | none =>
    intro store memory hmirrors
    obtain ⟨object, hobject, -⟩ := hmirrors.object hstatic
    cases hself.symm.trans hobject
  | some object =>
    have hruns : A.Leads n (l.computation ++ [.putField A.context.table.thisElement (.var name type) l.code]) fun store => do
        let _ ← (do A.ask (.putField name object (← x store)))
        return .next store := by
      refine leads_of_runs (f := fun store _ => store) n fun store memory hmirrors => ?_
      refine h.bind hns hmirrors fun a memory₁ hmirrors₁ _ ha => ?_
      obtain ⟨object', hobject, hread⟩ := hmirrors₁.object hstatic
      obtain rfl : object' = object := Option.some.inj (hobject.symm.trans hself)
      have heffect : A.code.Runs A.ask [.putField A.context.table.thisElement (.var name type) l.code] memory₁
          (A.ask (.putField name object' a)) fun _ memory' => memory' = memory₁ := by
        refine Runs.effect A.finished (by simp) rfl rfl id fun hslots => ?_
        simp only [Setting.act, SymbolTable.thisElement, Setting.operand, Setting.lookup, hread, Query.setting_held, pure_bind,
          operand_of_gives A.ask hslots ha]
        rfl
      exact heffect.imp fun _ memory₂ heq => heq ▸ hmirrors₁
    refine hruns.congr fun store hstore => ?_
    rw [hstore, hself]
    simp only [bind_assoc]

theorem performs_assign {returnType : Ty} {n' : Node} (hname : A.context.Names name) (h : A.context.Assigns type value)
    (horderly : A.Orderly ⟨.assign, {}, [⟨.varRef, ⟨[("name", .text name)]⟩, [], p⟩, value], q⟩)
    (hn' : A.normalize ⟨.assign, {}, [⟨.varRef, ⟨[("name", .text name)]⟩, [], p⟩, value], q⟩ = .ok n') :
    A.Performs returnType n ⟨.assign, {}, [⟨.varRef, ⟨[("name", .text name)]⟩, [], p⟩, value], q⟩ n' := by
  obtain ⟨_, _ | ⟨htarget, _ | ⟨hvalue', _ | _⟩⟩, rfl⟩ := children_of_normalize hn' (by simp) (by simp)
  obtain ⟨_, _ | _, rfl⟩ := children_of_normalize htarget (by simp) (by simp)
  rename_i value'
  obtain ⟨valueType, hvalue⟩ := h.exists_typed
  have hoperand := horderly.operand (by simp) hvalue (by simp)
  have hvariable : A.context.HasVariable name := hname.resolve_right fun himport => by
    have hclass := horderly.here.classes ⟨.varRef, ⟨[("name", .text name)]⟩, [], p⟩ (by simp)
    rw [isClassName_of_import himport.2] at hclass
    cases hclass
  have hmeans (store : Store) : A.exec returnType n
      ⟨.assign, {}, [⟨.varRef, ⟨[("name", .text name)]⟩, [], p⟩, value], q⟩ store =
      (do A.context.table.assignVariable A.context.method A.ask store name (← A.eval value store)) := by
    rw [exec_eq]
    rfl
  intro ns hns
  rw [SymbolTable.lowerStatement]
  change Lower.Leaves ns (A.context.table.lowerAssign A.context.method name value') _
  unfold SymbolTable.lowerAssign
  cases hbinding : A.context.table.binding? A.context.method name with
  | some v =>
    have hbinds : A.Binds name := by rw [Binds, hbinding]; rfl
    refine .known fun update hupdate => ?_
    rw [SymbolTable.selfUpdate?_normalizeVarargs hvalue'] at hupdate
    have hassigns (store : Store) : A.exec returnType n
        ⟨.assign, {}, [⟨.varRef, ⟨[("name", .text name)]⟩, [], p⟩, value], q⟩ store = (do
          let v ← A.eval value store
          return .next (store.set name v)) := by
      simp only [hmeans, SymbolTable.assignVariable, hbinding, Option.isSome_some, if_true]
    cases update with
    | some update => exact .pure ⟨.refl ns, (leads_update hvalue hupdate hbinds n).congr fun store _ => hassigns store⟩
    | none =>
      refine (hoperand.computes hvalue hvalue' _ ns hns).bind fun l ns' hl => .pure ⟨hl.1.later, ?_⟩
      exact (leads_assign hl.1 hns hbinds v.type n).congr fun store _ => hassigns store
  | none =>
    obtain ⟨hfield, hstatic⟩ := hvariable.resolve_left (by simp [hbinding])
    obtain ⟨f, hf⟩ := Option.isSome_iff_exists.1 hfield
    simp only [hf]
    refine (hoperand.computes hvalue hvalue' _ ns hns).bind fun l ns' hl => .pure ⟨hl.1.later, ?_⟩
    refine (leads_putField hl.1 hns hstatic name f.type n).congr fun store _ => ?_
    rw [hmeans]
    refine bind_congr fun v => ?_
    rw [SymbolTable.assignVariable, hbinding, hf]
    rfl

/-- An element of an array is given a value. -/
theorem performs_arrayAssign {returnType : Ty} {array index n' : Node} {arrayType indexType valueType : Ty}
    (harray : Typed A.context array arrayType) (hindex : Typed A.context index indexType)
    (hvalue : Typed A.context value valueType)
    (horderly : A.Orderly ⟨.arrayAssign, {}, [array, index, value], p⟩)
    (hn' : A.normalize ⟨.arrayAssign, {}, [array, index, value], p⟩ = .ok n') :
    A.Performs returnType n ⟨.arrayAssign, {}, [array, index, value], p⟩ n' := by
  obtain ⟨_, _ | ⟨harray', _ | ⟨hindex', _ | ⟨hvalue', _ | _⟩⟩⟩, rfl⟩ := children_of_normalize hn' (by simp) (by simp)
  rename_i array' index' value'
  have hfirst := (horderly.operand (by simp) harray (by simp)).computes harray harray'
  have hsecond := (horderly.operand (by simp) hindex (by simp)).computes hindex hindex'
  have hthird := (horderly.operand (by simp) hvalue (by simp)).computes hvalue hvalue'
  have hmeans (store : Store) : A.exec returnType n ⟨.arrayAssign, {}, [array, index, value], p⟩ store = (do
      let _ ← (do
        let a ← A.eval array store
        let b ← A.eval index store
        let c ← A.eval value store
        A.ask (.store a (← Act.number b) c))
      return .next store) := by
    rw [exec_eq]
    change SymbolTable.storeElement _ _ _ _ _ _ _ = _
    simp only [SymbolTable.storeElement, bind_assoc]
    rfl
  intro ns hns
  rw [SymbolTable.lowerStatement]
  unfold SymbolTable.lowerStore
  refine (hfirst _ ns hns).bind fun l ns₁ hl => (hsecond _ ns₁ (hns.later hl.1.later)).bind fun r ns₂ hr => ?_
  refine .known fun type _ => (hthird _ ns₂ ((hns.later hl.1.later).later hr.1.later)).bind fun v ns₃ hv => ?_
  refine .known fun name hname => .pure ⟨(hl.1.later.trans hr.1.later).trans hv.1.later, ?_⟩
  refine (leads_of_runs (f := fun store _ => store) n fun store memory hmirrors => ?_).congr fun store _ => hmeans store
  rw [List.append_assoc]
  refine hl.1.bind₂ hr.1 hns hmirrors fun a b memory₂ hmirrors₂ _ ha hb => ?_
  refine hv.1.bind ((hns.later hl.1.later).later hr.1.later) hmirrors₂ fun c memory₃ hmirrors₃ hframe hc => ?_
  replace ha := exists_var_of_name hname (hframe.gives (hl.1.old.later hr.1.later) ha)
  exact (runs_store type.base ha (hframe.gives hr.1.old hb) hc).imp fun _ memory₄ heq => heq ▸ hmirrors₃

/-! ## Bodies -/

/-- Statements one after the other. -/
theorem leaves_lowerSequence {returnType : Ty} {parts parts' : List Node}
    (h : List.Forall₂ (A.Performs returnType n) parts parts') (hns : A.Reserves ns) :
    Lower.Leaves ns (A.context.table.lowerSequence A.context.method returnType parts') fun is ns' =>
      ns.Later ns' ∧ A.Leads n is (Flow.sequence (parts.map (A.exec returnType n))) := by
  induction h generalizing ns with
  | nil =>
    exact .pure ⟨.refl ns, leads_of_runs (z := fun _ => pure ()) (f := fun store _ => store) n fun store memory hmirrors =>
      .nil hmirrors⟩
  | cons hpart _ ih =>
    rw [SymbolTable.lowerSequence]
    refine (hpart ns hns).bind fun is ns₁ his => (ih (hns.later his.1)).bind fun js ns₂ hjs => ?_
    exact .pure ⟨his.1.trans hjs.1, his.2.append hjs.2⟩

/-- The code of a statement that fits leads where the statement does. -/
theorem performs_of_fits {returnType : Ty} {m m' : Node} (h : Fits A.context returnType m) (horderly : A.Orderly m)
    (hm' : A.normalize m = .ok m') (n : Nat) : A.Performs returnType n m m' := by
  induction h generalizing m' with
  | @block parts hparts p ih =>
    obtain ⟨parts', hparts', rfl⟩ := children_of_normalize hm' (by simp) (by simp)
    have hall (part : Node) (hpart : part ∈ parts) (part' : Node) (h : A.normalize part = .ok part') :
        A.Performs returnType n part part' := ih part hpart (horderly.child hpart (hparts part hpart).kind_ne) h
    have hperforms : List.Forall₂ (A.Performs returnType n) parts parts' :=
      ((List.forall₂_and_left parts parts').2 ⟨hall, hparts'⟩).imp fun part part' h => h.1 part' h.2
    intro ns hns
    rw [SymbolTable.lowerStatement]
    exact (leaves_lowerSequence hperforms hns).imp fun is ns' his => ⟨his.1, his.2.congr fun store _ => exec_eq _ _ _ store⟩
  | @exprStmt e type he p =>
    obtain ⟨_, _ | ⟨he', _ | _⟩, rfl⟩ := children_of_normalize hm' (by simp) (by simp)
    have hclass := horderly.here.classes e (by simp)
    have hvalue := computes_of_typed he (horderly.child (by simp) he.kind_ne) hclass he'
    intro ns hns
    rw [SymbolTable.lowerStatement]
    refine (hvalue _ ns hns).bind fun l ns' hl => .pure ⟨hl.1.later, ?_⟩
    refine (leads_of_runs (f := fun store _ => store) n fun store memory hmirrors => ?_).congr fun store _ => exec_eq _ _ _ store
    exact (hl.1.runs store memory hmirrors).imp fun v memory₁ hv => hmirrors.frame hns hv.1
  | assign hname hvalue p q => exact performs_assign hname hvalue horderly hm'
  | arrayAssign hname hindex hvalue htype hint hfit p q =>
    exact performs_arrayAssign (Typed.varRef hname p) hindex hvalue horderly hm'
  | returnNothing hvoid p =>
    obtain ⟨_, _ | _, rfl⟩ := children_of_normalize hm' (by simp) (by simp)
    intro ns hns
    rw [SymbolTable.lowerStatement]
    exact .pure ⟨.refl ns, (leads_returnNothing n).congr fun store _ => exec_eq _ _ _ store⟩
  | @returnValue value type hvalue hvoid hfit p =>
    obtain ⟨_, _ | ⟨hvalue', _ | _⟩, rfl⟩ := children_of_normalize hm' (by simp) (by simp)
    have hoperand := (horderly.operand (by simp) hvalue (by simp)).computes hvalue hvalue'
    intro ns hns
    rw [SymbolTable.lowerStatement]
    refine (leaves_operand hoperand (by simpa using hvoid) hns).bind fun l ns' hl => .pure ⟨hl.1.later, ?_⟩
    exact (leads_return n hl.1.runs hl.2 hvoid).congr fun store _ => exec_eq _ _ _ store
  | @ifThen c t type hc hboolean ht p ih =>
    obtain ⟨_, _ | ⟨hc', _ | ⟨ht', _ | _⟩⟩, rfl⟩ := children_of_normalize hm' (by simp) (by simp)
    have hcondition := horderly.operand (by simp) hc (by simp)
    have hthen := ih (horderly.child (by simp) ht.kind_ne) ht'
    intro ns hns
    rw [SymbolTable.lowerStatement]
    refine Lower.leaves_label.bind fun label ns₀ hlabel => ?_
    refine (leaves_lowerBranch hc hcondition hc' _ (hns.later hlabel)).bind fun test ns₁ htest => ?_
    refine (hthen ns₁ ((hns.later hlabel).later htest.1)).bind fun first ns₂ hfirst => .pure ?_
    refine ⟨(hlabel.trans htest.1).trans hfirst.1, ?_⟩
    exact (leads_ifThen (hns.later hlabel) htest.2 hfirst.2).congr fun store _ => exec_eq _ _ _ store
  | @ifElse c t e type hc hboolean ht he p ih ihe =>
    obtain ⟨_, _ | ⟨hc', _ | ⟨ht', _ | ⟨he', _ | _⟩⟩⟩, rfl⟩ := children_of_normalize hm' (by simp) (by simp)
    have hcondition := horderly.operand (by simp) hc (by simp)
    have hthen := ih (horderly.child (by simp) ht.kind_ne) ht'
    have helse := ihe (horderly.child (by simp) he.kind_ne) he'
    intro ns hns
    rw [SymbolTable.lowerStatement]
    refine Lower.leaves_label.bind fun label ns₀ hlabel => ?_
    refine (leaves_lowerBranch hc hcondition hc' _ (hns.later hlabel)).bind fun test ns₁ htest => ?_
    -- the second part comes first in the code
    refine (helse ns₁ ((hns.later hlabel).later htest.1)).bind fun second ns₂ hsecond => ?_
    refine (hthen ns₂ (((hns.later hlabel).later htest.1).later hsecond.1)).bind fun first ns₃ hfirst => .pure ?_
    refine ⟨((hlabel.trans htest.1).trans hsecond.1).trans hfirst.1, ?_⟩
    exact (leads_ifElse (hns.later hlabel) htest.2 hfirst.2 hsecond.2).congr fun store _ => exec_eq _ _ _ store
  | @whileLoop c b type hc hboolean hb p ih =>
    obtain ⟨_, _ | ⟨hc', _ | ⟨hb', _ | _⟩⟩, rfl⟩ := children_of_normalize hm' (by simp) (by simp)
    have hcondition := horderly.operand (by simp) hc (by simp)
    have hbody := ih (horderly.child (by simp) hb.kind_ne) hb'
    intro ns hns
    rw [SymbolTable.lowerStatement]
    refine Lower.leaves_label.bind fun label ns₀ hlabel => ?_
    -- the body comes before the test
    refine (hbody ns₀ (hns.later hlabel)).bind fun first ns₁ hfirst => ?_
    refine (leaves_lowerBranch hc hcondition hc' _ ((hns.later hlabel).later hfirst.1)).bind fun test ns₂ htest => .pure ?_
    refine ⟨(hlabel.trans hfirst.1).trans htest.1, ?_⟩
    exact (leads_while ((hns.later hlabel).later hfirst.1) htest.2 hfirst.2).congr fun store _ => exec_eq _ _ _ store

end MethodRun
end JmmCompiler

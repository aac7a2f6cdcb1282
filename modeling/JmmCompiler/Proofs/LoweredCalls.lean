import JmmCompiler.Proofs.Gathering
import JmmCompiler.Proofs.LoweredValues
/-! The code of a call computes what the call means: what it goes to first, then the arguments one after the other. -/
namespace JmmCompiler
namespace MethodRun
variable {W β : Type} {A : MethodRun W} {ns ns₁ ns' : Names} {x : Store → Act W Value} {xs : List (Store → Act W Value)}
  {e receiver : Node} {es args : List Node} {void own isClass : Bool} {name : String} {p : Position}
open CodeMethod

theorem Computes.weaken (h : A.Computes x void e) : A.Computes x true e :=
  fun expected ns hns => (h expected ns hns).imp fun _ _ hl => ⟨hl.1, fun _ => .inl rfl⟩

/-- Arguments are computed from left to right, and their values outlast the code of those behind them. -/
theorem leaves_lowerArguments (h : List.Forall₂ (fun x e => A.Computes x true e) xs es) (params : List Ty)
    (hns : A.Reserves ns) :
    Lower.Leaves ns (A.context.table.lowerArguments A.context.method params es) fun r ns' =>
      ns.Later ns' ∧ ∀ store memory, A.Mirrors store memory →
        A.code.Runs A.ask r.1 memory (Act.all (xs.map (· store))) fun vs memory' =>
          A.code.Frame ns memory memory' ∧ List.Forall₂ (fun e v => e.Gives (A.code.read memory') v) r.2 vs := by
  induction h generalizing params ns with
  | nil => exact .pure ⟨.refl ns, fun _ memory _ => .nil ⟨.refl ns memory, .nil⟩⟩
  | cons hx _ ih =>
    rw [SymbolTable.lowerArguments]
    refine (hx _ ns hns).bind fun l ns₁ hl => ?_
    obtain ⟨hl, -⟩ := hl
    refine (ih params.tail (hns.later hl.later)).bind fun r ns' hr => ?_
    obtain ⟨computation, codes⟩ := r
    refine .pure ⟨hl.later.trans hr.1, fun store memory hmirrors => ?_⟩
    refine hl.bind hns hmirrors fun a memory₁ hmirrors₁ hframe ha => ?_
    refine (hr.2 store memory₁ hmirrors₁).map (f := (a :: ·)) fun vs memory₂ hvs => ?_
    exact ⟨hframe.trans hl.later hvs.1, .cons (hvs.1.gives hl.old ha) hvs.2⟩

/-- A target of calls has been computed, and a call that goes to it makes a request with what was computed and the values of
the arguments. -/
structure Aims (A : MethodRun W) (name : String) (before : Store → Act W β) (query : β → List Value → Query)
    (ns : Names) (target : Invocation × Lowered) (ns' : Names) : Prop where
  later : ns.Later ns'
  runs : ∀ store memory, A.Mirrors store memory →
    A.code.Runs A.ask target.2.computation memory (before store) fun b memory₁ => A.code.Frame ns memory memory₁ ∧
      ∀ memory₂ codes vs type, A.code.Frame ns' memory₁ memory₂ →
      A.code.HasSlotsFor (Instruction.call target.1 target.2.code (some name) codes type).uses →
      List.Forall₂ (fun e v => e.Gives (A.code.read memory₂) v) codes vs →
        (Query.setting A.ask).call (A.code.read memory₂) target.1 target.2.code (some name) codes type = A.ask (query b vs)

/-- A call of a method of a class. -/
theorem aims_class (name className : String) (type : Ty) (hns : ns.Later ns') :
    A.Aims name (fun _ => pure ()) (fun _ vs => .invokeStatic className (some name) vs) ns
      (.static, ⟨.classRef className type, []⟩) ns' where
  later := hns
  runs store memory _ := by
    refine .nil ⟨.refl ns memory, fun memory₂ codes vs type _ hslots hvs => ?_⟩
    simp only [Setting.call, operands_of_gives A.ask (hasSlotsFor_call hslots).2 hvs, pure_bind]
    rfl

/-- A call of a method of an object. -/
theorem aims_object (name : String) {l : Lowered} (h : A.Carries x ns l ns') (hvalue : l.code ≠ .absent) :
    A.Aims name x (fun object vs => .invoke (some name) object vs) ns (.virtual, l) ns' where
  later := h.later
  runs store memory hmirrors := by
    refine (h.runs store memory hmirrors).imp fun a memory₁ ha => ?_
    refine ⟨ha.1, fun memory₂ codes vs type hframe hslots hvs => ?_⟩
    have hreceiver := hasSlotsFor_of_optional (hasSlotsFor_call hslots).1 hvalue
    have hobject := operand_of_gives A.ask hreceiver (hframe.gives h.old ha.2)
    simp only [Setting.call, hobject, operands_of_gives A.ask (hasSlotsFor_call hslots).2 hvs, pure_bind]
    rfl

theorem leaves_lowerInvocation {before : Store → Act W β} {query : β → List Value → Query} {invocation : Invocation}
    {target : Lowered} (haims : A.Aims name before query ns (invocation, target) ns₁)
    (hargs : List.Forall₂ (fun x e => A.Computes x true e) xs args) (type : Ty) (params : List Ty) (hns : A.Reserves ns) :
    Lower.Leaves ns₁ (A.context.table.lowerInvocation A.context.method invocation target name type params args) fun l ns' =>
      A.Carries (fun store => do
        let b ← before store
        A.ask (query b (← Act.all (xs.map (· store))))) ns l ns' ∧ (l.code = .absent → type = .void) := by
  unfold SymbolTable.lowerInvocation
  refine (leaves_lowerArguments hargs params (hns.later haims.later)).bind fun r ns₂ hr => ?_
  obtain ⟨computation, codes⟩ := r
  have hlater : ns.Later ns₂ := haims.later.trans hr.1
  -- the arguments are computed, and the call is next
  have hcall {i : Instruction} {code : Element} {store : Store} {memory : Int → Value} (hmirrors : A.Mirrors store memory)
      (hi : ∀ b vs memory₂, A.code.Frame ns memory memory₂ →
        (A.code.HasSlotsFor (Instruction.call invocation target.code (some name) codes type).uses →
          (Query.setting A.ask).call (A.code.read memory₂) invocation target.code (some name) codes type =
            A.ask (query b vs)) →
        A.code.Runs A.ask [i] memory₂ (A.ask (query b vs)) (A.Finds ns memory code)) :
      A.code.Runs A.ask (target.computation ++ computation ++ [i]) memory (do
        let b ← before store
        A.ask (query b (← Act.all (xs.map (· store))))) (A.Finds ns memory code) := by
    rw [List.append_assoc]
    refine (haims.runs store memory hmirrors).append fun b memory₁ hb => ?_
    refine (hr.2 store memory₁ (hmirrors.frame hns hb.1)).append fun vs memory₂ hvs => ?_
    exact hi b vs memory₂ (hb.1.trans haims.later hvs.1) fun hslots => hb.2 memory₂ codes vs type hvs.1 hslots hvs.2
  dsimp only
  split
  · rename_i hvoid
    refine .pure ⟨⟨hlater, trivial, fun store memory hmirrors => ?_⟩, fun _ => hvoid⟩
    refine hcall hmirrors fun b vs memory₂ hframe hvalue => ?_
    have heffect : A.code.Runs A.ask [.call invocation target.code (some name) codes type] memory₂ (A.ask (query b vs))
        fun _ memory' => memory' = memory₂ := by
      refine Runs.effect A.finished (by simp) rfl rfl id fun hslots => ?_
      simp only [Setting.act, Setting.value, hvalue hslots]
      rfl
    exact heffect.imp fun v memory₃ heq => ⟨heq ▸ hframe, trivial⟩
  · refine (leaves_intoTemp hlater fun temp htemp store memory hmirrors => ?_).imp fun l ns' hl =>
      ⟨hl.1, fun habsent => absurd habsent hl.2⟩
    exact hcall hmirrors fun b vs memory₂ hframe hvalue => runs_temp hframe hlater htemp hvalue

/-- Where the value of a call is void, its method is, or none is wanted. -/
theorem void_of_callSignature {t : SymbolTable} {expected : Option Ty} {type : Ty} {params : List Ty}
    (h : t.callSignature expected own name = .ok (type, params)) (hvoid : type = .void) :
    (own = true ∧ (t.method? name).any (·.returnType = .void) = true) ∨ expected = some .void := by
  subst hvoid
  cases own with
  | true =>
    simp only [SymbolTable.callSignature, if_true, SymbolTable.method, bind_eq_ok, pure_eq_ok, Prod.mk.injEq] at h
    obtain ⟨m, hm, htype, -⟩ := h
    refine .inl ⟨rfl, ?_⟩
    cases hfound : t.method? name with
    | none => simp [hfound] at hm
    | some m' =>
      rw [hfound] at hm
      obtain rfl := Except.ok.inj hm
      simp [htype]
  | false =>
    refine .inr (by_contra fun hexpected => SymbolTable.wanted_ne_void hexpected ?_)
    exact (Prod.mk.inj (Except.ok.inj h)).1

/-- A call that goes to a target. -/
theorem computes_target {before : Store → Act W β} {query : β → List Value → Query} {type : Ty}
    (hown : A.context.table.isOwnCall A.context.method name receiver = .ok own)
    (htype : A.context.typeOf receiver = .ok type)
    (hclass : A.context.table.isClassReceiver A.context.method receiver = .ok isClass)
    (hlength : ¬(own = false ∧ name = "length" ∧ args = [] ∧ type.isArray = true))
    (htarget : ∀ ns, A.Reserves ns → Lower.Leaves ns (A.context.table.callTarget A.context.method own isClass name receiver)
      (A.Aims name before query ns))
    (hargs : List.Forall₂ (fun x e => A.Computes x true e) xs args)
    (hvoid : own = true → (A.context.table.method? name).any (·.returnType = .void) = true → void = true) (p : Position) :
    A.Computes (fun store => do
      let b ← before store
      A.ask (query b (← Act.all (xs.map (· store))))) void
        ⟨.call, ⟨[("name", .text name)]⟩, receiver :: args, p⟩ := by
  intro expected ns hns
  rw [SymbolTable.lower_call _ _ _ _ hown htype hclass, if_neg hlength]
  refine (htarget ns hns).bind fun r ns₁ haims => ?_
  obtain ⟨invocation, target⟩ := r
  refine .known fun signature hsignature => ?_
  obtain ⟨type, params⟩ := signature
  refine (leaves_lowerInvocation haims hargs type params hns).imp fun l ns' hl => ⟨hl.1, fun habsent => ?_⟩
  exact (void_of_callSignature hsignature (hl.2 habsent)).imp_left fun h => hvoid h.1 h.2

end MethodRun
end JmmCompiler

import JmmCompiler.Proofs.CodeRuns
import JmmCompiler.Proofs.LoweringForms
import JmmCompiler.Proofs.Makers
import JmmCompiler.Proofs.Typed
/-! A method of the source and its code, as they run side by side. The code of an expression leads from a memory that
mirrors a store to the value that the expression has in the store. -/
namespace JmmCompiler

/-- A method that runs: what stands around its expressions, its code, and the surroundings and the object that it runs
in and for. -/
structure MethodRun (W : Type) where
  context : Context
  code : CodeMethod
  finished : code.IsFinished
  /-- No variable is called `this`. -/
  unbound : context.table.binding? (some context.method) "this" = none
  ask : Query → Act W Value
  self : Option Value

namespace MethodRun
variable {W : Type} (A : MethodRun W)

def eval (e : Node) (store : Store) : Act W Value := A.context.table.eval A.context.method A.ask store e

/-- A parameter or a local variable. -/
def Binds (x : String) : Prop := (A.context.table.binding? (some A.context.method) x).isSome

/-- Memory agrees with a store, as far as variables have slots. -/
structure Mirrors (store : Store) (memory : Int → Value) : Prop where
  self : store.self = A.self
  object : A.context.isStatic = false → ∃ object, A.self = some object ∧ A.code.read memory "this" = some object
  vars : ∀ x, A.Binds x → ∀ v, A.code.read memory x = some v → v = store.vars x

/-- No temporary that is yet to be given out is `this` or a variable. -/
structure Reserves (ns : Names) : Prop where
  this : ¬ns.Fresh "this"
  vars : ∀ x, A.Binds x → ¬ns.Fresh x

/-- Code has a value, and nothing has changed but temporaries. -/
def Finds (ns : Names) (memory : Int → Value) (code : Element) (v : Value) (memory' : Int → Value) : Prop :=
  A.code.Frame ns memory memory' ∧ code.Gives (A.code.read memory') v

/-- What was lowered between two states of the names carries out a computation over stores. -/
structure Carries (x : Store → Act W Value) (ns : Names) (l : Lowered) (ns' : Names) : Prop where
  later : ns.Later ns'
  old : l.code.Old ns'
  runs : ∀ store memory, A.Mirrors store memory →
    A.code.Runs A.ask l.computation memory (x store) (A.Finds ns memory l.code)

/-- Whatever is wanted of it, an expression is lowered to what carries out a computation. It lacks a value only where
it is a void call, or none is wanted. -/
def Computes (x : Store → Act W Value) (void : Bool) (e : Node) : Prop :=
  ∀ expected ns, A.Reserves ns → Lower.Leaves ns (A.context.table.lower A.context.method expected e) fun l ns' =>
    A.Carries x ns l ns' ∧ (l.code = .absent → void = true ∨ expected = some .void)

variable {A} {ns ns₁ ns' : Names} {memory memory₁ memory₂ : Int → Value} {store : Store} {x : Store → Act W Value}
  {l : Lowered} {e : Node} {void : Bool}

theorem eval_eq (e : Node) (store : Store) : A.eval e store =
    A.context.table.valueOf A.context.method A.ask store e (e.children.map (A.eval · store)) := SymbolTable.eval_eq ..

theorem eval_varRef (name : String) (p : Position) (store : Store) :
    A.eval ⟨.varRef, ⟨[("name", .text name)]⟩, [], p⟩ store =
      A.context.table.readVariable A.context.method A.ask store name := by
  rw [eval_eq]
  rfl

theorem Reserves.later (h : A.Reserves ns) (hlater : ns.Later ns') : A.Reserves ns' :=
  ⟨fun hx => h.this (hlater.fresh hx), fun x hx hfresh => h.vars x hx (hlater.fresh hfresh)⟩

theorem Mirrors.frame (h : A.Mirrors store memory) (hns : A.Reserves ns) (hframe : A.code.Frame ns memory memory₁) :
    A.Mirrors store memory₁ where
  self := h.self
  object hstatic := by
    obtain ⟨object, hself, hread⟩ := h.object hstatic
    exact ⟨object, hself, (hframe _ hns.this).trans hread⟩
  vars x hx v hv := h.vars x hx v ((hframe x (hns.vars x hx)).symm.trans hv)

theorem Carries.earlier (h : A.Carries x ns₁ l ns') (hlater : ns.Later ns₁) : A.Carries x ns l ns' where
  later := hlater.trans h.later
  old := h.old
  runs store memory hmirrors :=
    (h.runs store memory hmirrors).imp fun _ _ hv => ⟨(CodeMethod.Frame.refl ns memory).trans hlater hv.1, hv.2⟩

/-- Memory and store still agree when both have been given a value of a variable. -/
theorem Mirrors.write (h : A.Mirrors store memory) {x : String} (hx : A.Binds x) (v : Value) :
    A.Mirrors (store.set x v) (A.code.write memory x v) where
  self := h.self
  object hstatic := by
    obtain ⟨object, hself, hread⟩ := h.object hstatic
    refine ⟨object, hself, (CodeMethod.read_write_of_apart (A.finished.packed.apart ?_) memory v).trans hread⟩
    rintro rfl
    rw [Binds, A.unbound] at hx
    cases hx
  vars y hy v' hv' := by
    by_cases hxy : x = y
    · subst hxy
      have hvalue : (store.set x v).vars x = v := Function.update_self ..
      rw [hvalue]
      cases hslot : A.code.slots.find? x with
      | none => simp [CodeMethod.read, hslot] at hv'
      | some n =>
        rw [CodeMethod.read_write_self hslot] at hv'
        exact (Option.some.inj hv').symm
    · rw [CodeMethod.read_write_of_apart (A.finished.packed.apart hxy)] at hv'
      have hvalue : (store.set x v).vars y = store.vars y := Function.update_of_ne (Ne.symm hxy) ..
      rw [hvalue]
      exact h.vars y hy v' hv'

/-- What is lowered and carried out, and what comes after it. -/
theorem Carries.bind (h : A.Carries x ns l ns₁) (hns : A.Reserves ns) (hmirrors : A.Mirrors store memory) {β : Type}
    {g : Value → Act W β} {is : List Instruction} {Q : β → (Int → Value) → Prop}
    (hg : ∀ a memory₁, A.Mirrors store memory₁ → A.code.Frame ns memory memory₁ →
      l.code.Gives (A.code.read memory₁) a → A.code.Runs A.ask is memory₁ (g a) Q) :
    A.code.Runs A.ask (l.computation ++ is) memory (x store >>= g) Q :=
  (h.runs store memory hmirrors).append fun a memory₁ ha => hg a memory₁ (hmirrors.frame hns ha.1) ha.1 ha.2

/-- Two operands, the left one first. -/
theorem Carries.bind₂ {y : Store → Act W Value} {r : Lowered} {ns₂ : Names} (hl : A.Carries x ns l ns₁)
    (hr : A.Carries y ns₁ r ns₂) (hns : A.Reserves ns) (hmirrors : A.Mirrors store memory) {β : Type}
    {g : Value → Value → Act W β} {is : List Instruction} {Q : β → (Int → Value) → Prop}
    (hg : ∀ a b memory₂, A.Mirrors store memory₂ → A.code.Frame ns memory memory₂ →
      l.code.Gives (A.code.read memory₂) a → r.code.Gives (A.code.read memory₂) b →
        A.code.Runs A.ask is memory₂ (g a b) Q) :
    A.code.Runs A.ask (l.computation ++ r.computation ++ is) memory (do
      let a ← x store
      let b ← y store
      g a b) Q := by
  rw [List.append_assoc]
  refine hl.bind hns hmirrors fun a memory₁ hmirrors₁ hframe₁ ha => ?_
  refine (hr.runs store memory₁ hmirrors₁).append fun b memory₂ hb => ?_
  obtain ⟨hframe₂, hb⟩ := hb
  exact hg a b memory₂ (hmirrors₁.frame (hns.later hl.later) hframe₂) (hframe₁.trans hl.later hframe₂)
    (hframe₂.gives hl.old ha) hb

/-- A value in a new temporary. -/
theorem runs_temp (hframe : A.code.Frame ns memory memory₁) (hlater : ns.Later ns₁) {temp : String}
    (htemp : ns₁.Fresh temp) {type : Ty} {i : Instruction} {y : Act W Value}
    (h : A.code.HasSlotsFor i.uses → (Query.setting A.ask).value (A.code.read memory₁) i = y) :
    A.code.Runs A.ask [.assign (.var temp type) i] memory₁ y (A.Finds ns memory (.var temp type)) := by
  refine (CodeMethod.Runs.assign A.finished h).imp fun v memory' hv => ?_
  obtain ⟨rfl, hread⟩ := hv
  exact ⟨hframe.trans hlater (CodeMethod.frame_write A.finished htemp memory₁ v),
    fun v' hv' => Option.some.inj (hv'.symm.trans hread)⟩

/-- An expression whose value is computed into a new temporary. -/
theorem leaves_intoTemp {before : List Instruction} {type : Ty} {i : Instruction}
    (hlater : ns.Later ns₁) (h : ∀ temp, ns₁.Fresh temp → ∀ store memory, A.Mirrors store memory →
      A.code.Runs A.ask (before ++ [.assign (.var temp type) i]) memory (x store) (A.Finds ns memory (.var temp type))) :
    Lower.Leaves ns₁ (SymbolTable.intoTemp before type i) fun l ns' => A.Carries x ns l ns' ∧ l.code ≠ .absent := by
  refine Lower.leaves_temp.bind fun temp ns' htemp => .pure ?_
  obtain ⟨hlater', hfresh, hold⟩ := htemp
  exact ⟨⟨hlater.trans hlater', hold, h temp hfresh⟩, by simp⟩

/-- A value that is there already. -/
theorem leaves_value {code : Element} (hold : code.Old ns) (habsent : code ≠ .absent)
    (h : ∀ store memory, A.Mirrors store memory → ∃ v, x store = pure v ∧ code.Gives (A.code.read memory) v) :
    Lower.Leaves ns (pure ⟨code, []⟩) fun l ns' => A.Carries x ns l ns' ∧ l.code ≠ .absent := by
  refine .pure ⟨⟨.refl ns, hold, fun store memory hmirrors => ?_⟩, habsent⟩
  obtain ⟨v, hv, hgives⟩ := h store memory hmirrors
  rw [hv]
  exact .nil ⟨.refl ns memory, hgives⟩

/-- What always has a value. -/
theorem computes_of_value (h : ∀ expected ns, A.Reserves ns →
    Lower.Leaves ns (A.context.table.lower A.context.method expected e) fun l ns' =>
      A.Carries x ns l ns' ∧ l.code ≠ .absent) :
    A.Computes x void e :=
  fun expected ns hns => (h expected ns hns).imp fun _ _ hl => ⟨hl.1, fun habsent => absurd habsent hl.2⟩

/-- Only what a computation gives for the stores of the object matters. -/
theorem Computes.congr {y : Store → Act W Value} (h : A.Computes y void e)
    (hxy : ∀ store, store.self = A.self → x store = y store) :
    A.Computes x void e := by
  refine fun expected ns hns => (h expected ns hns).imp fun l ns' hl => ?_
  obtain ⟨⟨hlater, hold, hruns⟩, habsent⟩ := hl
  refine ⟨⟨hlater, hold, fun store memory hmirrors => ?_⟩, habsent⟩
  rw [hxy store hmirrors.self]
  exact hruns store memory hmirrors

/-! ## Single values -/

theorem computes_intLiteral (i : Int) (p : Position) :
    A.Computes (fun _ => pure (.int i)) void ⟨.intLiteral, ⟨[("value", .int i)]⟩, [], p⟩ := by
  refine computes_of_value fun expected ns _ => ?_
  rw [SymbolTable.lower_intLiteral]
  exact leaves_value trivial (by simp) fun _ _ _ => ⟨_, rfl, rfl⟩

theorem computes_boolLiteral (b : Bool) (p : Position) :
    A.Computes (fun _ => pure (.ofBool b)) void ⟨.boolLiteral, ⟨[("value", .bool b)]⟩, [], p⟩ := by
  refine computes_of_value fun expected ns _ => ?_
  rw [SymbolTable.lower_boolLiteral]
  exact leaves_value trivial (by simp) fun _ _ _ => ⟨_, rfl, rfl⟩

/-- `this`, in a method that has an object. -/
theorem computes_thisRef (hstatic : A.context.isStatic = false) (p : Position) :
    A.Computes (A.eval ⟨.thisRef, {}, [], p⟩) void ⟨.thisRef, {}, [], p⟩ := by
  refine computes_of_value fun expected ns hns => ?_
  rw [SymbolTable.lower_thisRef]
  refine leaves_value hns.this (by simp [SymbolTable.thisElement]) fun store memory hmirrors => ?_
  obtain ⟨object, hself, hread⟩ := hmirrors.object hstatic
  refine ⟨object, ?_, fun v hv => Option.some.inj (hv.symm.trans hread)⟩
  have hobject : store.self = some object := hmirrors.self.trans hself
  rw [eval_eq]
  simp only [SymbolTable.valueOf, hobject]

/-- A variable of the method, or a field of `this`. -/
theorem computes_varRef {name : String} (hname : A.context.HasVariable name) (p : Position) :
    A.Computes (A.eval ⟨.varRef, ⟨[("name", .text name)]⟩, [], p⟩) void
      ⟨.varRef, ⟨[("name", .text name)]⟩, [], p⟩ := by
  refine computes_of_value fun expected ns hns => ?_
  rw [SymbolTable.lower_varRef, SymbolTable.lowerVariable]
  cases hbinding : A.context.table.binding? A.context.method name with
  | some b =>
    have hbinds : A.Binds name := by rw [Binds, hbinding]; rfl
    refine leaves_value (hns.vars name hbinds) (by simp) fun store memory hmirrors => ?_
    refine ⟨store.vars name, ?_, hmirrors.vars name hbinds⟩
    rw [eval_varRef, SymbolTable.readVariable, hbinding]
    rfl
  | none =>
    obtain ⟨hfield, hstatic⟩ := hname.resolve_left (by simp [hbinding])
    obtain ⟨f, hf⟩ := Option.isSome_iff_exists.1 hfield
    simp only [hf]
    refine leaves_intoTemp (.refl ns) fun temp htemp store memory hmirrors => ?_
    obtain ⟨object, hself, hread⟩ := hmirrors.object hstatic
    refine runs_temp (.refl ns memory) (.refl ns) htemp fun _ => ?_
    have hobject : store.self = some object := hmirrors.self.trans hself
    rw [eval_varRef, SymbolTable.readVariable, hbinding, hf]
    simp only [Setting.value, SymbolTable.thisElement, Setting.operand, Setting.lookup, hread, Query.setting_held, pure_bind,
      Option.isSome_none, Bool.false_eq_true, if_false, Option.isSome_some, hobject]
    rfl

end MethodRun
end JmmCompiler

import JmmCompiler.Checks.ControlFlow
import JmmCompiler.Proofs.SafeExpression
/-! Statements that fit are safe: they keep the values of variables typed, and return what they owe. -/
namespace JmmCompiler
variable {s : Context} {invoke : String → Option Datum → List Datum → Run (Option Datum)} {heap : Heap}
  {frame : Activation} {e n : Node} {type target returnType : Ty} {rounds : Nat}

/-- The class stands where its superclass is wanted. -/
theorem Datum.isOf_of_compatible {t : SymbolTable} {v : Datum} (ht : t.Regular)
    (h : t.compatible target type = true) (htarget : target.name ≠ "any") (htype : type.name ≠ "any")
    (hv : v.isOf t heap type = true) : v.isOf t heap target = true := by
  simp only [SymbolTable.compatible, Bool.or_eq_true, Bool.and_eq_true, Bool.not_eq_true',
    decide_eq_true_eq] at h
  rcases h with h | ⟨⟨⟨htargetArray, harray⟩, hname⟩, hsuper⟩
  · exact Ty.eq_of_assignable h htarget htype ▸ hv
  · obtain rfl : type = t.classType := Ty.eq_mk hname harray
    have hreference : target.isReference = true := by
      rw [show target = ⟨target.name, false⟩ from Ty.eq_mk rfl htargetArray]
      exact ht.superClass _ hsuper
    rcases Datum.eq_null_or_ref hv ht.classType with rfl | ⟨address, rfl⟩
    · exact hreference
    · obtain ⟨cell, hcell, hof⟩ := Datum.isOf_ref hv
      obtain ⟨fields, rfl⟩ := Run.exists_fields hof
      simp [Datum.isOf, hcell, Cell.isOf, hreference, htargetArray, hsuper]

theorem SymbolTable.ne_void_of_compatible {t : SymbolTable} (ht : t.Regular)
    (h : t.compatible target type = true) (htarget : target.name ≠ "any") (hvoid : target ≠ .void) :
    type ≠ .void := by
  rintro rfl
  simp only [compatible, Bool.or_eq_true, Bool.and_eq_true, decide_eq_true_eq] at h
  rcases h with h | ⟨⟨-, hname⟩, -⟩
  · exact hvoid (Ty.eq_of_assignable h htarget (by decide))
  · have hclass := ht.classType
    rw [show t.classType = .void from Ty.eq_mk hname.symm rfl] at hclass
    cases hclass

/-- An expression of a compatible type yields values that may be assigned. -/
theorem Typed.yields_compatible (hs : s.Settled) (hinvoke : s.table.Invokes invoke) (h : Typed s e type)
    (hframe : s.Serves heap frame) (hfit : s.table.compatible target type = true)
    (htarget : target.name ≠ "any") (hvoid : target ≠ .void) :
    Run.Yields s.table heap target (s.table.result s.method invoke frame e) := by
  intro later hgrows htyped
  have hknown := h.isKnown hs.declared hs.strict hs.imports
  refine (h.yields hs hinvoke hframe later hgrows htyped).imp fun heap' v _ hv => ?_
  cases v with
  | none => exact absurd hv (SymbolTable.ne_void_of_compatible hs.regular hfit htarget hvoid)
  | some v => exact Datum.isOf_of_compatible hs.regular hfit htarget hknown.1 hv

/-- A literal without elements is an array of any type. -/
theorem Typed.safe_empty (h : Typed s e type) (hkind : e.kind = .arrayLiteral) (hempty : e.children = [])
    (hheap : heap.IsTyped s.table) (harray : target.isArray = true) :
    Run.Safe s.table heap (s.table.result s.method invoke frame e) (target.Gives s.table) := by
  have hisArray := h.isArray_of_literal hkind
  have htype : s.table.typeOf (some s.method) e = .ok type := h.typeOf
  have hnew : Cell.Keeps s.table (heap ++ [.array type.name []]) (.array type.name []) := by
    simp [Cell.Keeps]
  have hof : Datum.isOf s.table (heap ++ [.array type.name []]) type (.ref heap.length) = true := by
    simp [Datum.isOf, Cell.isOf, hisArray]
  have harrayOf : runOn (Run.arrayOf type.name []) heap =
      (.ok (.ref heap.length), heap ++ [.array type.name []]) := rfl
  have hrun : runOn (s.table.result s.method invoke frame e) heap =
      (.ok (some (.ref heap.length)), heap ++ [.array type.name []]) := by
    rw [s.table.result_eq]
    simp only [SymbolTable.watched, SymbolTable.resultOf, hkind, hempty, List.map_nil, htype, Run.ofExcept,
      pure_bind, runOn_bind, harrayOf, runOn_pure, Run.runOn_get, Except.toOption, Option.any_some, hof, if_true]
  unfold Run.Safe
  rw [hrun]
  refine ⟨.append _ _, hheap.append hnew, ?_⟩
  simp [Ty.Gives, Datum.isOf, Cell.isOf, harray]

/-- What may be assigned to a place of a type yields values of it. -/
theorem Context.Assigns.yields (hs : s.Settled) (hinvoke : s.table.Invokes invoke) (h : s.Assigns target e)
    (hframe : s.Serves heap frame) (htarget : target.name ≠ "any") (hvoid : target ≠ .void) :
    Run.Yields s.table heap target (s.table.result s.method invoke frame e) := by
  cases h with
  | whole hvalue hfit => exact hvalue.yields_compatible hs hinvoke hframe hfit htarget hvoid
  | @elementwise type hvalue hkind harray types helements hfit =>
    by_cases hempty : e.children = []
    · exact fun later hgrows htyped => hvalue.safe_empty hkind hempty htyped harray
    · -- the elements fix the type of the literal
      have heq (c : Node) (hc : c ∈ e.children) {given : Ty} (hgiven : Typed s c given) : target.base = given := by
        obtain rfl : types c = given := Except.ok.inj ((helements c hc).typeOf.symm.trans hgiven.typeOf)
        exact Ty.eq_of_assignable (hfit c hc) htarget (hgiven.isKnown hs.declared hs.strict hs.imports).1
      have htype : target = type := by
        have htargetType : target = target.base.arrayOf := Ty.eq_mk rfl harray
        cases hvalue with
        | emptyLiteral p => exact absurd rfl hempty
        | @arrayLiteral first rest types' helements' hfit' hadmits p =>
          rw [htargetType, heq first (by simp) (helements' first (by simp))]
        | @gatheredLiteral name elements types' helements' hfit' hadmits hcreated p =>
          obtain ⟨c, hc⟩ := List.exists_mem_of_ne_nil _ hempty
          have hknown := ((helements' c hc).isKnown hs.declared hs.strict hs.imports).1
          have hname := Ty.eq_of_assignable (hfit' c hc) (hcreated hs.strict).1 hknown
          rw [htargetType, heq c hc (helements' c hc), ← hname]
          rfl
        | _ => cases hkind
      exact htype ▸ hvalue.yields hs hinvoke hframe

/-! ## Where statements lead -/

/-- On with typed variables, unless a return is certain, or out of the method with what it owes. -/
def Context.Lands (s : Context) (returnType : Ty) (returns : Bool) (heap : Heap) : Step → Prop
  | .next frame => s.Serves heap frame ∧ returns = false
  | .returned v => returnType.Gives s.table heap v

theorem Context.Lands.weaken {returns returns' : Bool} {step : Step} (h : s.Lands returnType returns heap step)
    (hreturns : returns = false → returns' = false) : s.Lands returnType returns' heap step := by
  cases step with
  | next frame => exact ⟨h.1, hreturns h.2⟩
  | returned v => exact h

/-- A statement that leads where it may. -/
def Context.Proceeds (s : Context) (returnType : Ty) (returns : Bool) (part : Activation → Run Step) : Prop :=
  ∀ heap frame, heap.IsTyped s.table → s.Serves heap frame →
    Run.Safe s.table heap (part frame) (s.Lands returnType returns)

namespace Context

theorem proceeds_sequence {parts : List Node} {part : Node → Activation → Run Step}
    (hparts : ∀ n ∈ parts, s.Proceeds returnType n.completes (part n)) :
    s.Proceeds returnType (Node.anyCompletes parts) (Step.sequence (parts.map part)) := by
  induction parts with
  | nil => exact fun heap frame hheap hframe => .pure hheap ⟨hframe, rfl⟩
  | cons n parts ih =>
    intro heap frame hheap hframe
    refine (hparts n (by simp) heap frame hheap hframe).bind fun heap₁ step hgrows₁ htyped₁ hstep => ?_
    cases step with
    | returned v => exact .pure htyped₁ hstep
    | next frame =>
      obtain ⟨hserves, hnot⟩ := hstep
      rw [Node.anyCompletes, hnot, Bool.false_or]
      exact ih (fun n hn => hparts n (List.mem_cons_of_mem _ hn)) heap₁ frame htyped₁ hserves

theorem proceeds_loop {test : Activation → Run Bool} {body : Activation → Run Step} {returns : Bool}
    (htest : ∀ heap frame, heap.IsTyped s.table → s.Serves heap frame →
      Run.Safe s.table heap (test frame) fun _ _ => True)
    (hbody : s.Proceeds returnType returns body) :
    s.Proceeds returnType false (Step.loop test body rounds) := by
  induction rounds with
  | zero => exact fun heap frame hheap hframe => .throw (by decide)
  | succ rounds ih =>
    intro heap frame hheap hframe
    refine (htest heap frame hheap hframe).bind fun heap₁ holds hgrows₁ htyped₁ _ => ?_
    have hframe₁ := hframe.mono hgrows₁
    cases holds with
    | false => exact .pure htyped₁ ⟨hframe₁, rfl⟩
    | true =>
      refine (hbody heap₁ frame htyped₁ hframe₁).bind fun heap₂ step hgrows₂ htyped₂ hstep => ?_
      cases step with
      | returned v => exact .pure htyped₂ hstep
      | next frame => exact ih heap₂ frame htyped₂ hstep.1

end Context

/-- A condition is true or false. -/
theorem Typed.safe_decides (hs : s.Settled) (hinvoke : s.table.Invokes invoke) (h : Typed s e type)
    (hboolean : Ty.assignable .boolean type = true) (hheap : heap.IsTyped s.table)
    (hframe : s.Serves heap frame) :
    Run.Safe s.table heap (s.table.decides s.method invoke e frame) fun _ _ => True := by
  obtain rfl := Ty.eq_of_assignable hboolean (by decide) (h.isKnown hs.declared hs.strict hs.imports).1
  simp only [SymbolTable.decides, SymbolTable.value, bind_assoc]
  exact (h.yields hs hinvoke hframe).bind (.refl heap) hheap (by decide)
    fun heap₁ v hgrows₁ htyped₁ hv => Run.safe_truth htyped₁ hv

/-- A variable gets a value of its type. -/
theorem Context.safe_assign (hs : s.Settled) {name : String} {v : Datum} (hname : s.HasVariable name)
    (hheap : heap.IsTyped s.table) (hframe : s.Serves heap frame)
    (hv : v.isOf s.table heap (s.variableType name) = true) :
    Run.Safe s.table heap (s.table.assign s.method frame name v) (s.Lands returnType false) := by
  unfold SymbolTable.assign
  by_cases hbinding : (s.table.binding? (some s.method) name).isSome = true
  · rw [if_pos hbinding]
    refine .pure hheap ⟨⟨hframe.self, fun other value hother hvalue => ?_⟩, rfl⟩
    by_cases heq : other = name
    · subst heq
      obtain rfl : v = value := by simpa using hvalue
      exact hv
    · exact hframe.vars other value hother (by simpa [Function.update_of_ne heq] using hvalue)
  · rw [if_neg hbinding]
    obtain ⟨hfield, hinstance⟩ := hname.resolve_left hbinding
    obtain ⟨field, hfound⟩ := Option.isSome_iff_exists.1 hfield
    obtain ⟨self, hself, hobject⟩ := hframe.self hinstance
    have htype : s.variableType name = field.type := by
      simp [variableType, SymbolTable.variableType?, hfound]
    rw [if_pos hfield, hself]
    refine (Run.safe_putField hs.regular hheap hobject hfound (htype ▸ hv)).bind
      fun heap₁ _ hgrows₁ htyped₁ _ => ?_
    exact .pure htyped₁ ⟨hframe.mono hgrows₁, rfl⟩

/-- A statement that fits proceeds. -/
theorem Fits.proceeds (hs : s.Settled) (hinvoke : s.table.Invokes invoke)
    (hreturn : returnType.IsKnown) (h : Fits s returnType n) :
    s.Proceeds returnType n.completes (s.table.step s.method invoke rounds n) := by
  have hvariable {name : String} (h : s.Names name) : s.HasVariable name :=
    h.resolve_right fun ⟨hlax, _⟩ => by simp [hs.strict] at hlax
  induction h with
  | block hparts p ih =>
    rw [s.table.step_eq]
    exact Context.proceeds_sequence ih
  | exprStmt he p =>
    intro heap frame hheap hframe
    rw [s.table.step_eq]
    refine (he.yields hs hinvoke hframe heap (.refl heap) hheap).bind fun heap₁ v hgrows₁ htyped₁ _ => ?_
    exact .pure htyped₁ ⟨hframe.mono hgrows₁, rfl⟩
  | @assign name value hname hvalue p q =>
    intro heap frame hheap hframe
    have htarget := hvariable hname
    obtain ⟨hknown, hvoid⟩ := hs.declared.names name htarget
    have hname' : Node.name ⟨.varRef, ⟨[("name", .text name)]⟩, [], p⟩ = .ok name := rfl
    rw [s.table.step_eq]
    simp only [SymbolTable.stepOf, hname', Run.ofExcept, pure_bind, SymbolTable.value, bind_assoc]
    refine (hvalue.yields hs hinvoke hframe hknown.1 hvoid).bind (.refl heap) hheap hvoid
      fun heap₁ v hgrows₁ htyped₁ hv => ?_
    exact Context.safe_assign hs htarget htyped₁ (hframe.mono hgrows₁) hv
  | @arrayAssign name index value indexType valueType hname hindex hvalue htype hint hfit p q =>
    intro heap frame hheap hframe
    have hknown := (hs.declared.names name (hvariable hname)).1.1
    have hisArray := htype.resolve_left fun heq => hknown (congrArg Ty.name heq)
    have hvalueKnown := (hvalue.isKnown hs.declared hs.strict hs.imports).1
    obtain rfl := Ty.eq_of_assignable hint (by decide) (hindex.isKnown hs.declared hs.strict hs.imports).1
    have hbase : (s.variableType name).base.name ≠ "any" := hknown
    obtain rfl := Ty.eq_of_assignable (hfit hisArray) hbase hvalueKnown
    have harray := (Typed.varRef hname p).yields hs hinvoke hframe
    rw [show s.variableType name = ⟨(s.variableType name).name, true⟩ from Ty.eq_mk rfl hisArray] at harray
    rw [s.table.step_eq]
    simp only [SymbolTable.stepOf, SymbolTable.value, bind_assoc]
    refine harray.bind (.refl heap) hheap (by simp [Ty.void]) fun heap₁ a hgrows₁ htyped₁ ha => ?_
    refine (hindex.yields hs hinvoke hframe).bind hgrows₁ htyped₁ (by decide)
      fun heap₂ i hgrows₂ htyped₂ hi => ?_
    have hvoid : (s.variableType name).base ≠ .void := fun heq =>
      (hs.declared.names name (hvariable hname)).1.2 (Ty.eq_mk (congrArg Ty.name heq) hisArray)
    refine (hvalue.yields hs hinvoke hframe).bind (hgrows₁.trans hgrows₂) htyped₂ hvoid
      fun heap₃ v hgrows₃ htyped₃ hv => ?_
    have hgrows := hgrows₂.trans hgrows₃
    refine (Run.safe_number htyped₃ (Datum.isOf_mono hgrows₃ hi)).bind fun heap₄ k hgrows₄ htyped₄ _ => ?_
    refine (Run.safe_store htyped₄ (Datum.isOf_mono (hgrows.trans hgrows₄) ha)
      (Datum.isOf_mono hgrows₄ hv)).bind fun heap₅ _ hgrows₅ htyped₅ _ => ?_
    exact .pure htyped₅ ⟨hframe.mono (((hgrows₁.trans hgrows).trans hgrows₄).trans hgrows₅), rfl⟩
  | returnNothing hvoid p =>
    intro heap frame hheap hframe
    exact .pure hheap hvoid
  | @returnValue value type hvalue hvoid hfit p =>
    intro heap frame hheap hframe
    rw [s.table.step_eq]
    simp only [SymbolTable.stepOf, SymbolTable.value, bind_assoc]
    refine (hvalue.yields_compatible hs hinvoke hframe hfit hreturn.1 hvoid).bind (.refl heap) hheap hvoid
      fun heap₁ v hgrows₁ htyped₁ hv => ?_
    exact .pure htyped₁ hv
  | @ifThen c t type hc hboolean ht p ih =>
    intro heap frame hheap hframe
    rw [s.table.step_eq]
    refine (hc.safe_decides hs hinvoke hboolean hheap hframe).bind fun heap₁ holds hgrows₁ htyped₁ _ => ?_
    have hframe₁ := hframe.mono hgrows₁
    cases holds with
    | false => exact .pure htyped₁ ⟨hframe₁, rfl⟩
    | true => exact (ih heap₁ frame htyped₁ hframe₁).imp fun heap₂ step _ hstep => Context.Lands.weaken hstep fun _ => rfl
  | @ifElse c t e type hc hboolean ht he p iht ihe =>
    intro heap frame hheap hframe
    rw [s.table.step_eq]
    refine (hc.safe_decides hs hinvoke hboolean hheap hframe).bind fun heap₁ holds hgrows₁ htyped₁ _ => ?_
    have hframe₁ := hframe.mono hgrows₁
    have hcompletes : Node.completes ⟨.ifStmt, {}, [c, t, e], p⟩ = (t.completes && e.completes) := by
      rw [Node.completes]
    rw [hcompletes]
    cases holds with
    | true =>
      exact (iht heap₁ frame htyped₁ hframe₁).imp fun heap₂ step _ hstep =>
        Context.Lands.weaken hstep fun hnot => by simp [hnot]
    | false =>
      exact (ihe heap₁ frame htyped₁ hframe₁).imp fun heap₂ step _ hstep =>
        Context.Lands.weaken hstep fun hnot => by simp [hnot]
  | whileLoop hc hboolean hb p ih =>
    rw [s.table.step_eq]
    exact Context.proceeds_loop (fun heap frame hheap hframe => hc.safe_decides hs hinvoke hboolean hheap hframe) ih

end JmmCompiler

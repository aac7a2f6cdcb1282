import JmmCompiler.Proofs.Flow
import JmmCompiler.Proofs.Lowerable
import JmmCompiler.Proofs.LoweringCases
/-! What lowered code returns. An expression lacks a value only where none is wanted or where its type says so, and
so a method returns a value exactly where its statements give one. -/
namespace JmmCompiler

namespace Lower
variable {α β : Type} {x : Lower α} {f : α → Lower β} {P : α → Prop} {Q : β → Prop}

/-- Every result of a lowering is of a kind. -/
def Yields (x : Lower α) (P : α → Prop) : Prop := ∀ ns a ns', x.run ns = .ok (a, ns') → P a

theorem Yields.pure {a : α} (h : P a) : Yields (Pure.pure a) P := by
  intro ns b ns' hrun
  obtain ⟨rfl, -⟩ := lower_pure_eq_ok.1 hrun
  exact h

/-- What a lowering that went gives. -/
theorem Yields.of_run {ns ns' : Names} {a : α} (h : Yields x P) (hrun : x.run ns = .ok (a, ns')) : P a := h ns a ns' hrun

theorem Yields.throw (e : Failure) : Yields (throw e) P := fun _ _ _ hrun => absurd hrun lower_throw_ne_ok

/-- The kind of a result is settled by what comes last. -/
theorem Yields.last (h : ∀ a, Yields (f a) Q) : Yields (x >>= f) Q := by
  intro ns b ns' hrun
  obtain ⟨a, ns₁, -, hrest⟩ := lower_bind_eq_ok.1 hrun
  exact h a ns₁ b ns' hrest

theorem Yields.bind (hx : Yields x P) (hf : ∀ a, P a → Yields (f a) Q) : Yields (x >>= f) Q := by
  intro ns b ns' hrun
  obtain ⟨a, ns₁, hfirst, hrest⟩ := lower_bind_eq_ok.1 hrun
  exact hf a (hx ns a ns₁ hfirst) ns₁ b ns' hrest

theorem Yields.known {y : Except Failure α} (h : ∀ a, y = .ok a → Yields (f a) Q) : Yields (liftM y >>= f) Q := by
  intro ns b ns' hrun
  obtain ⟨a, ns₁, hfirst, hrest⟩ := lower_bind_eq_ok.1 hrun
  exact h a (lower_lift_eq_ok.1 hfirst).1 ns₁ b ns' hrest

theorem Yields.imp {P' : α → Prop} (hx : Yields x P) (h : ∀ a, P a → P' a) : Yields x P' :=
  fun ns a ns' hrun => h a (hx ns a ns' hrun)

theorem Yields.of_from {P : Nat → α → Nat → Prop} (h : ∀ k, From k x (P k)) : Yields x fun a => ∃ k k', P k a k' := by
  intro ns a ns' hrun
  have hns := h ns.nextLabel ns rfl
  rw [hrun] at hns
  exact ⟨_, _, hns⟩

end Lower

namespace SymbolTable
variable {t : SymbolTable} {method : String} {expected : Option Ty}
open Lower

/-- A value that is missing where it is not said to be is missing nowhere. -/
def MissesOnly (allowed : Prop) (v : Lowered) : Prop := v.code = .absent → allowed

variable {allowed : Prop}

theorem yields_intoTemp (before : List Instruction) (type : Ty) (value : Instruction) :
    Yields (intoTemp before type value) (MissesOnly allowed) :=
  .last fun temp => .pure fun h => by cases h

theorem yields_lowerVariable (name : String) : Yields (t.lowerVariable method name) (MissesOnly allowed) := by
  intro ns v ns' hrun
  cases leaves_reading name ns v ns' hrun with
  | field hbinding hf hv => exact (yields_intoTemp _ _ _).of_run hv
  | _ => exact fun h => by cases h

/-- The type of a call of a method of the class. -/
theorem typeOf_ownCall {attributes : Assoc Attribute} {receiver : Node} {args : List Node} {p : Position}
    {name : String} {m : MethodInfo} (hname : Node.name ⟨.call, attributes, receiver :: args, p⟩ = .ok name)
    (hown : t.isOwnCall (some method) name receiver = .ok true) (hm : t.method name = .ok m) :
    t.typeOf (some method) ⟨.call, attributes, receiver :: args, p⟩ = .ok m.returnType := by
  have hm : t.method? name = some m := by
    unfold SymbolTable.method at hm
    split at hm
    · rename_i hfound
      rw [hfound, Except.ok.inj hm]
    · cases hm
  have htype : t.typeOf (some method) receiver = .ok t.classType := by
    unfold isOwnCall hasMethod isOwnReceiver at hown
    rw [hm, Option.isSome_some, if_pos rfl] at hown
    by_cases hkind : receiver.kind = .thisRef
    · exact t.typeOf_thisRef _ hkind
    · simpa [hkind, map_eq_ok] using hown
  refine Node.Rewrites.typeOf_call_eq_ok.2 ⟨name, hname, ?_⟩
  rw [hm]
  exact ⟨_, htype, (if_pos rfl).symm⟩

/-- A lowered expression has a value unless none is wanted, or its type is that of what has none. -/
theorem yields_value (n : Node) (expected : Option Ty) :
    Yields (t.lower method expected n)
      (MissesOnly (expected = some .void ∨ t.typeOf (some method) n = .ok .void)) := by
  induction n using Node.induction_children generalizing expected with
  | step n ih =>
    intro ns v ns' hrun
    obtain ⟨kind, attributes, children, position⟩ := n
    cases leaves_lowering expected _ ns v ns' hrun with
    | varRef hkind hname hv => exact (yields_lowerVariable _).of_run hv
    | @paren inner _ _ _ hkind hchildren hv =>
      obtain rfl : kind = .paren := hkind
      obtain rfl : children = _ := hchildren
      exact (ih inner (by simp) expected).of_run hv
    | binary hkind hop hand ho hchildren hl hr hv => exact (yields_intoTemp _ _ _).of_run hv
    | unary hkind hop hchildren hu hv => exact (yields_intoTemp _ _ _).of_run hv
    | newArray hkind hname hchildren hu hv => exact (yields_intoTemp _ _ _).of_run hv
    | arrayLiteral hkind htype harray hname hstores =>
      exact fun h => (Yields.of_run (P := MissesOnly False) (yields_intoTemp _ _ _) harray h).elim
    | arrayAccess hkind hchildren ha hi htype hname hv => exact (yields_intoTemp _ _ _).of_run hv
    | length hkind hchildren ha hv => exact (yields_intoTemp _ _ _).of_run hv
    | lengthCall hkind hname hchildren hown htype harray ha hv => exact (yields_intoTemp _ _ _).of_run hv
    | call hkind hname hname? hchildren hown hlength htarget hsignature hargs hv =>
      cases hv with
      | kept hvoid hvalue => exact (yields_intoTemp _ _ _).of_run hvalue
      | discarded hvoid =>
        intro _
        obtain rfl : kind = .call := hkind
        obtain rfl : children = _ := hchildren
        obtain ⟨rfl, m, hm, rfl⟩ | ⟨-, rfl⟩ := callSignature_cases hsignature
        · exact .inr (hvoid ▸ typeOf_ownCall hname hown hm)
        · exact .inl (by_contra fun hne => wanted_ne_void hne hvoid)
    | _ => exact fun h => by cases h

end SymbolTable

namespace Node

/-- The parts of every return statement have a property. -/
inductive ReturnsWith (P : List Node → Prop) : Node → Prop
  | intro {n : Node} (here : n.kind = .returnStmt → P n.children)
      (below : n.kind = .block ∨ n.kind = .ifStmt ∨ n.kind = .whileStmt → ∀ c ∈ n.children, ReturnsWith P c) :
      ReturnsWith P n

/-- A property that rewriting keeps. -/
theorem ReturnsWith.rewrites {P : List Node → Prop} {folds : Prop} {t : SymbolTable} {method : Option String}
    {n n' : Node} (hP : ∀ {cs cs'}, List.Forall₂ (Rewrites folds t method) cs cs' → P cs → P cs')
    (h : n.ReturnsWith P) (hn : Rewrites folds t method n n') : n'.ReturnsWith P := by
  induction h generalizing n' with
  | @intro n here below ih =>
    refine .intro (fun hkind => ?_) fun hkind c' hc' => ?_
    · have heq := hn.kind_of_isStatement (by rw [hkind]; rfl)
      have hparts := (hn.parts (by rw [heq, hkind]; rfl) (by simp [heq, hkind])).2
      exact hP hparts (here (heq.trans hkind))
    · have hstatement : n'.kind.isStatement = true := by rcases hkind with h | h | h <;> rw [h] <;> rfl
      have heq := hn.kind_of_isStatement hstatement
      obtain ⟨c, hc, hcc'⟩ := (hn.exists_part (heq ▸ hstatement)).2 c' hc'
      exact ih (heq ▸ hkind) c hc hcc'

end Node

namespace SymbolTable
variable {t : SymbolTable} {method : String} {returnType : Ty} {n : Node}
open Lower

/-- What a return statement has to consist of: nothing in a void method, and a value in another one. -/
def ReturnParts (t : SymbolTable) (method : String) (returnType : Ty) (parts : List Node) : Prop :=
  (returnType = .void → parts = []) ∧
    (returnType ≠ .void → ∃ value type, parts = [value] ∧ t.typeOf (some method) value = .ok type ∧ type ≠ .void)

/-- Returns without values in a void method, and returns of values of the right type in another one. -/
def Returning (returnType : Ty) (is : List Instruction) : Prop :=
  ∀ e type, .ret e type ∈ is →
    (returnType = .void → e = .absent) ∧ (returnType ≠ .void → e ≠ .absent ∧ type = returnType)

theorem returning_nil (returnType : Ty) : Returning returnType [] := by simp [Returning]

theorem Returning.append {is js : List Instruction} (h : Returning returnType is) (h' : Returning returnType js) :
    Returning returnType (is ++ js) :=
  fun e type hmem => (List.mem_append.1 hmem).elim (h e type) (h' e type)

theorem returning_of_straight {k k' : Nat} {outside : List String} {is : List Instruction}
    (h : Straight k k' outside is) : Returning returnType is := fun e type hmem => absurd hmem (h.stays e type)

/-- A sequence of jumps and labels. -/
theorem returning_of_forall {is : List Instruction} (h : ∀ i ∈ is, ∀ e type, i ≠ .ret e type) :
    Returning returnType is := fun e type hmem => absurd rfl (h _ hmem e type)

theorem yields_computation (n : Node) (expected : Option Ty) :
    Yields (t.lower method expected n) fun v => Returning returnType v.computation :=
  (Yields.of_from fun k => t.labels_lower method n k expected).imp
    (by rintro v ⟨_, _, h⟩; exact returning_of_straight h)

theorem yields_returning_lowerSequence {ns : List Node}
    (h : ∀ n ∈ ns, Yields (t.lowerStatement method returnType n) (Returning returnType)) :
    Yields (t.lowerSequence method returnType ns) (Returning returnType) := by
  induction ns with
  | nil => exact .pure (returning_nil returnType)
  | cons n ns ih =>
    rw [lowerSequence]
    refine (h n (by simp)).bind fun first hfirst => ?_
    exact (ih fun n hn => h n (by simp [hn])).bind fun rest hrest => .pure (hfirst.append hrest)

theorem yields_straight {x : Lower (List Instruction)} {outside : List String}
    (h : ∀ k, From k x (StraightCode k outside)) : Yields x (Returning returnType) :=
  (Yields.of_from h).imp (by rintro is ⟨_, _, h⟩; exact returning_of_straight h)

/-- The code of a statement returns as its return statements say. -/
theorem yields_returning (h : n.ReturnsWith (t.ReturnParts method returnType)) :
    Yields (t.lowerStatement method returnType n) (Returning returnType) := by
  induction h with
  | @intro n here below ih =>
    intro ns is ns' hrun
    cases leaves_loweringCode returnType n ns is ns' hrun with
    | block hkind his => exact (yields_returning_lowerSequence (ih (.inl hkind))).of_run his
    | exprStmt hkind hchildren hv => exact (yields_computation _ _).of_run hv
    | assignElement hkind hchildren htarget harray hindex his =>
      exact (yields_straight fun _ => from_lowerStore _ _ _).of_run his
    | assign hkind hchildren htarget hname his => exact (yields_straight fun _ => from_lowerAssign _ _).of_run his
    | arrayAssign hkind hchildren his => exact (yields_straight fun _ => from_lowerStore _ _ _).of_run his
    | returnNothing hkind hchildren =>
      intro e type hmem
      obtain ⟨rfl, rfl⟩ := Instruction.ret.inj (List.mem_singleton.1 hmem)
      refine ⟨fun _ => rfl, fun hne => ?_⟩
      obtain ⟨value, type, hparts, -⟩ := (here hkind).2 hne
      rw [hchildren] at hparts
      cases hparts
    | @returnValue value rest v _ hkind hchildren hv =>
      obtain ⟨hvoid, hvalue⟩ := here hkind
      rw [hchildren] at hvoid hvalue
      have hne : returnType ≠ .void := fun heq => by cases hvoid heq
      obtain ⟨value', type, hparts, htype, hne'⟩ := hvalue hne
      obtain ⟨rfl, rfl⟩ := List.cons.inj hparts
      refine ((yields_computation value _).of_run hv).append fun e type' hmem => ?_
      obtain ⟨rfl, rfl⟩ := Instruction.ret.inj (List.mem_singleton.1 hmem)
      refine ⟨fun heq => absurd heq hne, fun _ => ⟨fun habsent => ?_, rfl⟩⟩
      rcases (yields_value value _).of_run hv habsent with hexpected | hvoid
      · exact hne (Option.some.inj hexpected)
      · exact hne' (Except.ok.inj (htype.symm.trans hvoid))
    | ifElse hkind hchildren hlabel htest hfirst hsecond =>
      have ih := ih (.inr (.inl hkind))
      rw [hchildren] at ih
      have htest : Returning returnType _ := (yields_straight fun _ => from_lowerBranch _ _).of_run htest
      have hfirst := (ih _ (by simp)).of_run hfirst
      have hsecond := (ih _ (by simp)).of_run hsecond
      exact ((((htest.append (returning_of_forall (by simp))).append hfirst).append
        (returning_of_forall (by simp))).append hsecond).append (returning_of_forall (by simp))
    | ifThen hkind hchildren hrest hlabel htest hsecond =>
      have ih := ih (.inr (.inl hkind))
      rw [hchildren] at ih
      have htest : Returning returnType _ := (yields_straight fun _ => from_lowerBranch _ _).of_run htest
      have hsecond := (ih _ (by simp)).of_run hsecond
      exact ((htest.append (returning_of_forall (by simp))).append hsecond).append (returning_of_forall (by simp))
    | whileLoop hkind hchildren hlabel hfirst htest =>
      have ih := ih (.inr (.inr hkind))
      rw [hchildren] at ih
      have hfirst := (ih _ (by simp)).of_run hfirst
      have htest : Returning returnType _ := (yields_straight fun _ => from_lowerBranch _ _).of_run htest
      exact ((((returning_of_forall (by simp)).append hfirst).append (returning_of_forall (by simp))).append
        htest).append (returning_of_forall (by simp))

end SymbolTable
end JmmCompiler

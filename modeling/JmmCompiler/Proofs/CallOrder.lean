import Mathlib
import JmmCompiler.Proofs.Comparisons
import JmmCompiler.Proofs.ReturnPaths
/-! The calls in the code of a method are those of its statements, each once and in their order, except that the
receivers of calls of static methods of the class are left out. -/
namespace JmmCompiler

/-- What a call does: it calls a method with a number of arguments, makes an object, initializes one, or makes an array. -/
inductive CallSite
  | method (name : String) (arity : Nat)
  | object (name : String)
  | constructor (name : String)
  | array (element : String)
  deriving DecidableEq

/-- The calls of an instruction. The length of an array is none. -/
def Instruction.callSites : Instruction → List CallSite
  | .assign _ value => value.callSites
  | .call .new (.classRef name _) _ _ _ => [.object name]
  | .call .new _ _ _ type => [.array type.name]
  | .call .special (.var _ type) _ _ _ => [.constructor type.name]
  | .call .arrayLength _ _ _ _ => []
  | .call _ _ name args _ => [.method (name.getD "") args.length]
  | _ => []

namespace SymbolTable
variable (t : SymbolTable) (method : String)

/-- Whether a call calls a method of the class. -/
def callsOwn (n : Node) : Bool :=
  match n.name, n.children with
  | .ok name, receiver :: _ => (t.isOwnCall (some method) name receiver).toOption.getD false
  | _, _ => false

/-- Whether a call is the length of an array. -/
def isLengthCall (n : Node) : Bool :=
  match n.name, n.children with
  | .ok name, [receiver] =>
    !t.callsOwn method n && name = "length" && ((t.typeOf (some method) receiver).toOption.getD .any).isArray
  | _, _ => false

/-- Whether a node calls a static method of the class. -/
def callsStatic (n : Node) : Bool :=
  n.kind = .call && t.callsOwn method n && t.isStatic (n.name.toOption.getD "")

/-- The calls of a node, those of its parts left out. -/
def callSitesOf (n : Node) : List CallSite :=
  let name := n.name.toOption.getD ""
  match n.kind with
  | .call => if t.isLengthCall method n then [] else [.method name (n.children.length - 1)]
  | .newObject => [.object name, .constructor name]
  | .newArray => [.array name]
  | .arrayLiteral => [.array ((t.typeOf (some method) n).toOption.getD .any).name]
  | _ => []

/-- The parts of a node in the order of their code: an else-part comes before the part that it is an alternative to, and
the body of a loop before the condition. -/
def arranged {α : Type} : Kind → List α → List α
  | .ifStmt, [condition, thenPart, elsePart] => [condition, elsePart, thenPart]
  | .whileStmt, [condition, body] => [body, condition]
  | _, parts => parts

mutual
/-- The calls of a tree from left to right: those of the parts of a node before its own, except that an array is made
before its elements. `drops` leaves out the receivers of calls of static methods of the class. -/
def callOrder (drops : Bool) : Node → List CallSite
  | ⟨kind, attributes, children, position⟩ =>
    let n : Node := ⟨kind, attributes, children, position⟩
    let parts := arranged kind (callOrders drops children)
    let kept := (if drops && t.callsStatic method n then parts.tail else parts).flatten
    if kind = .arrayLiteral then t.callSitesOf method n ++ kept else kept ++ t.callSitesOf method n

def callOrders (drops : Bool) : List Node → List (List CallSite)
  | [] => []
  | n :: ns => callOrder drops n :: callOrders drops ns
end

/-- No receiver of a call of a static method of the class calls anything. -/
def KeepsReceiver (n : Node) : Prop :=
  t.callsStatic method n = true → ∀ receiver ∈ n.children.head?, t.callOrder method false receiver = []

variable {t method} {drops : Bool}

theorem callOrders_eq (ns : List Node) : t.callOrders method drops ns = ns.map (t.callOrder method drops) := by
  induction ns with
  | nil => rfl
  | cons n ns ih => rw [callOrders, ih, List.map_cons]

theorem callOrder_eq (n : Node) : t.callOrder method drops n =
    let parts := arranged n.kind (n.children.map (t.callOrder method drops))
    let kept := (if drops && t.callsStatic method n then parts.tail else parts).flatten
    if n.kind = .arrayLiteral then t.callSitesOf method n ++ kept else kept ++ t.callSitesOf method n := by
  obtain ⟨kind, attributes, children, position⟩ := n
  rw [callOrder, callOrders_eq]

theorem arranged_perm {α : Type} (kind : Kind) (parts : List α) : (arranged kind parts).Perm parts := by
  unfold arranged
  split
  · exact .cons _ (.swap _ _ _)
  · exact .swap _ _ _
  · exact .refl _

/-- The calls of a tree are those of its nodes, each once. -/
theorem callOrder_perm_parts (n : Node) : (t.callOrder method false n).Perm
    (t.callSitesOf method n ++ (n.children.map (t.callOrder method false)).flatten) := by
  rw [callOrder_eq]
  simp only [Bool.false_and, Bool.false_eq_true, if_false]
  have hparts := (arranged_perm n.kind (n.children.map (t.callOrder method false))).flatten
  split
  · exact hparts.append_left _
  · exact (hparts.append_right _).trans List.perm_append_comm

theorem callOrder_perm_visit (pending : List (Path × Node)) :
    (pending.flatMap fun v => t.callOrder method false v.2).Perm
      ((Node.visit pending).flatMap fun v => t.callSitesOf method v.2) := by
  induction pending using Node.visit.induct with
  | case1 => simp [Node.visit]
  | case2 path n pending ih =>
    have hlocated : ((Node.located path n).flatMap fun v => t.callOrder method false v.2) =
        (n.children.map (t.callOrder method false)).flatten := by
      have hchildren : (Node.located path n).map (·.2) = n.children := by
        simp [Node.located, Function.comp_def]
      rw [← hchildren, List.map_map, List.flatMap_def]
      rfl
    rw [Node.visit, List.flatMap_cons, List.flatMap_cons]
    refine ((callOrder_perm_parts n).append_right _).trans ?_
    rw [List.append_assoc]
    refine List.Perm.append_left _ ?_
    rw [← hlocated, ← List.flatMap_append]
    exact ih

theorem callOrder_perm (n : Node) : (t.callOrder method false n).Perm
    (n.preorder.flatMap fun v => t.callSitesOf method v.2) := by
  simpa [Node.preorder] using @callOrder_perm_visit t method [([], n)]

/-- The calls of a node of a kind that calls nothing itself and has its parts in order. -/
theorem callOrder_plain {kind : Kind} (attributes : Assoc Attribute) (children : List Node) (p : Position)
    (hkind : kind ∉ [.call, .newObject, .newArray, .arrayLiteral, .ifStmt, .whileStmt]) :
    t.callOrder method drops ⟨kind, attributes, children, p⟩ = (children.map (t.callOrder method drops)).flatten := by
  rw [callOrder_eq]
  cases kind <;> simp_all [callsStatic, callSitesOf, arranged]

theorem callOrder_newArray (name : String) (size : Node) (p : Position) :
    t.callOrder method drops ⟨.newArray, ⟨[("name", .text name)]⟩, [size], p⟩ =
      t.callOrder method drops size ++ [.array name] := by
  have hown : t.callSitesOf method ⟨.newArray, ⟨[("name", .text name)]⟩, [size], p⟩ = [.array name] := rfl
  rw [callOrder_eq]
  simp [hown, callsStatic, arranged]

/-- Where no receiver is left out that calls something, nothing is left out. -/
theorem callOrder_keeps {n : Node} (h : n.Everywhere (t.KeepsReceiver method))
    (hparts : n.Everywhere fun n => ∀ c ∈ n.children, c.kind ≠ .methodDecl) :
    t.callOrder method true n = t.callOrder method false n := by
  induction h with
  | @intro n here below ih =>
    have hchildren : n.children.map (t.callOrder method true) = n.children.map (t.callOrder method false) :=
      List.map_congr_left fun c hc => ih c hc (hparts.here c hc) (hparts.child hc (hparts.here c hc))
    rw [callOrder_eq n, callOrder_eq n, hchildren]
    by_cases hstatic : t.callsStatic method n = true
    · have hkind : n.kind = .call := by
        simp only [callsStatic, Bool.and_eq_true, decide_eq_true_eq] at hstatic
        exact hstatic.1.1
      -- the receiver that is left out is the first child, and calls nothing
      cases hn : n.children with
      | nil => simp [hkind, arranged]
      | cons receiver args =>
        have hreceiver := here hstatic receiver (by simp [hn])
        simp [hkind, hstatic, arranged, hreceiver]
    · simp [hstatic]

end SymbolTable

/-! ## Expressions -/

namespace SymbolTable
variable {t : SymbolTable} {method : String} {name : String} {receiver : Node} {args : List Node} {p : Position}
open Lower

/-- The calls of a sequence of instructions. -/
def sites (is : List Instruction) : List CallSite := is.flatMap Instruction.callSites

@[simp] theorem sites_nil : sites [] = [] := rfl

@[simp] theorem sites_append (is js : List Instruction) : sites (is ++ js) = sites is ++ sites js := List.flatMap_append

@[simp] theorem sites_cons (i : Instruction) (is : List Instruction) : sites (i :: is) = i.callSites ++ sites is :=
  List.flatMap_cons

/-- The code of an expression calls what the expression calls, in the same order. -/
def Ordered (t : SymbolTable) (method : String) (e : Node) : Prop :=
  ∀ expected, Yields (t.lower method expected e) fun l => sites l.computation = t.callOrder method true e

theorem yields_sites_intoTemp {before : List Instruction} {type : Ty} {value : Instruction} {calls : List CallSite}
    (h : sites before ++ value.callSites = calls) :
    Yields (intoTemp before type value) fun l => sites l.computation = calls :=
  .last fun temp => .pure (by simpa [Instruction.callSites] using h)

theorem yields_sites_lowerVariable (name : String) :
    Yields (t.lowerVariable method name) fun l => sites l.computation = [] := by
  intro ns v ns' hrun
  cases leaves_reading name ns v ns' hrun with
  | field hbinding hf hv => exact (yields_sites_intoTemp rfl).of_run hv
  | _ => rfl

theorem yields_sites_lowerArguments (h : ∀ e ∈ args, t.Ordered method e) (params : List Ty) :
    Yields (t.lowerArguments method params args) fun r =>
      sites r.1 = (args.map (t.callOrder method true)).flatten ∧ r.2.length = args.length := by
  induction args generalizing params with
  | nil => exact .pure ⟨rfl, rfl⟩
  | cons e es ih =>
    obtain ⟨he, hes⟩ := List.forall_mem_cons.1 h
    rw [lowerArguments]
    refine (he _).bind fun value hvalue => (ih hes _).bind fun rest hrest => .pure ⟨?_, ?_⟩
    · simp [hvalue, hrest.1]
    · simp [hrest.2]

theorem yields_sites_lowerElements (h : ∀ e ∈ args, t.Ordered method e) (array : String) (element : Ty) (index : Nat) :
    Yields (t.lowerElements method array element index args) fun is =>
      sites is = (args.map (t.callOrder method true)).flatten := by
  induction args generalizing index with
  | nil => exact .pure rfl
  | cons e es ih =>
    obtain ⟨he, hes⟩ := List.forall_mem_cons.1 h
    rw [lowerElements]
    refine (he _).bind fun value hvalue => (ih hes _).bind fun rest hrest => .pure ?_
    simp [hvalue, hrest, Instruction.callSites]

theorem callOrder_arrayLiteral (attributes : Assoc Attribute) {type : Ty}
    (htype : t.typeOf (some method) ⟨.arrayLiteral, attributes, args, p⟩ = .ok type) :
    t.callOrder method drops ⟨.arrayLiteral, attributes, args, p⟩ =
      .array type.name :: (args.map (t.callOrder method drops)).flatten := by
  rw [callOrder_eq]
  simp [callsStatic, callSitesOf, htype, arranged, Except.toOption]

theorem ordered_arrayLiteral (attributes : Assoc Attribute) {type : Ty}
    (htype : t.typeOf (some method) ⟨.arrayLiteral, attributes, args, p⟩ = .ok type)
    (h : ∀ e ∈ args, t.Ordered method e) : t.Ordered method ⟨.arrayLiteral, attributes, args, p⟩ := by
  intro expected
  rw [lower_arrayLiteral _ _ _ _ _ _ htype, callOrder_arrayLiteral attributes htype]
  have harray : Yields (lowerNewArray type.name ⟨.literal args.length .int, []⟩) fun l =>
      sites l.computation = [.array type.name] := yields_sites_intoTemp rfl
  refine harray.bind fun array harray => .last fun name => ?_
  refine (yields_sites_lowerElements h _ _ _).bind fun stores hstores => .pure ?_
  simp [harray, hstores]

/-- The calls of a call of a method: those of its receiver, of its arguments and itself. -/
theorem callOrder_call {own : Bool} {type : Ty} (hown : t.isOwnCall (some method) name receiver = .ok own)
    (htype : t.typeOf (some method) receiver = .ok type) :
    t.callOrder method drops ⟨.call, ⟨[("name", .text name)]⟩, receiver :: args, p⟩ =
      (if drops && own && t.isStatic name then [] else t.callOrder method drops receiver) ++
        (args.map (t.callOrder method drops)).flatten ++
        if own = false ∧ name = "length" ∧ args = [] ∧ type.isArray = true then [] else [.method name args.length] := by
  have hname : Node.name ⟨.call, ⟨[("name", .text name)]⟩, receiver :: args, p⟩ = .ok name := rfl
  have hcallsOwn : t.callsOwn method ⟨.call, ⟨[("name", .text name)]⟩, receiver :: args, p⟩ = own := by
    simp [callsOwn, hname, hown, Except.toOption]
  have hlength : t.isLengthCall method ⟨.call, ⟨[("name", .text name)]⟩, receiver :: args, p⟩ =
      decide (own = false ∧ name = "length" ∧ args = [] ∧ type.isArray = true) := by
    cases args with
    | nil => simp [isLengthCall, hname, hcallsOwn, htype, Except.toOption, Bool.and_assoc]
    | cons e es => simp [isLengthCall, hname]
  rw [callOrder_eq]
  simp only [callsStatic, callSitesOf, hcallsOwn, hname, hlength, arranged, Except.toOption, Option.getD_some]
  cases drops <;> cases own <;> cases t.isStatic name <;> simp

/-- The code of a call: that of its target, unless that is a class, of its arguments and the call. -/
theorem ordered_call {own isClass : Bool} {type : Ty} (hown : t.isOwnCall (some method) name receiver = .ok own)
    (htype : t.typeOf (some method) receiver = .ok type) (hclass : t.isClassReceiver method receiver = .ok isClass)
    (hname : isClass = true → t.callOrder method true receiver = []) (hreceiver : t.Ordered method receiver)
    (hargs : ∀ e ∈ args, t.Ordered method e) :
    t.Ordered method ⟨.call, ⟨[("name", .text name)]⟩, receiver :: args, p⟩ := by
  intro expected
  rw [lower_call _ _ _ _ hown htype hclass, callOrder_call hown htype]
  split
  · rename_i hlength
    obtain ⟨rfl, rfl, rfl, harray⟩ := hlength
    refine (hreceiver _).bind fun array hvalue => yields_sites_intoTemp ?_
    simp [hvalue, Instruction.callSites]
  · have htarget : Yields (t.callTarget method own isClass name receiver) fun r =>
        r.1 ≠ .new ∧ r.1 ≠ .special ∧ r.1 ≠ .arrayLength ∧
          sites r.2.computation = if true && own && t.isStatic name then [] else t.callOrder method true receiver := by
      unfold callTarget
      split
      · exact .pure (by simp_all)
      split
      · exact .last fun imported => .pure (by simp_all)
      · exact (hreceiver none).bind fun value hvalue => .pure (by simp_all)
    refine htarget.bind fun target htarget => .last fun signature => ?_
    obtain ⟨hnew, hspecial, hlength, htarget⟩ := htarget
    refine (yields_sites_lowerArguments hargs signature.2).bind fun before hbefore => ?_
    have hcall : (Instruction.call target.1 target.2.code (some name) before.2 signature.1).callSites =
        [.method name args.length] := by
      obtain ⟨invocation, target⟩ := target
      cases invocation <;> simp_all [Instruction.callSites]
    dsimp only
    split
    · exact .pure (by simp_all)
    · exact yields_sites_intoTemp (by simp_all)

end SymbolTable

namespace Typed
variable {s : Context} {e : Node} {type : Ty} {name : String}
open Lower SymbolTable

/-- A class that calls go to is named, and calls nothing. -/
theorem callOrder_varRef (h : Typed s e type) (hkind : e.kind = .varRef) (drops : Bool) :
    s.table.callOrder s.method drops e = [] := by
  cases h with
  | varRef h p => exact callOrder_plain _ _ _ (by decide)
  | _ => cases hkind

theorem ordered_call (hreceiver : Typed s e type) (hordered : s.table.Ordered s.method e) {args : List Node} {own : Bool}
    (hown : s.table.isOwnCall (some s.method) name e = .ok own) (hargs : ∀ e ∈ args, s.table.Ordered s.method e)
    (p : Position) : s.table.Ordered s.method ⟨.call, ⟨[("name", .text name)]⟩, e :: args, p⟩ := by
  obtain ⟨isClass, hclass, -⟩ := hreceiver.exists_isClassReceiver
  refine SymbolTable.ordered_call hown hreceiver.typeOf hclass (fun hisClass => ?_) hordered hargs
  by_cases hkind : e.kind = .varRef
  · exact hreceiver.callOrder_varRef hkind true
  · rw [s.table.isClassReceiver_of_kind s.method hkind] at hclass
    cases hclass
    cases hisClass

/-- The code of a typed expression calls what the expression calls, in the same order. -/
theorem ordered (h : Typed s e type) : s.table.Ordered s.method e := by
  induction h with
  | intLiteral i p => exact fun expected => .pure (by rw [callOrder_plain _ _ _ (by decide)]; rfl)
  | boolLiteral b p => exact fun expected => .pure (by rw [callOrder_plain _ _ _ (by decide)]; rfl)
  | varRef h p =>
    intro expected
    rw [callOrder_plain _ _ _ (by decide), lower_varRef]
    exact yields_sites_lowerVariable _
  | thisRef h p => exact fun expected => .pure (by rw [callOrder_plain _ _ _ (by decide)]; rfl)
  | paren hinner p ih =>
    intro expected
    rw [callOrder_plain _ _ _ (by decide), lower_paren]
    simpa using ih expected
  | newObject name hknown p =>
    intro expected
    rw [lower_newObject, callOrder_eq]
    exact .last fun temp => .pure rfl
  | newArray name hsize hint hknown p ih =>
    intro expected
    rw [lower_newArray]
    refine (ih _).bind fun size hvalue => yields_sites_intoTemp ?_
    rw [hvalue, callOrder_newArray]
    rfl
  | emptyLiteral p => exact ordered_arrayLiteral _ (s.table.typeOf_emptyLiteral _ p) (by simp)
  | arrayLiteral helements hfit hadmits p ih =>
    exact ordered_arrayLiteral _ (s.table.typeOf_arrayLiteral _ (helements _ (by simp)).typeOf) ih
  | gatheredLiteral name helements hfit hadmits hknown p ih =>
    exact ordered_arrayLiteral _ (s.table.typeOf_gatheredLiteral _ name _ p) ih
  | arrayAccess harray hindex htype hint hknown p ih ihindex =>
    intro expected
    rw [lower_arrayAccess, callOrder_plain _ _ _ (by decide)]
    refine (ih _).bind fun array ha => (ihindex _).bind fun index hi => .last fun element => .last fun name => ?_
    exact yields_sites_intoTemp (by simp [ha, hi, Instruction.callSites])
  | length harray htype p ih =>
    intro expected
    rw [lower_length, callOrder_plain _ _ _ (by decide)]
    exact (ih _).bind fun array ha => yields_sites_intoTemp (by simp [ha, Instruction.callSites])
  | unary hoperand hboolean p ih =>
    intro expected
    rw [lower_unary, callOrder_plain _ _ _ (by decide)]
    exact (ih _).bind fun operand ho => yields_sites_intoTemp (by simp [ho, Instruction.callSites])
  | @binary op o left right leftType rightType hop hleft hright halike hwanted hadmits p ihl ihr =>
    intro expected
    rw [callOrder_plain _ _ _ (by decide)]
    by_cases hand : op = "&&"
    · subst hand
      rw [lower_and]
      refine .last fun label => (ihl _).bind fun left hl => (ihr _).bind fun right hr => .last fun temp => .pure ?_
      simp [hl, hr, Instruction.callSites]
    · rw [lower_binary _ _ _ _ hop hand]
      refine .last fun leftHint => (ihl _).bind fun left hl => .last fun rightHint => (ihr _).bind fun right hr => ?_
      exact yields_sites_intoTemp (by simp [hl, hr, Instruction.callSites])
  | @ownCall name m receiver args types hm hreceiver hargs haccepts p ihr iha =>
    have hown : s.table.isOwnCall (some s.method) name receiver = .ok true :=
      s.table.isOwnCall_of_method _ hm hreceiver.typeOf
    exact hreceiver.ordered_call ihr hown iha p
  | lengthCall hreceiver hother harray p ih =>
    exact hreceiver.ordered_call ih (isOwnCall_of_other hreceiver hother) (by simp) p
  | foreignCall hreceiver hother hlength himports hargs hadmits p ihr iha =>
    exact hreceiver.ordered_call ihr (isOwnCall_of_other hreceiver hother) iha p
  | @importCall name imported args types hreceiver hother hargs hadmits p q iha =>
    have hclass : s.table.callOrder s.method true ⟨.varRef, ⟨[("name", .text imported)]⟩, [], q⟩ = [] :=
      callOrder_plain _ _ _ (by decide)
    refine SymbolTable.ordered_call (hreceiver.isOwnCall hother) hreceiver.typeOf hreceiver.isClassReceiver
      (fun _ => hclass) (fun expected => ?_) iha
    rw [hclass]
    exact yields_sites_lowerVariable _

/-- A value that updates a variable by a literal calls nothing. -/
theorem callOrder_update (h : Typed s e type) {target : Ty} {update : Instruction}
    (hupdate : selfUpdate? name target e = .ok (some update)) (drops : Bool) :
    s.table.callOrder s.method drops e = [] := by
  by_cases hkind : e.kind = .binary
  · cases h with
    | @binary op o left right leftType rightType hop hleft hright halike hwanted hadmits p =>
      rw [selfUpdate?_binary name target hop] at hupdate
      have hparts : left.kind = .varRef ∧ ∃ literal, literalElement? right = .ok (some literal) := by
        have hrest (h : (if left.kind ≠ .varRef then .ok none else do
            if (← left.name) ≠ name then return none
            return (← literalElement? right).map fun literal => .binary op (.var name target) literal target :
              Except Failure (Option Instruction)) = .ok (some update)) :
            left.kind = .varRef ∧ ∃ literal, literalElement? right = .ok (some literal) := by
          split at h
          · cases h
          rw [bind_eq_ok] at h
          obtain ⟨variableName, -, h⟩ := h
          split at h
          · cases h
          simp only [bind_eq_ok, pure_eq_ok, Option.map_eq_some_iff] at h
          obtain ⟨found, hfound, literal, rfl, -⟩ := h
          exact ⟨not_not.1 ‹_›, literal, hfound⟩
        cases o with
        | comparison c => cases hupdate
        | arithmetic a => exact hrest hupdate
        | logical l => exact hrest hupdate
      obtain ⟨hvariable, literal, hliteral⟩ := hparts
      have hright' : s.table.callOrder s.method drops right = [] := by
        cases hright with
        | intLiteral i p => exact callOrder_plain _ _ _ (by decide)
        | boolLiteral b p => exact callOrder_plain _ _ _ (by decide)
        | _ => cases hliteral
      rw [callOrder_plain _ _ _ (by decide)]
      simp [hleft.callOrder_varRef hvariable, hright']
    | _ => cases hkind
  · simp [selfUpdate?, hkind, pure, Except.pure] at hupdate

end Typed

/-! ## Statements -/

namespace Typed
variable {s : Context} {n : Node} {type : Ty} {name : String}
open Lower SymbolTable

/-- The code of a condition calls what the condition calls. -/
theorem yields_sites_lowerBranch (h : Typed s n type) (label : String) :
    Yields (s.table.lowerBranch s.method n label) fun is => sites is = s.table.callOrder s.method true n := by
  intro ns is ns' hrun
  cases leaves_testing n label ns is ns' hrun with
  | comparison hkind hop hcompares hleft hright hl hr =>
    cases h with
    | binary hoperator hleft' hright' halike hwanted hadmits p =>
      obtain rfl := Except.ok.inj hleft
      obtain rfl := Except.ok.inj hright
      rw [callOrder_plain _ _ _ (by decide)]
      simp [(hleft'.ordered _).of_run hl, (hright'.ordered _).of_run hr, Instruction.callSites]
    | _ => cases hkind
  | negation hkind hop hoperand hv =>
    cases h with
    | unary hoperand' hboolean p =>
      obtain rfl := Except.ok.inj hoperand
      rw [callOrder_plain _ _ _ (by decide)]
      simp [(hoperand'.ordered _).of_run hv, Instruction.callSites]
    | _ => cases hkind
  | value hbinary hunary hv => simp [(h.ordered _).of_run hv, Instruction.callSites]

/-- The code of a store into an array calls what the array, the index and the value call, in this order. -/
theorem yields_sites_lowerStore {array index value : Node} {arrayType indexType valueType : Ty}
    (harray : Typed s array arrayType) (hindex : Typed s index indexType) (hvalue : Typed s value valueType) :
    Yields (s.table.lowerStore s.method array index value) fun is => sites is =
      s.table.callOrder s.method true array ++ s.table.callOrder s.method true index ++
        s.table.callOrder s.method true value := by
  intro ns is ns' hrun
  cases leaves_storing array index value ns is ns' hrun with
  | intro ha hi htype hv hname =>
    have ha := (harray.ordered _).of_run ha
    have hi := (hindex.ordered _).of_run hi
    have hv := (hvalue.ordered _).of_run hv
    simp [ha, hi, hv, Instruction.callSites]

/-- The code of an assignment calls what the value calls. -/
theorem yields_sites_lowerAssign {value : Node} (hvalue : Typed s value type) (name : String) :
    Yields (s.table.lowerAssign s.method name value) fun is => sites is = s.table.callOrder s.method true value := by
  intro ns is ns' hrun
  cases leaves_assigning name value ns is ns' hrun with
  | update hs hupdate =>
    obtain ⟨op, literal, rfl, -⟩ := eq_of_selfUpdate hupdate
    rw [hvalue.callOrder_update hupdate]
    rfl
  | binding hs hupdate hv => simp [(hvalue.ordered _).of_run hv, Instruction.callSites]
  | field hbinding hf hv => simp [(hvalue.ordered _).of_run hv, Instruction.callSites]

end Typed

namespace Fits
variable {s : Context} {n : Node} {returnType : Ty}
open Lower SymbolTable

theorem yields_sites_lowerSequence {ns : List Node}
    (h : ∀ n ∈ ns, Yields (s.table.lowerStatement s.method returnType n) fun is =>
      sites is = s.table.callOrder s.method true n) :
    Yields (s.table.lowerSequence s.method returnType ns) fun is =>
      sites is = (ns.map (s.table.callOrder s.method true)).flatten := by
  induction ns with
  | nil => exact .pure rfl
  | cons n ns ih =>
    obtain ⟨hn, hns⟩ := List.forall_mem_cons.1 h
    rw [lowerSequence]
    exact hn.bind fun first hfirst => (ih hns).bind fun rest hrest => .pure (by simp [hfirst, hrest])

/-- The code of a statement calls what the statement calls. -/
theorem yields_sites (h : Fits s returnType n) : Yields (s.table.lowerStatement s.method returnType n) fun is =>
    sites is = s.table.callOrder s.method true n := by
  induction h with
  | block hparts p ih =>
    rw [callOrder_plain _ _ _ (by decide), lowerStatement]
    exact yields_sites_lowerSequence ih
  | exprStmt he p =>
    rw [callOrder_plain _ _ _ (by decide), lowerStatement]
    exact (he.ordered _).bind fun value hv => .pure (by simp [hv])
  | @assign name value hname hvalue p q =>
    have htarget : s.table.callOrder s.method true ⟨.varRef, ⟨[("name", .text name)]⟩, [], p⟩ = [] :=
      callOrder_plain _ _ _ (by decide)
    obtain ⟨type, htype⟩ : ∃ type, Typed s value type := by
      cases hvalue with
      | whole hvalue => exact ⟨_, hvalue⟩
      | elementwise hvalue => exact ⟨_, hvalue⟩
    rw [callOrder_plain _ _ _ (by decide), lowerStatement]
    exact (htype.yields_sites_lowerAssign name).imp fun is his => by simp [his, htarget]
  | @arrayAssign name index value indexType valueType hname hindex hvalue htype hint hfit p q =>
    rw [callOrder_plain _ _ _ (by decide), lowerStatement]
    exact (Typed.yields_sites_lowerStore (.varRef hname p) hindex hvalue).imp fun is his => by simp [his]
  | returnNothing hvoid p => exact .pure rfl
  | returnValue hvalue hvoid hfit p =>
    rw [callOrder_plain _ _ _ (by decide), lowerStatement]
    exact (hvalue.ordered _).bind fun value hv => .pure (by simp [hv, Instruction.callSites])
  | @ifThen c t type hc hboolean ht p ih =>
    rw [lowerStatement, callOrder_eq]
    refine .last fun number => (hc.yields_sites_lowerBranch _).bind fun test htest => ih.bind fun thenCode hthen => .pure ?_
    simp [htest, hthen, Instruction.callSites, callsStatic, callSitesOf, arranged]
  | @ifElse c t e type hc hboolean ht he p ih ihe =>
    rw [lowerStatement, callOrder_eq]
    refine .last fun number => (hc.yields_sites_lowerBranch _).bind fun test htest => ihe.bind fun elseCode helse =>
      ih.bind fun thenCode hthen => .pure ?_
    simp [htest, hthen, helse, Instruction.callSites, callsStatic, callSitesOf, arranged]
  | @whileLoop c b type hc hboolean hb p ih =>
    rw [lowerStatement, callOrder_eq]
    refine .last fun number => ih.bind fun body hbody => (hc.yields_sites_lowerBranch _).bind fun test htest => .pure ?_
    simp [htest, hbody, Instruction.callSites, callsStatic, callSitesOf, arranged]

end Fits

/-! ## Methods -/

namespace CodeMethod
variable {m m' : CodeMethod}
open SymbolTable

/-- Instructions that are added to a method add their calls to it. -/
theorem sites_of_extend {is : List Instruction} (h : m.extend is = .ok m') :
    m'.name = m.name ∧ sites m'.code = sites m.code ++ sites is := by
  induction is generalizing m with
  | nil =>
    obtain rfl : m = m' := by simpa [extend] using h
    simp
  | cons i is ih =>
    simp only [extend, List.foldlM_cons, bind_eq_ok] at h
    obtain ⟨m₁, hadd, hrest⟩ := h
    obtain ⟨hname, hsites⟩ := ih hrest
    rw [hname, hsites, sites_cons]
    cases i with
    | label name =>
      simp only [add, addLabel] at hadd
      split at hadd
      · cases hadd
      · rw [← Except.ok.inj hadd]
        exact ⟨rfl, rfl⟩
    | _ =>
      obtain rfl := Except.ok.inj hadd
      exact ⟨rfl, by simp [addInstruction]⟩

theorem sites_of_finish (h : m.finish = .ok m') : m'.name = m.name ∧ sites m'.code = sites m.code := by
  simp only [finish, assignSlots, bind_eq_ok, pure_eq_ok] at h
  obtain ⟨names, -, rfl⟩ := h
  split
  · exact ⟨rfl, rfl⟩
  · exact ⟨rfl, by simp [addInstruction, Instruction.callSites]⟩

end CodeMethod

namespace SymbolTable
variable {t : SymbolTable} {decl : Node} {m : CodeMethod} {info : MethodInfo} {ns ns' : Names}
open Lower

/-- The code of a method has the calls of its statements, each once and in order. -/
structure OrdersCalls (t : SymbolTable) (method : String) (decl : Node) (m : CodeMethod) : Prop where
  name : m.name = method
  /-- The receivers of calls of static methods of the class are left out. -/
  calls : sites m.code = decl.statements.flatMap (t.callOrder method true)
  /-- Nothing is left out that calls something, if no such receiver does. -/
  keeps : (∀ n ∈ decl.statements, n.Everywhere (t.KeepsReceiver method)) →
    sites m.code = decl.statements.flatMap (t.callOrder method false)
  /-- The order that leaves out nothing has the calls of every node, each once. -/
  each : (decl.statements.flatMap (t.callOrder method false)).Perm
    (decl.statements.flatMap fun n => n.preorder.flatMap fun v => t.callSitesOf method v.2)

/-- The calls of a method that is declared. -/
theorem Declares.ordersCalls (hdecl : t.Declares decl info) (hname : decl.name = .ok info.name)
    (h : (t.lowerMethod decl).run ns = .ok (m, ns')) : t.OrdersCalls info.name decl m := by
  obtain ⟨is, m₁, ns₁, ns₂, his, hextend, hfinish⟩ := lowerMethod_of_found hname hdecl.found h
  obtain ⟨hextendName, hextendSites⟩ := CodeMethod.sites_of_extend hextend
  obtain ⟨hfinishName, hfinishSites⟩ := CodeMethod.sites_of_finish hfinish
  have hsequence := Fits.yields_sites_lowerSequence (s := t.context info) fun n hn => (hdecl.fits hn).yields_sites
  have hcalls : sites m.code = decl.statements.flatMap (t.callOrder info.name true) := by
    rw [hfinishSites, hextendSites, hsequence _ _ _ his, List.flatMap_def]
    rfl
  refine ⟨hfinishName.trans hextendName, hcalls, fun hkeeps => ?_, ?_⟩
  · rw [hcalls, List.flatMap_def, List.flatMap_def]
    refine congrArg _ (List.map_congr_left fun n hn => callOrder_keeps (hkeeps n hn) ?_)
    exact (hdecl.shaped n hn).everywhere_isPart.imp fun n hpart => hpart.kind_child
  · exact List.Perm.flatMap_left _ fun n _ => callOrder_perm n

end SymbolTable

namespace Node

/-- In the code of a program that is analyzed without reports, every method has the calls of its statements from left
to right, each once, but not those in receivers of calls of static methods of the class. -/
theorem calls_in_order {source : String} {root : Node} {table : SymbolTable} {code : CodeProgram}
    (hparse : Node.parse source = .ok root)
    (hanalyze : root.analyze = .ok { reports := [], table := some table }) (hgenerate : table.generate root = .ok code) :
    ∃ c, root.classDecl = .ok c ∧ List.Forall₂ (fun decl m => ∃ info, MethodInfo.ofNode decl = .ok info ∧
      table.OrdersCalls info.name decl m) (c.childrenOf [.methodDecl]) code.methods := by
  have haccepted := accepted_of_analyze hparse hanalyze
  obtain ⟨i, c, hc, -, -⟩ := haccepted.shape.exists_class
  refine ⟨c, hc, ?_⟩
  have hlowered := SymbolTable.forall₂_lowered hc hgenerate
  refine ((List.forall₂_and_left (c.childrenOf [.methodDecl]) code.methods).2 ⟨fun _ => id, hlowered⟩).imp fun decl m h => ?_
  obtain ⟨hdecl, ns, ns', hrun⟩ := h
  obtain ⟨info, -, hinfo⟩ := exists_of_mapM (haccepted.table_eq hc).2 hdecl
  exact ⟨info, hinfo, (haccepted.declares hc hdecl hinfo).ordersCalls (MethodInfo.madeFrom hinfo).name hrun⟩

/-- Calls in arguments, in an index and in an array literal. -/
theorem calls_in_order_nested :
    ∃ root table code c, Node.parse
        "import Io;class A\x7bint g(int a)\x7breturn a;\x7dint f()\x7bint[] b;b=[this.g(Io.y(new A())),Io.x()];return b[Io.z(b.length)];\x7d\x7d" =
        .ok root ∧ root.analyze = .ok { reports := [], table := some table } ∧ table.generate root = .ok code ∧
      root.classDecl = .ok c ∧ code.methods.map (fun m => SymbolTable.sites m.code) = [[], [.array "int",
        .object "A", .constructor "A", .method "y" 1, .method "g" 1, .method "x" 0, .method "z" 1]] ∧
      List.Forall₂ (fun decl m => ∃ info, MethodInfo.ofNode decl = .ok info ∧ table.OrdersCalls info.name decl m)
        (c.childrenOf [.methodDecl]) code.methods := by
  obtain ⟨root, hroot, hfacts⟩ := exists_of_toOption (show (Node.parse
      "import Io;class A\x7bint g(int a)\x7breturn a;\x7dint f()\x7bint[] b;b=[this.g(Io.y(new A())),Io.x()];return b[Io.z(b.length)];\x7d\x7d").toOption.map
      (fun root => (root.analyze, (root.analyze.toOption.bind (·.table)).bind fun t =>
        (t.generate root).toOption.map fun code => code.methods.map fun m => SymbolTable.sites m.code)) =
        some (.ok { reports := [], table := some ⟨"A", none, ["Io"], [],
          [⟨"g", .int, [⟨"a", .int⟩], [], false, false, false⟩, ⟨"f", .int, [], [⟨"b", .intArray⟩], false, false, false⟩]⟩ },
          some [[], [.array "int", .object "A", .constructor "A", .method "y" 1, .method "g" 1, .method "x" 0,
            .method "z" 1]]) by decide +kernel)
  obtain ⟨hanalyze, hcode⟩ := Prod.mk.inj hfacts
  rw [hanalyze] at hcode
  obtain ⟨code, hgenerate, hsites⟩ := exists_of_toOption hcode
  obtain ⟨c, hc, hcalls⟩ := calls_in_order hroot hanalyze hgenerate
  exact ⟨root, _, code, c, hroot, hanalyze, hgenerate, hc, hsites, hcalls⟩

/-- A receiver that is made by a call, of which the code of a static call has nothing. -/
theorem dropped_receiver :
    ∃ root table code c, Node.parse
        "class A\x7bstatic int s()\x7breturn 1;\x7dA make()\x7breturn this;\x7dint f()\x7breturn this.make().s();\x7d\x7d" =
        .ok root ∧ root.analyze = .ok { reports := [], table := some table } ∧ table.generate root = .ok code ∧
      root.classDecl = .ok c ∧
      (c.childrenOf [.methodDecl]).map (fun decl => decl.statements.flatMap (table.callOrder "f" false)) =
        [[], [], [.method "make" 0, .method "s" 0]] ∧
      code.methods.map (fun m => SymbolTable.sites m.code) = [[], [], [.method "s" 0]] := by
  obtain ⟨root, hroot, hfacts⟩ := exists_of_toOption (show (Node.parse
      "class A\x7bstatic int s()\x7breturn 1;\x7dA make()\x7breturn this;\x7dint f()\x7breturn this.make().s();\x7d\x7d").toOption.map
      (fun root => (root.analyze, (root.analyze.toOption.bind (·.table)).bind fun t => root.classDecl.toOption.bind fun c =>
        (t.generate root).toOption.map fun code =>
          ((c.childrenOf [.methodDecl]).map fun decl => decl.statements.flatMap (t.callOrder "f" false),
            code.methods.map fun m => SymbolTable.sites m.code))) =
        some (.ok { reports := [], table := some ⟨"A", none, [], [],
          [⟨"s", .int, [], [], true, false, false⟩, ⟨"make", ⟨"A", false⟩, [], [], false, false, false⟩,
            ⟨"f", .int, [], [], false, false, false⟩]⟩ },
          some ([[], [], [.method "make" 0, .method "s" 0]], [[], [], [.method "s" 0]])) by decide +kernel)
  obtain ⟨hanalyze, hcode⟩ := Prod.mk.inj hfacts
  simp only [hanalyze, Except.toOption, Option.bind_some] at hcode
  obtain ⟨c, hc, hcode⟩ := Option.bind_eq_some_iff.1 hcode
  obtain ⟨code, hgenerate, hsites⟩ := exists_of_toOption hcode
  obtain ⟨hsource, hsites⟩ := Prod.mk.inj hsites
  exact ⟨root, _, code, c, hroot, hanalyze, hgenerate, eq_ok_of_toOption hc, hsource, hsites⟩

end Node
end JmmCompiler

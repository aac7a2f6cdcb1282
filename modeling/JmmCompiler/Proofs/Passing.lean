import JmmCompiler.Proofs.StagedStatements
import JmmCompiler.Proofs.Validated
/-! Typed expressions and statements that fit pass the checks, if their calls reach something and nothing follows a
return. Each rule of typing is read back as what a check asks for. -/
namespace JmmCompiler

theorem zip_append_right {α β : Type} {xs : List α} {ys zs : List β} (h : xs.length = ys.length) :
    xs.zip (ys ++ zs) = xs.zip ys := by
  have hzip : (xs ++ []).zip (ys ++ zs) = xs.zip ys ++ [].zip zs := List.zip_append h
  simpa using hzip

theorem Ty.assignable_comm (a b : Ty) : Ty.assignable a b = Ty.assignable b a := by
  rw [assignable, assignable, Bool.eq_iff_iff]
  simp only [Bool.or_eq_true, decide_eq_true_eq]
  rw [or_comm (a := a = any), eq_comm (a := a) (b := b)]

/-- A call that reaches no method of the class asks for the length of an array, or reaches what is imported. -/
def Context.Foreign (s : Context) (name : String) (receiver : Node) (args : List Node) (type : Ty) : Prop :=
  name = "length" ∧ args = [] ∧ type.isArray = true ∨ type.isArray = false ∧ s.table.isImported type.name = true ∨
    (receiver.kind = .varRef ∧ ∃ imported, receiver.name = .ok imported ∧ s.table.isImported imported = true) ∨
    type = s.table.classType ∧ s.table.superClass.any s.table.isImported = true

/-- A call reaches a method of the class or something else. -/
def Context.Reaches (s : Context) (n : Node) : Prop :=
  ∀ attributes receiver args p name, n = ⟨.call, attributes, receiver :: args, p⟩ → n.name = .ok name →
    ∃ type, Typed s receiver type ∧
      ((s.table.method? name).isSome ∧ type = s.table.classType ∨ s.Foreign name receiver args type)

/-- Nothing follows a return in a block. -/
def Node.EndsBlocks (n : Node) : Prop := n.kind = .block → Check.unreachable n.children = []

namespace Check

/-- All nodes of a tree pass the checks, those of a method declaration in it as nodes of that method. -/
inductive AllPass (t : SymbolTable) : Option Node → Node → Prop
  | intro {method : Option Node} {n : Node} (here : Passes ⟨t, method, n⟩)
      (below : ∀ c ∈ n.children, AllPass t (if c.kind = .methodDecl then some c else method) c) : AllPass t method n

theorem passes_iff {site : Site} : Passes site ↔ duplicateDeclarations.rule site = .ok [] ∧
    varargsDeclarations.rule site = .ok [] ∧ undeclaredVariables.rule site = .ok [] ∧
    undefinedMethods.rule site = .ok [] ∧ typeChecks.rule site = .ok [] ∧ controlFlow.rule site = .ok [] := by
  simp [Passes, all]

theorem flatten_eq_ok_nil {α : Type} {f : α → Findings} {xs : List α} (h : ∀ x ∈ xs, f x = .ok []) :
    (do
      let found ← xs.mapM f
      return found.flatten : Findings) = .ok [] := by
  obtain ⟨found, hfound⟩ := exists_mapM_eq_ok fun x hx => ⟨[], h x hx⟩
  have hnil : ∀ rs ∈ found, rs = [] := fun rs hrs => by
    obtain ⟨x, hx, hrun⟩ := exists_of_mem_mapM hfound hrs
    exact Except.ok.inj (hrun.symm.trans (h x hx))
  rw [hfound, ok_bind, pure_eq_ok]
  exact List.flatten_eq_nil_iff.2 hnil

section
variable {s : Context} {decl e n : Node} {p : Position} {name : String} {children args : List Node} {type : Ty}

theorem undeclaredVariables_eq_nil (hs : s.Within decl) (h : s.Names name) :
    undeclaredVariables.rule (s.site decl ⟨.varRef, ⟨[("name", .text name)]⟩, children, p⟩) = .ok [] := by
  simp only [undeclaredVariables, hs.methodName, ok_bind]
  simp only [Context.site, name_eq, ok_bind, Site.inStatic, Option.any_some, hs.isStatic]
  rcases h with (hbinding | ⟨hfield, hstatic⟩) | ⟨-, hbinding, hfield, himported⟩
  · simp [hbinding]
  · cases hbinding : (s.table.binding? (some s.method) name).isSome <;> simp [hfield, hstatic]
  · simp [hbinding, hfield, himported]

theorem elementRule_of_fit (hs : s.Within decl) {element : Ty} {message : Ty → String} {elements : List Node}
    {types : Node → Ty} (htypes : ∀ e ∈ elements, s.typeOf e = .ok (types e))
    (hfit : ∀ e ∈ elements, Ty.assignable element (types e) = true) :
    elementRule (s.site decl n) element message elements = .ok [] :=
  flatten_eq_ok_nil fun e he => by
    rw [hs.typeOf, htypes e he, ok_bind, if_pos (hfit e he)]
    rfl

/-! ## Calls -/

theorem fixedArguments_of_takes (hs : s.Within decl) {types : Node → Ty} {params : List Symbol}
    (htypes : ∀ e ∈ args, s.typeOf e = .ok (types e)) (h : MethodInfo.Takes params (args.map types)) :
    fixedArguments (s.site decl n) (params.zip args) = .ok [] := by
  induction params generalizing args with
  | nil => rfl
  | cons q params ih =>
    cases args with
    | nil => cases h
    | cons arg args =>
      obtain ⟨hfit, hrest⟩ := List.forall₂_cons.1 h
      rw [List.zip_cons_cons, fixedArguments, hs.typeOf, htypes arg (by simp), ok_bind,
        ih (fun e he => htypes e (by simp [he])) hrest, if_pos hfit]
      rfl

theorem gathered_of_fit (hs : s.Within decl) {types : Node → Ty} {element : Ty}
    (htypes : ∀ e ∈ args, s.typeOf e = .ok (types e))
    (hfit : ∀ type ∈ args.map types, Ty.assignable element type = true) :
    gathered (s.site decl n) element args = .ok [] :=
  flatten_eq_ok_nil fun e he => by
    rw [hs.typeOf, htypes e he, ok_bind, if_pos (hfit _ (List.mem_map_of_mem he))]
    rfl

/-- Elements that are gathered, where a single one is no array. -/
theorem varargsArguments_of_gathered (hs : s.Within decl) {types : Node → Ty} {last : Ty}
    (htypes : ∀ e ∈ args, s.typeOf e = .ok (types e)) (hlast : last.isArray = true)
    (hfit : ∀ type ∈ args.map types, Ty.assignable last.base type = true)
    (hsingle : ∀ type, args.map types = [type] → type.isArray = false) :
    varargsArguments (s.site decl n) last args = .ok [] := by
  have hgathered : (do gathered (s.site decl n) (← last.elementType) args : Findings) = .ok [] := by
    rw [Ty.elementType, if_pos hlast, ok_bind]
    exact gathered_of_fit hs htypes hfit
  unfold varargsArguments
  split
  · rename_i arg
    rw [hs.typeOf, htypes arg (by simp), ok_bind, hsingle _ rfl]
    exact hgathered
  · exact hgathered

/-- Arguments that are accepted have no reports. -/
theorem arguments_of_accepts (hs : s.Within decl) {m : MethodInfo} {types : Node → Ty}
    (htypes : ∀ e ∈ args, s.typeOf e = .ok (types e)) (h : m.Accepts (args.map types)) :
    arguments (s.site decl n) m args = .ok [] := by
  unfold arguments
  rw [← MethodInfo.rest?]
  generalize hgiven : args.map types = given at h
  cases h with
  | each hrest hparams =>
    have hlength : args.length = m.params.length := by
      rw [← List.length_map types, hgiven]
      exact hparams.length_eq.symm
    rw [hrest]
    simp only [hlength, ne_eq, not_true, if_false]
    exact fixedArguments_of_takes hs htypes (hgiven ▸ hparams)
  | @array last fixed given hrest hparams harray hfit =>
    obtain ⟨before, after, rfl, rfl, hafter⟩ := List.map_eq_append_iff.1 hgiven
    obtain ⟨arg, rfl, rfl⟩ := List.map_eq_singleton_iff.1 hafter
    have hbefore : m.params.dropLast.length = before.length := by simpa using hparams.length_eq
    have hfixed := fixedArguments_of_takes (n := n) hs (fun e he => htypes e (by simp [he])) hparams
    have hmore : varargsArguments (s.site decl n) last.type [arg] = .ok [] := by
      rw [varargsArguments, hs.typeOf, htypes arg (by simp), ok_bind, if_pos harray, if_pos hfit]
      rfl
    have hlong : ¬(before ++ [arg]).length < before.length := by simp
    rw [hrest]
    simp only [hbefore, zip_append_right hbefore, List.drop_left, if_neg hlong]
    exact append_eq_ok_nil.2 ⟨hfixed, hmore⟩
  | @gathered last fixed more hrest hlast hparams hmore hsingle =>
    obtain ⟨before, after, rfl, rfl, rfl⟩ := List.map_eq_append_iff.1 hgiven
    have hbefore : m.params.dropLast.length = before.length := by simpa using hparams.length_eq
    have hfixed := fixedArguments_of_takes (n := n) hs (fun e he => htypes e (by simp [he])) hparams
    have hrests := varargsArguments_of_gathered (n := n) hs (fun e he => htypes e (by simp [he])) hlast hmore hsingle
    have hlong : ¬(before ++ after).length < before.length := by simp
    rw [hrest]
    simp only [hbefore, zip_append_right hbefore, List.drop_left, if_neg hlong]
    exact append_eq_ok_nil.2 ⟨hfixed, hrests⟩

/-- What is asked of a call. -/
theorem undefinedMethods_eq_nil (hs : s.Within decl) {receiver : Node} (hreceiver : Typed s receiver type) :
    undefinedMethods.rule (s.site decl ⟨.call, ⟨[("name", .text name)]⟩, receiver :: args, p⟩) = .ok [] ↔
      (∃ m, s.table.method? name = some m ∧ type = s.table.classType ∧
        arguments (s.site decl ⟨.call, ⟨[("name", .text name)]⟩, receiver :: args, p⟩) m args = .ok []) ∨
      ((s.table.method? name).isSome → type ≠ s.table.classType) ∧ s.Foreign name receiver args type := by
  have hown : s.table.isOwnReceiver (some s.method) receiver = .ok (decide (type = s.table.classType)) :=
    s.table.isOwnReceiver_eq _ hreceiver.typeOf
  have hforeign (found : Report) : (if name = "length" ∧ args = [] ∧ type.isArray = true then pure []
        else if (!type.isArray && s.table.isImported type.name) = true then pure []
        else if receiver.kind = .varRef then do
          let imported ← receiver.name
          if s.table.isImported imported = true then pure []
            else if (decide (type = s.table.classType) && s.table.superClass.any s.table.isImported) = true
              then pure [] else pure [found]
        else if (decide (type = s.table.classType) && s.table.superClass.any s.table.isImported) = true
          then pure [] else pure [found] : Findings) = .ok [] ↔ s.Foreign name receiver args type := by
    unfold Context.Foreign
    by_cases hkind : receiver.kind = .varRef
    · obtain ⟨imported, himported, -⟩ := hreceiver.names hkind
      simp only [hkind, if_true, himported, ok_bind, Except.ok.injEq, exists_eq_left', true_and]
      split_ifs <;> simp_all
    · simp only [hkind, if_false, false_and, false_or]
      split_ifs <;> simp_all
  simp only [undefinedMethods, hs.typeOf, hs.methodName]
  simp only [Context.site, name_eq, Node.child, List.getElem?_cons_zero, ok_bind, hreceiver.typeOf, List.length_cons,
    Nat.add_eq_right, List.length_eq_zero_iff, List.tail_cons, hown]
  cases hm : s.table.method? name with
  | none =>
    refine (hforeign _).trans ?_
    simp
  | some m =>
    by_cases htype : type = s.table.classType
    · simp [htype]
    · refine Iff.trans ?_ ((hforeign (Site.error ⟨.call, ⟨[("name", .text name)]⟩, receiver :: args, p⟩
        ("Method '" ++ name ++ "' is not defined"))).trans (by simp [htype]))
      simp [htype]

end
end Check

namespace Typed
variable {s : Context} {decl e : Node} {type : Ty}

theorem reaches_of_passes (hs : s.Within decl) (h : Typed s e type) (hpasses : Check.Passes (s.site decl e)) :
    s.Reaches e := by
  rintro attributes receiver args p name rfl hname
  obtain ⟨-, -, -, hrule, -, -⟩ := Check.passes_iff.1 hpasses
  have hof {name' : String} {type : Ty} (hreceiver : Typed s receiver type)
      (hname : Node.name ⟨.call, ⟨[("name", .text name')]⟩, receiver :: args, p⟩ = .ok name)
      (hrule : Check.undefinedMethods.rule (s.site decl ⟨.call, ⟨[("name", .text name')]⟩, receiver :: args, p⟩) = .ok []) :
      ∃ type, Typed s receiver type ∧
        ((s.table.method? name).isSome ∧ type = s.table.classType ∨ s.Foreign name receiver args type) := by
    obtain rfl : name' = name := Except.ok.inj hname
    rcases (Check.undefinedMethods_eq_nil hs hreceiver).1 hrule with ⟨m, hm, htype, -⟩ | ⟨-, hforeign⟩
    · exact ⟨type, hreceiver, .inl ⟨by simp [hm], htype⟩⟩
    · exact ⟨type, hreceiver, .inr hforeign⟩
  cases h with
  | ownCall hm hreceiver hargs haccepts p => exact hof hreceiver hname hrule
  | lengthCall hreceiver hother harray p => exact hof hreceiver hname hrule
  | foreignCall hreceiver hother hlength himports hargs hadmits p => exact hof hreceiver hname hrule
  | importCall hreceiver hother hargs hadmits p q =>
    exact hof (.varRef (.inr ⟨hs.strict, hreceiver⟩) q) hname hrule

/-- The elements of an array literal fit into an array of its type. -/
theorem elements_fit (h : Typed s e type) (hkind : e.kind = .arrayLiteral) :
    ∃ types : Node → Ty, (∀ c ∈ e.children, Typed s c (types c)) ∧
      ∀ c ∈ e.children, Ty.assignable type.base (types c) = true := by
  cases h with
  | emptyLiteral p => exact ⟨fun _ => .any, by simp, by simp⟩
  | arrayLiteral helements hfit hadmits p => exact ⟨_, helements, hfit⟩
  | gatheredLiteral name helements hfit hadmits hknown p => exact ⟨_, helements, hfit⟩
  | _ => cases hkind

/-- A call that is no call of a method of the class. -/
theorem passes_otherCall (hs : s.Within decl) {name : String} {receiver : Node} {args : List Node} {p : Position}
    (hreceiver : Typed s receiver type) (hother : (s.table.method? name).isSome → type ≠ s.table.classType)
    (hreaches : s.Reaches ⟨.call, ⟨[("name", .text name)]⟩, receiver :: args, p⟩) :
    Check.Passes (s.site decl ⟨.call, ⟨[("name", .text name)]⟩, receiver :: args, p⟩) := by
  obtain ⟨type', htype', hreached⟩ := hreaches _ _ _ _ name rfl rfl
  obtain rfl := Except.ok.inj (hreceiver.typeOf.symm.trans htype'.typeOf)
  refine Check.passes_iff.2 ⟨rfl, rfl, rfl, (Check.undefinedMethods_eq_nil hs hreceiver).2 (.inr ⟨hother, ?_⟩), rfl, rfl⟩
  exact hreached.resolve_left fun hown => hother hown.1 hown.2

/-- A typed expression passes the checks if it reaches what it calls. -/
theorem passes (hs : s.Within decl) (h : Typed s e type) (hreaches : s.Reaches e) :
    Check.Passes (s.site decl e) := by
  -- only the checks of types remain for most forms
  have htyped {n : Node} (hvariables : Check.undeclaredVariables.rule (s.site decl n) = .ok [])
      (hrule : Check.typeChecks.rule (s.site decl n) = .ok [])
      (hkind : n.kind.isStatement = false ∧ n.kind ≠ .call ∧ n.kind ≠ .program ∧ n.kind ≠ .classDecl ∧
        n.kind ≠ .methodDecl) : Check.Passes (s.site decl n) := by
    obtain ⟨kind, attributes, children, p⟩ := n
    refine Check.passes_iff.2 ⟨?_, ?_, hvariables, ?_, hrule, ?_⟩
    all_goals
      revert hkind
      cases kind <;> first | (intro; rfl) | simp [Kind.isStatement]
  cases h with
  | intLiteral i p => exact htyped rfl rfl (by simp [Kind.isStatement])
  | boolLiteral b p => exact htyped rfl rfl (by simp [Kind.isStatement])
  | varRef hnames p => exact htyped (Check.undeclaredVariables_eq_nil hs hnames) rfl (by simp [Kind.isStatement])
  | thisRef hstatic p =>
    refine htyped ?_ rfl (by simp [Kind.isStatement])
    simp only [Check.undeclaredVariables, Context.site, Site.inStatic, Option.any_some, hs.isStatic, hstatic,
      Bool.false_eq_true, if_false]
    rfl
  | paren hinner p => exact htyped rfl rfl (by simp [Kind.isStatement])
  | newObject name hknown p => exact htyped rfl rfl (by simp [Kind.isStatement])
  | newArray name hsize hint hknown p => exact htyped rfl ((hs.expect hsize.typeOf).2 hint) (by simp [Kind.isStatement])
  | emptyLiteral p => exact htyped rfl rfl (by simp [Kind.isStatement])
  | @arrayLiteral first rest types helements hfit hadmits p =>
    refine htyped rfl ?_ (by simp [Kind.isStatement])
    have htype := (Typed.arrayLiteral helements hfit hadmits p).typeOf
    change (do
      let element := (← (s.site decl _).typeOf ⟨.arrayLiteral, {}, first :: rest, p⟩).base
      Check.elementRule (s.site decl _) element _ (first :: rest) : Findings) = _
    rw [hs.typeOf, htype, ok_bind]
    exact Check.elementRule_of_fit hs (fun e he => (helements e he).typeOf) hfit
  | @gatheredLiteral name elements types helements hfit hadmits hknown p =>
    refine htyped rfl ?_ (by simp [Kind.isStatement])
    cases elements with
    | nil => rfl
    | cons first rest =>
      have htype := (Typed.gatheredLiteral name helements hfit hadmits hknown p).typeOf
      change (do
        let element := (← (s.site decl _).typeOf
          ⟨.arrayLiteral, ⟨[("element_type", .text name)]⟩, first :: rest, p⟩).base
        Check.elementRule (s.site decl _) element _ (first :: rest) : Findings) = _
      rw [hs.typeOf, htype, ok_bind]
      exact Check.elementRule_of_fit hs (fun e he => (helements e he).typeOf) hfit
  | @arrayAccess array index type indexType harray hindex htype hint hknown p =>
    refine htyped rfl ?_ (by simp [Kind.isStatement])
    obtain ⟨found, hfound, hiff⟩ := Check.arrayRule_eq hs harray.typeOf ⟨.arrayAccess, {}, [array, index], p⟩ "Indexing"
    change (do
      let found ← Check.arrayRule (s.site decl _) array "Indexing"
      return found.2 ++ (← (s.site decl _).expect index .int "Array index") : Findings) = _
    rw [hfound, ok_bind, (hs.expect hindex.typeOf).2 hint, hiff.2 htype]
    rfl
  | @length array type harray htype p =>
    refine htyped rfl ?_ (by simp [Kind.isStatement])
    obtain ⟨found, hfound, hiff⟩ := Check.arrayRule_eq hs harray.typeOf ⟨.length, {}, [array], p⟩ "'length'"
    change (do return (← Check.arrayRule (s.site decl _) array "'length'").2 : Findings) = _
    rw [hfound, ok_bind, hiff.2 htype]
    rfl
  | unary hoperand hboolean p => exact htyped rfl ((hs.expect hoperand.typeOf).2 hboolean) (by simp [Kind.isStatement])
  | @binary op o left right leftType rightType hop hleft hright halike hwanted hadmits p =>
    refine htyped rfl ?_ (by simp [Kind.isStatement])
    have hop' : Node.op ⟨.binary, ⟨[("op", .text op)]⟩, [left, right], p⟩ = .ok op := rfl
    change Check.binaryRule _ = _
    unfold Check.binaryRule
    simp only [hs.typeOf]
    simp only [Context.site, hop', Node.child, List.getElem?_cons_zero, List.getElem?_cons_succ, ok_bind,
      hleft.typeOf, hright.typeOf, halike, Ty.assignable_comm rightType leftType, Bool.and_self, Bool.not_true,
      Bool.false_eq_true, if_false, hop, Option.bind_some]
    cases hoperand : o.operandType? with
    | none => rfl
    | some wanted =>
      obtain ⟨hl, hr⟩ := hwanted wanted hoperand
      exact Check.append_eq_ok_nil.2 ⟨(hs.expect hleft.typeOf).2 hl, (hs.expect hright.typeOf).2 hr⟩
  | @ownCall name m receiver args types hm hreceiver hargs haccepts p =>
    refine Check.passes_iff.2 ⟨rfl, rfl, rfl, (Check.undefinedMethods_eq_nil hs hreceiver).2 (.inl ⟨m, hm, rfl, ?_⟩), rfl, rfl⟩
    exact Check.arguments_of_accepts hs (fun e he => (hargs e he).typeOf) haccepts
  | lengthCall hreceiver hother harray p => exact hreceiver.passes_otherCall hs hother hreaches
  | foreignCall hreceiver hother hlength himports hargs hadmits p =>
    exact hreceiver.passes_otherCall hs hother hreaches
  | @importCall name imported args types hreceiver hother hargs hadmits p q =>
    have htyped : Typed s ⟨.varRef, ⟨[("name", .text imported)]⟩, [], q⟩ .any :=
      hreceiver.variableType ▸ .varRef (.inr ⟨hs.strict, hreceiver⟩) q
    exact htyped.passes_otherCall hs (fun hm => (hother hm).symm) hreaches

/-- The children of a typed expression in a method are typed. -/
theorem of_mem_children_lax (hs : s.strict = false) (h : Typed s e type) {c : Node} (hc : c ∈ e.children) :
    ∃ t, Typed s c t := by
  rcases h.of_mem_children hc with ht | ⟨name, p, rfl, himport⟩
  · exact ht
  · exact ⟨_, .varRef (.inr ⟨hs, himport⟩) p⟩

theorem allPass (hs : s.Within decl) (h : Typed s e type) (hreaches : e.Everywhere s.Reaches) :
    Check.AllPass s.table (some decl) e := by
  induction e using Node.induction_children generalizing type with
  | step e ih =>
    refine .intro (h.passes hs hreaches.here) fun c hc => ?_
    obtain ⟨t, ht⟩ := h.of_mem_children_lax hs.strict hc
    rw [if_neg ht.kind_ne]
    exact ih c hc ht (hreaches.child hc ht.kind_ne)

end Typed

namespace Fits
variable {s : Context} {decl n written : Node} {returnType : Ty}

theorem assignRule_eq_nil (hs : s.Within decl) {name : String} {value : Node} {p q : Position}
    (h : s.Assigns (s.variableType name) value) :
    Check.assignRule (s.site decl ⟨.assign, {}, [⟨.varRef, ⟨[("name", .text name)]⟩, [], p⟩, value], q⟩) = .ok [] := by
  have helements {types : Node → Ty} (hkind : value.kind = .arrayLiteral) (harray : (s.variableType name).isArray = true)
      (htypes : ∀ e ∈ value.children, Typed s e (types e))
      (hfit : ∀ e ∈ value.children, Ty.assignable (s.variableType name).base (types e) = true) :
      Check.assignRule (s.site decl ⟨.assign, {}, [⟨.varRef, ⟨[("name", .text name)]⟩, [], p⟩, value], q⟩) = .ok [] := by
    unfold Check.assignRule
    simp only [hs.typeOf]
    simp only [Context.site, Node.child, List.getElem?_cons_zero, List.getElem?_cons_succ, ok_bind, Check.typeOf_varRef,
      hkind, harray, decide_true, Bool.and_self, if_true]
    exact Check.elementRule_of_fit hs (fun e he => (htypes e he).typeOf) hfit
  cases h with
  | elementwise hvalue hkind harray htypes hfit => exact helements hkind harray htypes hfit
  | @whole type hvalue hfit =>
    by_cases hliteral : value.kind = .arrayLiteral ∧ (s.variableType name).isArray = true
    · obtain ⟨hkind, harray⟩ := hliteral
      -- a whole array goes to an array of the same type
      have hsame : s.variableType name = type := by
        have htarget : s.variableType name ≠ .any := fun h => by simp [h, Ty.any] at harray
        have hvalue : type ≠ .any := fun h => by
          have := hvalue.isArray_of_literal hkind
          simp [h, Ty.any] at this
        simpa [SymbolTable.compatible, Ty.assignable, harray, htarget, hvalue] using hfit
      obtain ⟨types, htypes, hfits⟩ := hvalue.elements_fit hkind
      exact helements hkind harray htypes (hsame ▸ hfits)
    · have hwhole : (decide (value.kind = .arrayLiteral) && (s.variableType name).isArray) = false := by
        simpa using hliteral
      unfold Check.assignRule
      simp only [hs.typeOf]
      simp only [Context.site, Node.child, List.getElem?_cons_zero, List.getElem?_cons_succ, ok_bind, Check.typeOf_varRef,
        hwhole, hvalue.typeOf, hfit, Bool.false_eq_true, if_false, if_true]
      rfl

theorem arrayAssignRule_eq_nil (hs : s.Within decl) {name : String} {index value : Node} {indexType valueType : Ty}
    {p q : Position} (hindex : Typed s index indexType) (hvalue : Typed s value valueType)
    (htype : s.variableType name = .any ∨ (s.variableType name).isArray = true)
    (hint : Ty.assignable .int indexType = true)
    (hfit : (s.variableType name).isArray = true → Ty.assignable (s.variableType name).base valueType = true) :
    Check.arrayAssignRule (s.site decl
      ⟨.arrayAssign, {}, [⟨.varRef, ⟨[("name", .text name)]⟩, [], p⟩, index, value], q⟩) = .ok [] := by
  obtain ⟨found, hfound, hiff⟩ := Check.arrayRule_eq hs (Check.typeOf_varRef name p)
    ⟨.arrayAssign, {}, [⟨.varRef, ⟨[("name", .text name)]⟩, [], p⟩, index, value], q⟩ "Indexed assignment"
  have hindexed : (s.site decl ⟨.arrayAssign, {}, [⟨.varRef, ⟨[("name", .text name)]⟩, [], p⟩, index, value], q⟩).expect
      index .int "Array index" = .ok [] := (hs.expect hindex.typeOf).2 hint
  unfold Check.arrayAssignRule
  simp only [Context.site] at hfound hindexed ⊢
  rw [hfound, ok_bind, hindexed, hiff.2 htype]
  by_cases harray : (s.variableType name).isArray = true
  · have helement : (s.site decl
        ⟨.arrayAssign, {}, [⟨.varRef, ⟨[("name", .text name)]⟩, [], p⟩, index, value], q⟩).expect value
        (s.variableType name).base "Assigned array element" = .ok [] := (hs.expect hvalue.typeOf).2 (hfit harray)
    simp only [Context.site] at helement
    simp [harray, helement]
  · simp [harray]

/-- A statement that fits passes the checks if nothing follows a return in it. -/
theorem passes (hs : s.Within decl) (hwritten : decl.returnType = .ok written)
    (hreturn : Ty.ofNode written = .ok returnType) (hname : ∃ name, decl.name = .ok name) (h : Fits s returnType n)
    (hends : n.EndsBlocks) : Check.Passes (s.site decl n) := by
  obtain ⟨name, hname⟩ := hname
  cases h with
  | block hparts p =>
    refine Check.passes_iff.2 ⟨rfl, rfl, rfl, rfl, rfl, ?_⟩
    exact congrArg Except.ok (hends rfl)
  | exprStmt he p => exact Check.passes_iff.2 ⟨rfl, rfl, rfl, rfl, rfl, rfl⟩
  | assign hnames hvalue p q => exact Check.passes_iff.2 ⟨rfl, rfl, rfl, rfl, assignRule_eq_nil hs hvalue, rfl⟩
  | arrayAssign hnames hindex hvalue htype hint hfit p q =>
    exact Check.passes_iff.2 ⟨rfl, rfl, rfl, rfl, arrayAssignRule_eq_nil hs hindex hvalue htype hint hfit, rfl⟩
  | returnNothing hvoid p =>
    refine Check.passes_iff.2 ⟨rfl, rfl, rfl, rfl, rfl, ?_⟩
    change Check.returnRule (s.site decl _) = _
    simp [Check.returnRule, Context.site, hname, hwritten, hreturn, hvoid]
  | @returnValue value type hvalue hvoid hfit p =>
    refine Check.passes_iff.2 ⟨rfl, rfl, rfl, rfl, rfl, ?_⟩
    change Check.returnRule (s.site decl _) = _
    unfold Check.returnRule
    simp only [hs.typeOf]
    simp [Context.site, hname, hwritten, hreturn, hvoid, hvalue.typeOf, hfit]
  | ifThen hc hboolean ht p =>
    exact Check.passes_iff.2 ⟨rfl, rfl, rfl, rfl, (hs.expect hc.typeOf).2 hboolean, rfl⟩
  | ifElse hc hboolean ht he p =>
    exact Check.passes_iff.2 ⟨rfl, rfl, rfl, rfl, (hs.expect hc.typeOf).2 hboolean, rfl⟩
  | whileLoop hc hboolean hb p =>
    exact Check.passes_iff.2 ⟨rfl, rfl, rfl, rfl, (hs.expect hc.typeOf).2 hboolean, rfl⟩

theorem allPass (hs : s.Within decl) (hwritten : decl.returnType = .ok written)
    (hreturn : Ty.ofNode written = .ok returnType) (hname : ∃ name, decl.name = .ok name) (h : Fits s returnType n)
    (hevery : n.Everywhere fun n => s.Reaches n ∧ n.EndsBlocks) : Check.AllPass s.table (some decl) n := by
  induction n using Node.induction_children with
  | step n ih =>
    refine .intro (h.passes hs hwritten hreturn hname hevery.here.2) fun c hc => ?_
    rcases h.of_mem_children hc with hfits | ⟨t, ht⟩
    · rw [if_neg hfits.kind_ne]
      exact ih c hc hfits (hevery.child hc hfits.kind_ne)
    · rw [if_neg ht.kind_ne]
      exact ht.allPass hs ((hevery.child hc ht.kind_ne).imp fun _ h => h.1)

end Fits
end JmmCompiler

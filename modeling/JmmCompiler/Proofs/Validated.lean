import JmmCompiler.Checks
import JmmCompiler.Proofs.ProgramShape
import JmmCompiler.Proofs.Subtrees
import JmmCompiler.Proofs.Typed
import Mathlib.Tactic.Choose
/-! What is known of a program that no check objects to: its expressions are typed and its statements
fit. Each rule of a check is read as the rule of typing that it decides. -/
namespace JmmCompiler

namespace Check

/-- No check objects to a node. -/
def Passes (site : Site) : Prop := ∀ c ∈ all, c.rule site = .ok []

theorem passes_of_validate {table : SymbolTable} {root : Node} (h : validate table root = .ok [])
    {v : Path × Node} (hv : v ∈ root.preorder) : Passes ⟨table, root.methodAt? v.1 v.2, v.2⟩ := by
  intro c hc
  simp only [validate, bind_eq_ok, pure_eq_ok] at h
  obtain ⟨found, hfound, hflat⟩ := h
  obtain ⟨reports, hmem, hrun⟩ := exists_of_mapM hfound hc
  obtain rfl : reports = [] := List.flatten_eq_nil_iff.1 hflat _ hmem
  simp only [run, bind_eq_ok, pure_eq_ok] at hrun
  obtain ⟨here, hhere, hflat⟩ := hrun
  obtain ⟨rs, hmem, hrule⟩ := exists_of_mapM hhere hv
  obtain rfl : rs = [] := List.flatten_eq_nil_iff.1 hflat _ hmem
  exact hrule

end Check

/-- A context in a method declaration. -/
structure Context.Within (s : Context) (decl : Node) : Prop where
  method : decl.name? = .ok (some s.method)
  isStatic : decl.flag "is_static" = s.isStatic
  strict : s.strict = false

/-- A node of a method declaration as the checks see it. -/
def Context.site (s : Context) (decl n : Node) : Site := ⟨s.table, some decl, n⟩

namespace Context.Within
variable {s : Context} {decl n e : Node} {expected type : Ty} {what : String}

theorem methodName (h : s.Within decl) : (s.site decl n).methodName = .ok (some s.method) := h.method

theorem typeOf (h : s.Within decl) : (s.site decl n).typeOf e = s.typeOf e := by
  rw [Site.typeOf, h.methodName, ok_bind]
  rfl

/-- An expectation without reports is met. -/
theorem expect (h : s.Within decl) (htype : s.typeOf e = .ok type) :
    (s.site decl n).expect e expected what = .ok [] ↔ Ty.assignable expected type = true := by
  rw [Site.expect, h.typeOf, htype, ok_bind]
  by_cases hfit : Ty.assignable expected type = true
  · simp [hfit]
  · simp [hfit]

end Context.Within

namespace Check
variable {s : Context} {decl : Node} {p : Position} {name : String} {children : List Node}


theorem name_eq (kind : Kind) : Node.name ⟨kind, ⟨[("name", .text name)]⟩, children, p⟩ = .ok name := rfl

/-- A variable that is declared. -/
theorem names_of_passes (hs : s.Within decl)
    (h : Passes (s.site decl ⟨.varRef, ⟨[("name", .text name)]⟩, children, p⟩)) : s.Names name := by
  have hrule := h undeclaredVariables (by simp [all])
  simp only [undeclaredVariables, hs.methodName, ok_bind] at hrule
  simp only [Context.site, name_eq, ok_bind, Site.inStatic, Option.any_some, hs.isStatic] at hrule
  unfold Context.Names Context.HasVariable Context.IsImportName
  by_cases hbinding : (s.table.binding? (some s.method) name).isSome = true
  · exact .inl (.inl hbinding)
  by_cases hfield : (s.table.field? name).isSome = true
  · cases hstatic : s.isStatic with
    | false => exact .inl (.inr ⟨hfield, rfl⟩)
    | true => simp [hbinding, hfield, hstatic] at hrule
  · simp only [Bool.not_eq_true, Option.isSome_eq_false_iff, Option.isNone_iff_eq_none] at hbinding hfield
    refine .inr ⟨hs.strict, hbinding, hfield, ?_⟩
    by_contra himported
    simp [hbinding, hfield, himported] at hrule

theorem not_static_of_passes (hs : s.Within decl)
    (h : Passes (s.site decl ⟨.thisRef, {}, [], p⟩)) : s.isStatic = false := by
  have hrule := h undeclaredVariables (by simp [all])
  by_contra hstatic
  rw [Bool.not_eq_false] at hstatic
  simp only [undeclaredVariables, hs.methodName, ok_bind] at hrule
  simp [Context.site, Site.inStatic, hs.isStatic, hstatic] at hrule

section
variable {type leftType rightType : Ty} {left right e : Node} {op : String} {o : Operator}

theorem append_eq_ok_nil {x y : Findings} :
    (do
      let a ← x
      return a ++ (← y) : Findings) = .ok [] ↔ x = .ok [] ∧ y = .ok [] := by
  cases x with
  | error e => simp [bind, Except.bind]
  | ok a =>
    cases y with
    | error e => simp [bind, Except.bind]
    | ok b => simp [bind, Except.bind, pure, Except.pure]

theorem binary_of_passes (hs : s.Within decl) (hop : Operator.ofSymbol? op = some o)
    (hleft : s.typeOf left = .ok leftType) (hright : s.typeOf right = .ok rightType)
    (h : Passes (s.site decl ⟨.binary, ⟨[("op", .text op)]⟩, [left, right], p⟩)) :
    Ty.assignable leftType rightType = true ∧ ∀ type ∈ o.operandType?,
      Ty.assignable type leftType = true ∧ Ty.assignable type rightType = true := by
  have hrule := h typeChecks (by simp [all])
  have hop' : Node.op ⟨.binary, ⟨[("op", .text op)]⟩, [left, right], p⟩ = .ok op := rfl
  change binaryRule _ = _ at hrule
  unfold binaryRule at hrule
  simp only [hs.typeOf] at hrule
  simp only [Context.site, hop', Node.child, List.getElem?_cons_zero, List.getElem?_cons_succ, ok_bind,
    hleft, hright] at hrule
  by_cases halike : (Ty.assignable leftType rightType && Ty.assignable rightType leftType) = true
  · simp only [Bool.and_eq_true] at halike
    refine ⟨halike.1, fun type htype => ?_⟩
    simp only [halike, hop, Option.bind_some, Option.mem_def.1 htype, Bool.and_self, Bool.not_true,
      Bool.false_eq_true, if_false] at hrule
    obtain ⟨hl, hr⟩ := append_eq_ok_nil.1 hrule
    exact ⟨(hs.expect hleft).1 hl, (hs.expect hright).1 hr⟩
  · simp [halike] at hrule

theorem unary_of_passes (hs : s.Within decl) (he : s.typeOf e = .ok type)
    (h : Passes (s.site decl ⟨.unary, ⟨[("op", .text "!")]⟩, [e], p⟩)) :
    Ty.assignable .boolean type = true := by
  have hrule := h typeChecks (by simp [all])
  exact (hs.expect he).1 hrule

theorem newArray_of_passes (hs : s.Within decl) (he : s.typeOf e = .ok type)
    (h : Passes (s.site decl ⟨.newArray, ⟨[("name", .text name)]⟩, [e], p⟩)) :
    Ty.assignable .int type = true := by
  have hrule := h typeChecks (by simp [all])
  exact (hs.expect he).1 hrule

theorem arrayRule_eq (hs : s.Within decl) (he : s.typeOf e = .ok type) (n : Node) (what : String) :
    ∃ found, arrayRule (s.site decl n) e what = .ok (type, found) ∧ 
      (found = [] ↔ type = .any ∨ type.isArray = true) := by
  unfold arrayRule
  rw [hs.typeOf, he, ok_bind]
  refine ⟨_, rfl, ?_⟩
  by_cases hany : type = .any
  · simp [hany]
  · cases harray : type.isArray
    · simp [hany]
    · simp

theorem length_of_passes (hs : s.Within decl) (he : s.typeOf e = .ok type)
    (h : Passes (s.site decl ⟨.length, {}, [e], p⟩)) : type = .any ∨ type.isArray = true := by
  have hrule := h typeChecks (by simp [all])
  obtain ⟨found, hfound, hiff⟩ := arrayRule_eq hs he ⟨.length, {}, [e], p⟩ "'length'"
  change (do return (← arrayRule (s.site decl _) e "'length'").2 : Findings) = _ at hrule
  rw [hfound, ok_bind, pure_eq_ok] at hrule
  exact hiff.1 hrule

theorem arrayAccess_of_passes (hs : s.Within decl) (hleft : s.typeOf left = .ok leftType)
    (hright : s.typeOf right = .ok rightType)
    (h : Passes (s.site decl ⟨.arrayAccess, {}, [left, right], p⟩)) :
    (leftType = .any ∨ leftType.isArray = true) ∧ Ty.assignable .int rightType = true := by
  have hrule := h typeChecks (by simp [all])
  obtain ⟨found, hfound, hiff⟩ := arrayRule_eq hs hleft ⟨.arrayAccess, {}, [left, right], p⟩ "Indexing"
  change (do
    let found ← arrayRule (s.site decl _) left "Indexing"
    return found.2 ++ (← (s.site decl _).expect right .int "Array index") : Findings) = _ at hrule
  rw [hfound, ok_bind] at hrule
  simp only [bind_eq_ok, pure_eq_ok, List.append_eq_nil_iff] at hrule
  obtain ⟨reports, hindex, hnil, rfl⟩ := hrule
  exact ⟨hiff.1 hnil, (hs.expect hright).1 hindex⟩

/-- Elements without reports fit. -/
theorem elementRule_eq_nil (hs : s.Within decl) {n : Node} {element : Ty} {message : Ty → String}
    {elements : List Node} {types : Node → Ty} (htypes : ∀ e ∈ elements, s.typeOf e = .ok (types e))
    (h : elementRule (s.site decl n) element message elements = .ok []) :
    ∀ e ∈ elements, Ty.assignable element (types e) = true := by
  intro e he
  simp only [elementRule, bind_eq_ok, pure_eq_ok] at h
  obtain ⟨found, hfound, hflat⟩ := h
  obtain ⟨reports, hmem, hof⟩ := exists_of_mapM hfound he
  rw [hs.typeOf, htypes e he, ok_bind, pure_eq_ok, List.flatten_eq_nil_iff.1 hflat _ hmem] at hof
  by_contra hfit
  simp [hfit] at hof

theorem arrayLiteral_of_passes (hs : s.Within decl) {first : Node} {rest : List Node} {types : Node → Ty}
    (htypes : ∀ e ∈ first :: rest, s.typeOf e = .ok (types e))
    (h : Passes (s.site decl ⟨.arrayLiteral, {}, first :: rest, p⟩)) :
    ∀ e ∈ first :: rest, Ty.assignable (types first).base (types e) = true := by
  have hrule := h typeChecks (by simp [all])
  have htype : s.typeOf ⟨.arrayLiteral, {}, first :: rest, p⟩ = .ok (types first).arrayOf :=
    s.table.typeOf_arrayLiteral _ (htypes first (by simp))
  change (do
    let element := (← (s.site decl _).typeOf ⟨.arrayLiteral, {}, first :: rest, p⟩).base
    elementRule (s.site decl _) element _ (first :: rest) : Findings) = _ at hrule
  rw [hs.typeOf, htype, ok_bind] at hrule
  exact elementRule_eq_nil hs htypes hrule

/-! ## Calls -/

theorem fixedArguments_eq_nil {site : Site} {types : Node → Ty} {params : List Symbol}
    {args : List Node} (htypes : ∀ e ∈ args, site.typeOf e = .ok (types e))
    (hlength : params.length ≤ args.length)
    (h : fixedArguments site (params.zip args) = .ok []) :
    MethodInfo.Takes params ((args.take params.length).map types) := by
  induction params generalizing args with
  | nil => exact .nil
  | cons q params ih =>
    obtain ⟨arg, args, rfl⟩ := List.exists_cons_of_length_pos (Nat.lt_of_lt_of_le (by simp) hlength)
    rw [List.zip_cons_cons, fixedArguments, htypes arg (by simp), ok_bind] at h
    simp only [bind_eq_ok, pure_eq_ok, List.append_eq_nil_iff] at h
    obtain ⟨reports, hrest, hfound, rfl⟩ := h
    refine .cons ?_ (ih (fun e he => htypes e (by simp [he])) (by simpa using hlength) hrest)
    by_contra hfit
    simp [hfit] at hfound

theorem gathered_eq_nil {site : Site} {types : Node → Ty} {element : Ty}
    {args : List Node} (htypes : ∀ e ∈ args, site.typeOf e = .ok (types e))
    (h : gathered site element args = .ok []) :
    ∀ type ∈ args.map types, Ty.assignable element type = true := by
  intro type htype
  obtain ⟨e, he, rfl⟩ := List.mem_map.1 htype
  simp only [gathered, bind_eq_ok, pure_eq_ok] at h
  obtain ⟨found, hfound, hflat⟩ := h
  obtain ⟨reports, hmem, hof⟩ := exists_of_mapM hfound he
  rw [htypes e he, ok_bind, pure_eq_ok, List.flatten_eq_nil_iff.1 hflat _ hmem] at hof
  by_contra hfit
  simp [hfit] at hof

/-- What may follow the arguments for single parameters: one array, or elements. -/
theorem varargsArguments_eq_nil {site : Site} {types : Node → Ty} {last : Ty}
    {args : List Node} (htypes : ∀ e ∈ args, site.typeOf e = .ok (types e))
    (h : varargsArguments site last args = .ok []) :
    (∃ arg, args = [arg] ∧ (types arg).isArray = true ∧ Ty.assignable last (types arg) = true) ∨
      last.isArray = true ∧ (∀ type ∈ args.map types, Ty.assignable last.base type = true) ∧
        ∀ type, args.map types = [type] → type.isArray = false := by
  have hgathered (h : (do gathered site (← last.elementType) args : Findings) = .ok []) :
      last.isArray = true ∧ ∀ type ∈ args.map types, Ty.assignable last.base type = true := by
    unfold Ty.elementType at h
    by_cases harray : last.isArray = true
    · rw [if_pos harray, ok_bind] at h
      exact ⟨harray, gathered_eq_nil htypes h⟩
    · rw [if_neg harray] at h
      cases h
  unfold varargsArguments at h
  split at h
  · rename_i arg
    rw [htypes arg (by simp), ok_bind] at h
    by_cases harray : (types arg).isArray = true
    · rw [if_pos harray] at h
      refine .inl ⟨arg, rfl, harray, ?_⟩
      by_contra hfit
      simp [hfit] at h
    · rw [if_neg harray] at h
      obtain ⟨hlast, hfit⟩ := hgathered h
      exact .inr ⟨hlast, hfit, by simpa using harray⟩
  · rename_i hmany
    obtain ⟨hlast, hfit⟩ := hgathered h
    refine .inr ⟨hlast, hfit, fun type hsingle => ?_⟩
    obtain ⟨arg, rfl, -⟩ := List.map_eq_singleton_iff.1 hsingle
    exact absurd rfl (hmany arg)

/-- Arguments without reports are accepted. -/
theorem accepts_of_arguments {site : Site} {m : MethodInfo} {types : Node → Ty}
    {args : List Node} (htypes : ∀ e ∈ args, site.typeOf e = .ok (types e))
    (h : arguments site m args = .ok []) : m.Accepts (args.map types) := by
  unfold arguments at h
  rw [← MethodInfo.rest?] at h
  cases hrest : m.rest? with
  | none =>
    rw [hrest] at h
    by_cases hlength : args.length = m.params.length
    · simp only [hlength, ne_eq, not_true, if_false] at h
      have hparams := fixedArguments_eq_nil htypes (Nat.le_of_eq hlength.symm) h
      rw [← hlength, List.take_length] at hparams
      exact .each hrest hparams
    · simp [hlength] at h
  | some last =>
    rw [hrest] at h
    by_cases hlength : args.length < m.params.dropLast.length
    · simp only [hlength, if_true] at h
      cases h
    simp only [hlength, if_false] at h
    obtain ⟨hfixed, hmore⟩ := append_eq_ok_nil.1 h
    have hparams := fixedArguments_eq_nil htypes (Nat.le_of_not_lt hlength) hfixed
    have hdrop := varargsArguments_eq_nil (fun e he => htypes e (List.mem_of_mem_drop he)) hmore
    rw [← List.take_append_drop m.params.dropLast.length args, List.map_append]
    rcases hdrop with ⟨arg, harg, harray, hgiven⟩ | ⟨hlast, hfit, hsingle⟩
    · rw [harg]
      exact .array hrest hparams harray hgiven
    · exact .gathered hrest hlast hparams hfit hsingle

/-- A call reaches a method of the class, the length of an array, or what is imported. -/
theorem call_of_passes (hs : s.Within decl) {receiver : Node} {args : List Node} {types : Node → Ty}
    (hreceiver : s.typeOf receiver = .ok type) (htypes : ∀ e ∈ args, s.typeOf e = .ok (types e))
    (h : Passes (s.site decl ⟨.call, ⟨[("name", .text name)]⟩, receiver :: args, p⟩)) :
    (∃ m, s.table.method? name = some m ∧ type = s.table.classType ∧ m.Accepts (args.map types)) ∨
      ((s.table.method? name).isSome → type ≠ s.table.classType) ∧
        (name = "length" ∧ args = [] ∧ type.isArray = true ∨ s.table.imports ≠ []) := by
  have hrule := h undefinedMethods (by simp [all])
  have hown : s.table.isOwnReceiver (some s.method) receiver = .ok (decide (type = s.table.classType)) :=
    s.table.isOwnReceiver_eq _ hreceiver
  simp only [undefinedMethods, hs.typeOf, hs.methodName] at hrule
  simp only [Context.site, name_eq, Node.child, List.getElem?_cons_zero, ok_bind, hreceiver,
    List.length_cons, Nat.add_eq_right, List.length_eq_zero_iff, List.tail_cons, hown] at hrule
  have hnone (himports : s.table.imports = []) (name : String) : s.table.isImported name = false := by
    simp [SymbolTable.isImported, SymbolTable.importNames, himports]
  have hparent (himports : s.table.imports = []) : s.table.superClass.any s.table.isImported = false := by
    cases s.table.superClass <;> simp [hnone himports]
  -- without imports, what reaches no method of the class is an error
  have hforeign {found : Report} {named : Except Failure String} (himports : s.table.imports = [])
      (h : (if name = "length" ∧ args = [] ∧ type.isArray = true then pure []
        else if (!type.isArray && s.table.isImported type.name) = true then pure []
        else if receiver.kind = .varRef then do
          let imported ← named
          if s.table.isImported imported = true then pure []
            else if (decide (type = s.table.classType) && s.table.superClass.any s.table.isImported) = true
              then pure [] else pure [found]
        else if (decide (type = s.table.classType) && s.table.superClass.any s.table.isImported) = true
          then pure [] else pure [found] : Findings) = .ok []) :
      name = "length" ∧ args = [] ∧ type.isArray = true := by
    by_contra hlength
    simp only [hlength, hnone himports, hparent himports, Bool.and_false, Bool.false_eq_true, if_false] at h
    split at h
    · simp only [bind_eq_ok, pure_eq_ok] at h
      obtain ⟨_, -, hnil⟩ := h
      cases hnil
    · cases h
  cases hm : s.table.method? name with
  | none =>
    rw [hm] at hrule
    exact .inr ⟨by simp, or_iff_not_imp_right.2 fun himports => hforeign (not_not.1 himports) hrule⟩
  | some m =>
    rw [hm] at hrule
    by_cases htype : type = s.table.classType
    · simp only [htype, decide_true, if_true] at hrule
      exact .inl ⟨m, rfl, htype, accepts_of_arguments (fun e he => hs.typeOf.trans (htypes e he)) hrule⟩
    · refine .inr ⟨fun _ => htype, or_iff_not_imp_right.2 fun himports => ?_⟩
      refine hforeign (not_not.1 himports) ((if_neg ?_).symm.trans hrule)
      simpa using htype

/-! ## Statements -/

theorem condition_of_passes (hs : s.Within decl) {kind : Kind} {rest : List Node}
    (hkind : kind = .ifStmt ∨ kind = .whileStmt) (he : s.typeOf e = .ok type)
    (h : Passes (s.site decl ⟨kind, {}, e :: rest, p⟩)) : Ty.assignable .boolean type = true := by
  have hrule := h typeChecks (by simp [all])
  rcases hkind with rfl | rfl
  · exact (hs.expect he).1 hrule
  · exact (hs.expect he).1 hrule

/-- A variable whose declared type is taken. -/
theorem typeOf_varRef (name : String) (p : Position) :
    s.typeOf ⟨.varRef, ⟨[("name", .text name)]⟩, [], p⟩ = .ok (s.variableType name) := rfl

theorem assigns_of_passes (hs : s.Within decl) {value : Node} {q : Position} (hvalue : Typed s value type)
    (h : Passes (s.site decl
      ⟨.assign, {}, [⟨.varRef, ⟨[("name", .text name)]⟩, [], q⟩, value], p⟩)) :
    s.Assigns (s.variableType name) value := by
  have hrule := h typeChecks (by simp [all])
  change assignRule _ = _ at hrule
  unfold assignRule at hrule
  simp only [hs.typeOf] at hrule
  simp only [Context.site, Node.child, List.getElem?_cons_zero, List.getElem?_cons_succ, ok_bind,
    typeOf_varRef, hvalue.typeOf] at hrule
  by_cases hliteral : value.kind = .arrayLiteral ∧ (s.variableType name).isArray = true
  · simp only [hliteral, decide_true, Bool.and_self, if_true] at hrule
    obtain ⟨hkind, harray⟩ := hliteral
    obtain ⟨types, htypes⟩ := hvalue.elements hkind
    exact .elementwise hvalue hkind harray htypes
      (elementRule_eq_nil hs (fun e he => (htypes e he).typeOf) hrule)
  · have hwhole : (value.kind = .arrayLiteral && (s.variableType name).isArray) = false := by
      simpa using hliteral
    refine .whole hvalue ?_
    by_contra hfit
    simp [hwhole, hfit, name_eq] at hrule

theorem arrayAssign_of_passes (hs : s.Within decl) {index value : Node} {indexType valueType : Ty}
    {q : Position} (hindex : s.typeOf index = .ok indexType) (hvalue : s.typeOf value = .ok valueType)
    (h : Passes (s.site decl
      ⟨.arrayAssign, {}, [⟨.varRef, ⟨[("name", .text name)]⟩, [], q⟩, index, value], p⟩)) :
    (s.variableType name = .any ∨ (s.variableType name).isArray = true) ∧
      Ty.assignable .int indexType = true ∧ ((s.variableType name).isArray = true →
        Ty.assignable (s.variableType name).base valueType = true) := by
  have hrule := h typeChecks (by simp [all])
  obtain ⟨found, hfound, hiff⟩ := arrayRule_eq hs (typeOf_varRef name q)
    ⟨.arrayAssign, {}, [⟨.varRef, ⟨[("name", .text name)]⟩, [], q⟩, index, value], p⟩ "Indexed assignment"
  have hassign : arrayAssignRule (s.site decl ⟨.arrayAssign, {},
      [⟨.varRef, ⟨[("name", .text name)]⟩, [], q⟩, index, value], p⟩) = .ok [] := hrule
  unfold arrayAssignRule at hassign
  simp only [Context.site] at hassign hfound
  rw [hfound, ok_bind] at hassign
  by_cases harray : (s.variableType name).isArray = true
  · simp only [harray, if_true, bind_eq_ok, pure_eq_ok, List.append_eq_nil_iff] at hassign
    obtain ⟨reports, hint, more, hfit, ⟨hnil, rfl⟩, rfl⟩ := hassign
    exact ⟨.inr harray, (hs.expect hindex).1 hint, fun _ => (hs.expect hvalue).1 hfit⟩
  · simp only [harray, Bool.false_eq_true, if_false, bind_eq_ok, pure_eq_ok, List.append_eq_nil_iff] at hassign
    obtain ⟨reports, hint, hnil, rfl⟩ := hassign
    exact ⟨hiff.1 hnil, (hs.expect hindex).1 hint, fun h => absurd h harray⟩

theorem return_of_passes (hs : s.Within decl) {children : List Node} {returnType : Ty}
    {written : Node} (hwritten : decl.returnType = .ok written) (hreturn : Ty.ofNode written = .ok returnType)
    (h : Passes (s.site decl ⟨.returnStmt, {}, children, p⟩)) :
    children = [] ∧ returnType = .void ∨ ∃ value rest type, children = value :: rest ∧
      returnType ≠ .void ∧ s.typeOf value = .ok type ∧ s.table.compatible returnType type = true := by
  have hrule := h controlFlow (by simp [all])
  change returnRule (s.site decl _) = _ at hrule
  unfold returnRule at hrule
  simp only [hs.typeOf] at hrule
  simp only [Context.site, bind_eq_ok, hwritten, Except.ok.injEq, exists_eq_left', hreturn] at hrule
  obtain ⟨declared, -, hrule⟩ := hrule
  by_cases hvoid : returnType = .void
  · simp only [hvoid, if_true, pure_eq_ok] at hrule
    cases children with
    | nil => exact .inl ⟨rfl, hvoid⟩
    | cons value rest => simp at hrule
  · simp only [hvoid, if_false] at hrule
    cases children with
    | nil => simp at hrule
    | cons value rest =>
      simp only [bind_eq_ok, pure_eq_ok] at hrule
      obtain ⟨type, htype, hrule⟩ := hrule
      refine .inr ⟨value, rest, type, rfl, hvoid, htype, ?_⟩
      by_contra hfit
      simp [hfit] at hrule

end
end Check
/-- All nodes of a tree in a method pass the checks. -/
def Context.Clears (s : Context) (decl n : Node) : Prop :=
  n.Everywhere fun n => Check.Passes (s.site decl n)

namespace Node.IsExpression
variable {s : Context} {decl e : Node}

theorem kind_ne (he : e.IsExpression) : e.kind ≠ .methodDecl := by
  cases he <;> simp

/-- An expression that passes the checks is typed. -/
theorem exists_typed (he : e.IsExpression) (hs : s.Within decl) (h : s.Clears decl e) :
    ∃ type, Typed s e type := by
  have hadmits (type : Ty) : s.Admits type := fun hstrict => by simp [hs.strict] at hstrict
  induction he with
  | intLiteral value p => exact ⟨_, .intLiteral value p⟩
  | boolLiteral value p => exact ⟨_, .boolLiteral value p⟩
  | thisRef p => exact ⟨_, .thisRef (Check.not_static_of_passes hs h.here) p⟩
  | varRef hname p => exact ⟨_, .varRef (Check.names_of_passes hs h.here) p⟩
  | paren hinner p ih =>
    obtain ⟨type, htype⟩ := ih (h.child (by simp) hinner.kind_ne)
    exact ⟨type, .paren htype p⟩
  | newObject hname p => exact ⟨_, .newObject _ (by simp [hs.strict]) p⟩
  | newArray hname hsize p ih =>
    obtain ⟨type, htype⟩ := ih (h.child (by simp) hsize.kind_ne)
    have hint := Check.newArray_of_passes hs htype.typeOf h.here
    exact ⟨_, .newArray _ htype hint (by simp [hs.strict]) p⟩
  | @arrayLiteral elements helements p ih =>
    choose! types htypes using fun e he => ih e he (h.child he (helements e he).kind_ne)
    cases elements with
    | nil => exact ⟨_, .emptyLiteral p⟩
    | cons first rest =>
      have hfit := Check.arrayLiteral_of_passes hs (fun e he => (htypes e he).typeOf) h.here
      exact ⟨_, .arrayLiteral htypes hfit (fun e _ => hadmits (types e)) p⟩
  | arrayAccess harray hindex htight p iharray ihindex =>
    obtain ⟨type, htype⟩ := iharray (h.child (by simp) harray.kind_ne)
    obtain ⟨indexType, hindexType⟩ := ihindex (h.child (by simp) hindex.kind_ne)
    obtain ⟨hbase, hint⟩ := Check.arrayAccess_of_passes hs htype.typeOf hindexType.typeOf h.here
    exact ⟨_, .arrayAccess htype hindexType hbase hint (by simp [hs.strict]) p⟩
  | length harray htight p ih =>
    obtain ⟨type, htype⟩ := ih (h.child (by simp) harray.kind_ne)
    exact ⟨_, .length htype (Check.length_of_passes hs htype.typeOf h.here) p⟩
  | @call name receiver args hname hreceiver hargs htight p ih ihargs =>
    obtain ⟨type, htype⟩ := ih (h.child (by simp) hreceiver.kind_ne)
    choose! types htypes using fun e he => ihargs e he (h.child (by simp [he]) (hargs e he).kind_ne)
    rcases Check.call_of_passes hs htype.typeOf (fun e he => (htypes e he).typeOf) h.here with
      ⟨m, hm, rfl, haccepts⟩ | ⟨hother, hlength | himports⟩
    · exact ⟨_, .ownCall hm htype htypes haccepts p⟩
    · obtain ⟨rfl, rfl, harray⟩ := hlength
      exact ⟨_, .lengthCall htype hother harray p⟩
    · by_cases hlength : name = "length" ∧ args = [] ∧ type.isArray = true
      · obtain ⟨rfl, rfl, harray⟩ := hlength
        exact ⟨_, .lengthCall htype hother harray p⟩
      · refine ⟨_, .foreignCall htype hother ?_ himports htypes (fun e _ => hadmits (types e)) p⟩
        intro hname hargs
        simpa [hname, hargs] using hlength
  | unary hoperand htight p ih =>
    obtain ⟨type, htype⟩ := ih (h.child (by simp) hoperand.kind_ne)
    exact ⟨_, .unary htype (Check.unary_of_passes hs htype.typeOf h.here) p⟩
  | binary hop hleft hright hleftTight hrightTight p ihleft ihright =>
    obtain ⟨o, ho⟩ := Option.isSome_iff_exists.1 hop
    obtain ⟨leftType, hleftType⟩ := ihleft (h.child (by simp) hleft.kind_ne)
    obtain ⟨rightType, hrightType⟩ := ihright (h.child (by simp) hright.kind_ne)
    obtain ⟨halike, hwanted⟩ :=
      Check.binary_of_passes hs ho hleftType.typeOf hrightType.typeOf h.here
    exact ⟨_, .binary ho hleftType hrightType halike hwanted ⟨hadmits _, hadmits _⟩ p⟩

end Node.IsExpression
namespace Node.IsStatement
variable {s : Context} {decl n written : Node} {returnType : Ty}

theorem kind_ne (hn : n.IsStatement) : n.kind ≠ .methodDecl := by
  cases hn with
  | simple hn => cases hn <;> simp
  | _ => simp

/-- A statement that passes the checks fits. -/
theorem fits (hn : n.IsStatement) (hs : s.Within decl) (hwritten : decl.returnType = .ok written)
    (hreturn : Ty.ofNode written = .ok returnType) (h : s.Clears decl n) : Fits s returnType n := by
  have typed {e : Node} {n : Node} (he : e.IsExpression) (hn : s.Clears decl n) (hmem : e ∈ n.children) :
      ∃ type, Typed s e type := he.exists_typed hs (hn.child hmem he.kind_ne)
  induction hn with
  | simple hn =>
    cases hn with
    | @assign name value hname hvalue p q =>
      obtain ⟨type, htype⟩ := typed hvalue h (by simp)
      have hnames := Check.names_of_passes hs (h.child List.mem_cons_self (by simp)).here
      exact .assign hnames (Check.assigns_of_passes hs htype h.here) p q
    | @arrayAssign name index value hname hindex hvalue p q =>
      obtain ⟨indexType, hindexType⟩ := typed hindex h (by simp)
      obtain ⟨valueType, hvalueType⟩ := typed hvalue h (by simp)
      obtain ⟨htype, hint, hfit⟩ :=
        Check.arrayAssign_of_passes hs hindexType.typeOf hvalueType.typeOf h.here
      have hnames := Check.names_of_passes hs (h.child (List.mem_cons_self) (by simp)).here
      exact .arrayAssign hnames hindexType hvalueType htype hint hfit p q
    | exprStmt he p =>
      obtain ⟨type, htype⟩ := typed he h (by simp)
      exact .exprStmt htype p
    | returnNothing p =>
      rcases Check.return_of_passes hs hwritten hreturn h.here with ⟨-, hvoid⟩ | ⟨value, rest, type, heq, -⟩
      · exact .returnNothing hvoid p
      · cases heq
    | returnValue hvalue p =>
      rcases Check.return_of_passes hs hwritten hreturn h.here with
        ⟨hnil, -⟩ | ⟨value, rest, type, heq, hvoid, htype, hfit⟩
      · cases hnil
      · cases heq
        obtain ⟨type', htype'⟩ := typed hvalue h (by simp)
        obtain rfl : type' = type := Except.ok.inj (htype'.typeOf.symm.trans htype)
        exact .returnValue htype' hvoid hfit p
  | block hns p ih => exact .block (fun n hn => ih n hn (h.child hn (hns n hn).kind_ne)) p
  | ifThen hc ht p ih =>
    obtain ⟨type, htype⟩ := typed hc h (by simp)
    have hboolean := Check.condition_of_passes hs (.inl rfl) htype.typeOf h.here
    exact .ifThen htype hboolean (ih (h.child (by simp) ht.kind_ne)) p
  | ifElse hc ht he p iht ihe =>
    obtain ⟨type, htype⟩ := typed hc h (by simp)
    have hboolean := Check.condition_of_passes hs (.inl rfl) htype.typeOf h.here
    exact .ifElse htype hboolean (iht (h.child (by simp) ht.kind_ne)) (ihe (h.child (by simp) he.kind_ne)) p
  | whileLoop hc hb p ih =>
    obtain ⟨type, htype⟩ := typed hc h (by simp)
    have hboolean := Check.condition_of_passes hs (.inr rfl) htype.typeOf h.here
    exact .whileLoop htype hboolean (ih (h.child (by simp) hb.kind_ne)) p

end Node.IsStatement
end JmmCompiler

import JmmCompiler.Proofs.Evaluation
import JmmCompiler.Proofs.Typed
/-! How a call of a method passes its arguments: one for each parameter, or the last ones gathered in an array for
the parameter that takes any number of them. Calls are rewritten and evaluated in the same way here. -/
namespace JmmCompiler

namespace MethodInfo

/-- Arguments of given types are passed as a method wants them. -/
inductive Passes (m : MethodInfo) (types : List Ty) : Option (Nat × String) → Prop
  | each (hparams : Takes m.params types) : Passes m types none
  | gathered {last : Symbol} (hrest : m.rest? = some last) (hlast : last.type.isArray = true)
      (hparams : Takes m.params.dropLast (types.take (m.params.length - 1)))
      (hmore : ∀ type ∈ types.drop (m.params.length - 1), Ty.assignable last.type.base type = true) :
      Passes m types (some (m.params.length - 1, last.type.name))

variable {m : MethodInfo} {last : Symbol}

theorem getLast?_of_rest (h : m.rest? = some last) : m.params.getLast? = some last := by
  unfold rest? at h
  split at h
  · exact h
  · cases h

theorem params_of_rest (h : m.rest? = some last) : m.params.dropLast ++ [last] = m.params :=
  List.dropLast_append_getLast? last (getLast?_of_rest h)

end MethodInfo

namespace SymbolTable
variable {t : SymbolTable} {method : Option String} {attributes : Assoc Attribute} {p : Position} {receiver n n' : Node}
  {args cs : List Node} {m : MethodInfo} {last : Symbol} {types : Node → Ty} {type : Ty} {name : String}

/-! ## Calls -/

variable (t method attributes p) in
/-- A call of a method of the class. -/
structure CallsOwn (receiver : Node) (m : MethodInfo) : Prop where
  found : ∃ name, Node.name ⟨.call, attributes, [], p⟩ = .ok name ∧ t.method? name = some m
  own : t.isOwnReceiver method receiver = .ok true

variable (t method attributes p) in
/-- A call of what is no method of the class. -/
def CallsOther (receiver : Node) : Prop :=
  ∃ name, Node.name ⟨.call, attributes, [], p⟩ = .ok name ∧
    ∀ m, t.method? name = some m → t.isOwnReceiver method receiver = .ok false

theorem callsOther_of_typeOf (hname : Node.name ⟨.call, attributes, [], p⟩ = .ok name)
    (htype : t.typeOf method receiver = .ok type) (hother : (t.method? name).isSome → type ≠ t.classType) :
    t.CallsOther method attributes p receiver := by
  refine ⟨name, hname, fun m hm => ?_⟩
  rw [t.isOwnReceiver_eq method htype, decide_eq_false (hother (by simp [hm]))]

/-- A call that is normalized has a receiver. -/
theorem callsOwn_or_callsOther (h : t.normalizeCall method ⟨.call, attributes, cs, p⟩ = .ok n') :
    ∃ receiver args, cs = receiver :: args ∧
      ((∃ m, t.CallsOwn method attributes p receiver m) ∨ t.CallsOther method attributes p receiver) := by
  unfold normalizeCall at h
  simp only [bind_eq_ok] at h
  obtain ⟨name, hname, receiver, hreceiver, h⟩ := h
  obtain ⟨args, rfl⟩ : ∃ args, cs = receiver :: args := by
    cases cs with
    | nil => cases hreceiver
    | cons c cs => exact ⟨cs, by rw [Except.ok.inj hreceiver]⟩
  refine ⟨receiver, args, rfl, ?_⟩
  cases hm : t.method? name with
  | none => exact .inr ⟨name, hname, by simp [hm]⟩
  | some m =>
    rw [hm] at h
    simp only [bind_eq_ok] at h
    obtain ⟨own, hown, h⟩ := h
    cases own with
    | false => exact .inr ⟨name, hname, fun _ _ => hown⟩
    | true => exact .inl ⟨m, ⟨name, hname, hm⟩, hown⟩

/-- A call of another class stays as it is. -/
theorem normalizeCall_other (h : t.CallsOther method attributes p receiver) :
    t.normalizeCall method ⟨.call, attributes, receiver :: args, p⟩ = .ok ⟨.call, attributes, receiver :: args, p⟩ := by
  obtain ⟨name, hname, hother⟩ := h
  have hname : Node.name ⟨.call, attributes, receiver :: args, p⟩ = .ok name := hname
  have hchild : Node.child ⟨.call, attributes, receiver :: args, p⟩ 0 = .ok receiver := rfl
  unfold normalizeCall
  simp only [hname, hchild, ok_bind]
  cases hm : t.method? name with
  | none => rfl
  | some m =>
    simp only [hother m hm, ok_bind, Bool.not_false, if_true]
    rfl

theorem packing?_other {method : String} (h : t.CallsOther (some method) attributes p receiver) :
    t.packing? method ⟨.call, attributes, receiver :: args, p⟩ = .ok none := by
  obtain ⟨name, hname, hother⟩ := h
  have hname : Node.name ⟨.call, attributes, receiver :: args, p⟩ = .ok name := hname
  have hchild : Node.child ⟨.call, attributes, receiver :: args, p⟩ 0 = .ok receiver := rfl
  unfold packing?
  simp only [hname, hchild, ok_bind]
  cases hm : t.method? name with
  | none => rfl
  | some m =>
    simp only [hother m hm, ok_bind, Bool.not_false, if_true]
    rfl

/-! ## Gathering -/

variable (t method) in
/-- Whether arguments may be passed as they are to a parameter that takes any number of them. -/
def isRest (args : List Node) : Except Failure Bool :=
  match args with
  | [arg] => if arg.kind = .arrayLiteral then return true else return (← t.typeOf method arg).isArray
  | _ => return false

variable (t method) in
/-- The parameter of a method for which the last arguments are gathered, if they are. -/
def gathers? (m : MethodInfo) (args : List Node) : Except Failure (Option Symbol) :=
  match m.rest? with
  | none => return none
  | some last =>
    if args.length < m.params.length - 1 then return none
    else return if ← t.isRest method (args.drop (m.params.length - 1)) then none else some last

variable (attributes p) in
/-- A call with its last arguments gathered in an array of the type of the last parameter. -/
def gatheredCall (receiver : Node) (args : List Node) (m : MethodInfo) (last : Symbol) : Node :=
  ⟨.call, attributes, receiver :: (args.take (m.params.length - 1) ++
    [⟨.arrayLiteral, ⟨[("element_type", .text last.type.name)]⟩, args.drop (m.params.length - 1), p⟩]), p⟩

/-- What becomes of a call of a method of the class. -/
theorem normalizeCall_own (h : t.CallsOwn method attributes p receiver m) :
    t.normalizeCall method ⟨.call, attributes, receiver :: args, p⟩ = do
      return (← t.gathers? method m args).elim ⟨.call, attributes, receiver :: args, p⟩
        (gatheredCall attributes p receiver args m) := by
  obtain ⟨⟨name, hname, hm⟩, hown⟩ := h
  have hname : Node.name ⟨.call, attributes, receiver :: args, p⟩ = .ok name := hname
  have hchild : Node.child ⟨.call, attributes, receiver :: args, p⟩ 0 = .ok receiver := rfl
  unfold normalizeCall gathers?
  simp only [hname, hchild, ok_bind, hm, hown, Bool.not_true, Bool.false_eq_true, if_false, List.tail_cons]
  rw [← MethodInfo.rest?]
  cases m.rest? with
  | none => rfl
  | some last =>
    dsimp only
    by_cases hlength : args.length < m.params.length - 1
    · simp only [hlength, if_true]
      rfl
    simp only [hlength, if_false]
    rcases hrest : args.drop (m.params.length - 1) with _ | ⟨arg, _ | ⟨next, more⟩⟩
    · simp [isRest, gatheredCall, hrest, Node.withChildren]
    · by_cases hkind : arg.kind = .arrayLiteral
      · simp [isRest, hkind]
      · simp only [isRest, hkind, if_false, bind_assoc, pure_bind]
        refine congrArg _ (funext fun type => ?_)
        cases type.isArray <;> simp [gatheredCall, hrest, Node.withChildren]
    · simp [isRest, gatheredCall, hrest, Node.withChildren]

/-- How a call of a method of the class is evaluated. -/
theorem packing?_own {method : String} (h : t.CallsOwn (some method) attributes p receiver m) :
    t.packing? method ⟨.call, attributes, receiver :: args, p⟩ = do
      return (← t.gathers? (some method) m args).map fun last => (m.params.length - 1, last.type.name) := by
  obtain ⟨⟨name, hname, hm⟩, hown⟩ := h
  have hname : Node.name ⟨.call, attributes, receiver :: args, p⟩ = .ok name := hname
  have hchild : Node.child ⟨.call, attributes, receiver :: args, p⟩ 0 = .ok receiver := rfl
  unfold packing? gathers?
  simp only [hname, hchild, ok_bind, hm, hown, Bool.not_true, Bool.false_eq_true, if_false, List.tail_cons]
  rw [← MethodInfo.rest?]
  cases m.rest? with
  | none => rfl
  | some last =>
    dsimp only
    by_cases hlength : args.length < m.params.length - 1
    · simp only [hlength, if_true]
      rfl
    simp only [hlength, if_false]
    rcases hrest : args.drop (m.params.length - 1) with _ | ⟨arg, _ | ⟨next, more⟩⟩
    · rfl
    · by_cases hkind : arg.kind = .arrayLiteral
      · simp only [isRest, hkind, if_true]
        rfl
      · simp only [isRest, hkind, if_false, bind_assoc, pure_bind]
        refine congrArg _ (funext fun type => ?_)
        cases type.isArray <;> rfl
    · rfl

theorem eq_of_gathers (h : t.gathers? method m args = .ok (some last)) :
    m.rest? = some last ∧ m.params.length - 1 ≤ args.length := by
  unfold gathers? at h
  cases hrest : m.rest? with
  | none =>
    rw [hrest] at h
    cases h
  | some last' =>
    rw [hrest] at h
    dsimp only at h
    split at h
    · cases h
    · rename_i hlength
      simp only [bind_eq_ok, pure_eq_ok] at h
      obtain ⟨kept, -, h⟩ := h
      cases kept with
      | true => cases h
      | false => exact ⟨h, Nat.le_of_not_lt hlength⟩

/-- An array literal is an array. -/
theorem isArray_of_literal (hkind : n.kind = .arrayLiteral) (h : t.typeOf method n = .ok type) : type.isArray = true := by
  obtain ⟨kind, attributes, cs, p⟩ := n
  obtain rfl : kind = .arrayLiteral := hkind
  have helement {x : Except Failure String} (h : (do return ⟨← x, true⟩ : Except Failure Ty) = .ok type) :
      type.isArray = true := by
    simp only [bind_eq_ok, pure_eq_ok] at h
    obtain ⟨name, -, rfl⟩ := h
    rfl
  have hfirst {x : Except Failure Ty} (h : (do return (← x).arrayOf : Except Failure Ty) = .ok type) :
      type.isArray = true := by
    simp only [bind_eq_ok, pure_eq_ok] at h
    obtain ⟨first, -, rfl⟩ := h
    rfl
  rw [typeOf.eq_def] at h
  dsimp only at h
  split at h
  · cases cs with
    | nil => exact Except.ok.inj h ▸ rfl
    | cons c cs => exact hfirst h
  · cases cs with
    | nil => exact Except.ok.inj h ▸ rfl
    | cons c cs => exact hfirst h
  · exact helement h

/-- How a method is given arguments that it accepts: as they are, or the last ones in an array. -/
inductive Regroups (m : MethodInfo) (types : Node → Ty) : List Node → Option Symbol → Prop
  | kept {args : List Node} (htakes : MethodInfo.Takes m.params (args.map types))
      (hlast : m.rest?.isSome → ∀ e ∈ args.getLast?, (types e).isArray = true) : Regroups m types args none
  | gathered {last : Symbol} {before after : List Node} (hrest : m.rest? = some last) (hlast : last.type.isArray = true)
      (hlength : before.length = m.params.length - 1) (hparams : MethodInfo.Takes m.params.dropLast (before.map types))
      (hmore : ∀ e ∈ after, Ty.assignable last.type.base (types e) = true) :
      Regroups m types (before ++ after) (some last)

/-- Arguments that are accepted are gathered as the method takes them. -/
theorem exists_gathers (htypes : ∀ e ∈ args, t.typeOf method e = .ok (types e)) (haccepts : m.Accepts (args.map types)) :
    ∃ gathered, t.gathers? method m args = .ok gathered ∧ Regroups m types args gathered := by
  unfold gathers?
  generalize hgiven : args.map types = given at haccepts
  cases haccepts with
  | each hrest hparams =>
    rw [hrest]
    exact ⟨none, rfl, .kept (hgiven ▸ hparams) (by simp [hrest])⟩
  | @array last fixed type hrest hparams harray htype =>
    obtain ⟨before, after, rfl, rfl, hafter⟩ := List.map_eq_append_iff.1 hgiven
    obtain ⟨arg, rfl, rfl⟩ := List.map_eq_singleton_iff.1 hafter
    have hlength : before.length = m.params.length - 1 := by simpa using hparams.length_eq.symm
    have hisRest : t.isRest method [arg] = .ok true := by
      simp only [isRest, htypes arg (by simp), ok_bind, harray]
      exact ite_self _
    have hlong : ¬(before ++ [arg]).length < m.params.length - 1 := by simp [hlength]
    refine ⟨none, ?_, .kept ?_ (by simpa using fun _ => harray)⟩
    · simp only [hrest, hlong, if_false, List.drop_left' hlength, hisRest, ok_bind]
      rfl
    · rw [← MethodInfo.params_of_rest hrest, List.map_append]
      exact List.rel_append hparams (.cons htype .nil)
  | @gathered last fixed more hrest hlast hparams hmore hsingle =>
    obtain ⟨before, after, rfl, rfl, rfl⟩ := List.map_eq_append_iff.1 hgiven
    have hlength : before.length = m.params.length - 1 := by simpa using hparams.length_eq.symm
    have hisRest : t.isRest method after = .ok false := by
      unfold isRest
      split
      · rename_i arg
        have harray : (types arg).isArray = false := hsingle _ rfl
        have hliteral : arg.kind ≠ .arrayLiteral := fun hkind => by
          rw [isArray_of_literal hkind (htypes arg (by simp))] at harray
          cases harray
        rw [if_neg hliteral, htypes arg (by simp), ok_bind, harray]
        rfl
      · rfl
    have hlong : ¬(before ++ after).length < m.params.length - 1 := by simp [hlength]
    refine ⟨some last, ?_, .gathered hrest hlast hlength hparams fun e he => hmore _ (List.mem_map_of_mem he)⟩
    simp only [hrest, hlong, if_false, List.drop_left' hlength, hisRest, ok_bind]
    rfl

/-- A call stays as it is, or its last arguments are gathered. -/
theorem normalizeCall_cases (h : t.normalizeCall method ⟨.call, attributes, cs, p⟩ = .ok n') :
    n' = ⟨.call, attributes, cs, p⟩ ∨ ∃ receiver args m last, cs = receiver :: args ∧
      t.CallsOwn method attributes p receiver m ∧ m.rest? = some last ∧ m.params.length - 1 ≤ args.length ∧
      n' = gatheredCall attributes p receiver args m last := by
  obtain ⟨receiver, args, rfl, ⟨m, hown⟩ | hother⟩ := callsOwn_or_callsOther h
  · rw [normalizeCall_own hown] at h
    simp only [bind_eq_ok, pure_eq_ok] at h
    obtain ⟨gathered, hgathered, rfl⟩ := h
    cases gathered with
    | none => exact .inl rfl
    | some last =>
      obtain ⟨hrest, hlength⟩ := eq_of_gathers hgathered
      exact .inr ⟨receiver, args, m, last, rfl, hown, hrest, hlength, rfl⟩
  · rw [normalizeCall_other hother] at h
    exact .inl (Except.ok.inj h).symm

/-- A call with gathered arguments is normal. -/
theorem normalizeCall_gatheredCall (h : t.CallsOwn method attributes p receiver m)
    (hlength : m.params.length - 1 ≤ args.length) :
    t.normalizeCall method (gatheredCall attributes p receiver args m last) =
      .ok (gatheredCall attributes p receiver args m last) := by
  have htake : (args.take (m.params.length - 1)).length = m.params.length - 1 := List.length_take_of_le hlength
  rw [gatheredCall, normalizeCall_own h, gathers?]
  cases m.rest? with
  | none => rfl
  | some last' =>
    dsimp only
    rw [List.drop_left' htake]
    split
    · rfl
    · rfl

end SymbolTable

theorem Typed.isArray_of_literal {s : Context} {e : Node} {type : Ty} (h : Typed s e type) (hkind : e.kind = .arrayLiteral) :
    type.isArray = true := SymbolTable.isArray_of_literal hkind h.typeOf

namespace Context
variable {s : Context} {name : String} {m : MethodInfo} {receiver : Node} {args : List Node} {types : Node → Ty}
  {p : Position}

/-- A call of a method of the class passes its arguments as the method wants them. -/
theorem exists_packing (hm : s.table.method? name = some m)
    (hreceiver : s.typeOf receiver = .ok s.table.classType) (hargs : ∀ e ∈ args, Typed s e (types e))
    (haccepts : m.Accepts (args.map types)) :
    ∃ packing,
      s.table.packing? s.method ⟨.call, ⟨[("name", .text name)]⟩, receiver :: args, p⟩ = .ok packing ∧
        m.Passes (args.map types) packing := by
  have hown : s.table.CallsOwn (some s.method) ⟨[("name", .text name)]⟩ p receiver m :=
    ⟨⟨name, rfl, hm⟩, by rw [s.table.isOwnReceiver_eq _ hreceiver, decide_eq_true rfl]⟩
  obtain ⟨gathered, hgathered, hregroups⟩ := SymbolTable.exists_gathers (fun e he => (hargs e he).typeOf) haccepts
  rw [SymbolTable.packing?_own hown, hgathered, ok_bind]
  refine ⟨_, rfl, ?_⟩
  cases hregroups with
  | kept htakes hlast => exact .each htakes
  | gathered hrest hlast hlength hparams hmore =>
    refine .gathered hrest hlast ?_ ?_
    · simpa [← hlength] using hparams
    · simpa [← hlength] using hmore

end Context
end JmmCompiler

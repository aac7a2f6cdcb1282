import JmmCompiler.Proofs.CallStack
import JmmCompiler.Proofs.LoweredBody
import JmmCompiler.Proofs.StaticMethods
/-! A method that is called: `this` and the arguments are in the slots of `this` and of the parameters, and the code goes on
as the body of the method does. -/
namespace JmmCompiler

/-! ## Slots -/

namespace CodeMethod
variable {s : Slots} {x : String} {n : Int}

/-- What is given a slot when others have one already comes behind them. -/
theorem size_le_of_foldl_addSlot {names : List String} (hnew : s.find? x = none)
    (h : (names.foldl addSlot s).find? x = some n) : (s.size : Int) ≤ n := by
  induction names generalizing s with
  | nil => simp [hnew] at h
  | cons y ys ih =>
    rw [List.foldl_cons] at h
    unfold addSlot at h
    split at h
    · exact ih hnew h
    · rename_i hy
      by_cases hxy : y = x
      · subst hxy
        have hslot : (Assoc.insert s y (s.size : Int)).find? y = some (s.size : Int) := by rw [Assoc.find?_insert, if_pos rfl]
        exact (Option.some.inj ((find?_foldl_addSlot hslot).symm.trans h)).le
      · have hsize : (Assoc.insert s y (s.size : Int)).size = s.size + 1 := Assoc.size_insert (Assoc.not_contains_iff.1 hy)
        have hle := ih (s := Assoc.insert s y (s.size : Int)) (by rwa [Assoc.find?_insert, if_neg hxy]) h
        omega

/-- Parameters have slots in their order, behind those that there are. -/
theorem exists_slot_of_param {params : List Symbol} {front args : List Value} (hfront : front.length = s.size)
    (hnew : ∀ p ∈ params, s.find? p.name = none) (hnodup : (params.map (·.name)).Nodup)
    (hargs : args.length = params.length) (hx : x ∈ params.map (·.name)) : ∃ (k : Nat) (v : Value),
      (params.foldl (fun slots p => slots.insert p.name slots.size) s : Slots).find? x = some (k : Int) ∧
        (front ++ args)[k]? = some v ∧ ((params.zip args).find? (·.1.name = x)).map (·.2) = some v := by
  induction params generalizing s front args with
  | nil => cases hx
  | cons p ps ih =>
    obtain ⟨v, vs, rfl⟩ := List.exists_cons_of_length_eq_add_one hargs
    obtain ⟨hp, hps⟩ := List.nodup_cons.1 hnodup
    obtain ⟨hpnew, hpsnew⟩ := List.forall_mem_cons.1 hnew
    by_cases hpx : p.name = x
    · subst hpx
      refine ⟨s.size, v, ?_, ?_, by simp⟩
      · rw [List.foldl_cons, find?_foldl_insert_of_notMem hp, Assoc.find?_insert, if_pos rfl]
      · simp [← hfront]
    · have hx : x ∈ ps.map (·.name) := (List.mem_cons.1 hx).resolve_left (Ne.symm hpx)
      have hsize : (Assoc.insert s p.name (s.size : Int)).size = s.size + 1 := Assoc.size_insert hpnew
      have hrest (q : Symbol) (hq : q ∈ ps) : (Assoc.insert s p.name (s.size : Int)).find? q.name = none := by
        rw [Assoc.find?_insert, if_neg fun heq : p.name = q.name => hp (List.mem_map.2 ⟨q, hq, heq.symm⟩)]
        exact hpsnew q hq
      have hfront : (front ++ [v]).length = (Assoc.insert s p.name (s.size : Int)).size := by simp [hfront, hsize]
      have hargs : vs.length = ps.length := Nat.succ.inj hargs
      obtain ⟨k, v', hslot, hvalue, hfound⟩ := ih hfront hrest hps hargs hx
      refine ⟨k, v', hslot, by simpa using hvalue, ?_⟩
      rw [List.zip_cons_cons, List.find?_cons_of_neg (by simpa using hpx)]
      exact hfound

variable {m : CodeMethod}

theorem exists_fixedSlot_of_param {front args : List Value} (hfront : front.length = if m.isStatic then 0 else 1)
    (hnodup : (m.params.map (·.name)).Nodup) (hthis : "this" ∉ m.params.map (·.name)) (hargs : args.length = m.params.length)
    (hx : x ∈ m.params.map (·.name)) : ∃ (k : Nat) (v : Value), m.fixedSlots.find? x = some (k : Int) ∧
      (front ++ args)[k]? = some v ∧ ((m.params.zip args).find? (·.1.name = x)).map (·.2) = some v := by
  unfold fixedSlots
  refine exists_slot_of_param ?_ (fun p hp => ?_) hnodup hargs hx
  · rw [hfront]
    cases m.isStatic <;> rfl
  · have hne : "this" ≠ p.name := fun heq => hthis (List.mem_map.2 ⟨p, hp, heq.symm⟩)
    cases m.isStatic with
    | true => rfl
    | false => simp [Assoc.find?, Assoc.findEntry, hne]

/-- Where there is an object, it is in the first slot. -/
theorem fixedSlot_this (hstatic : m.isStatic = false) (hthis : "this" ∉ m.params.map (·.name)) :
    m.fixedSlots.find? "this" = some 0 := by
  unfold fixedSlots
  rw [find?_foldl_insert_of_notMem hthis, hstatic]
  rfl

/-! ## Start and end -/

variable {W : Type} {ask : Query → Act W Value}

theorem reaches_start (memory : Int → Value) (w : W) :
    (m.machine ask).Reaches 0 (.running ⟨0, memory, w⟩) (m.place 0 memory w) := by
  unfold place
  split
  · exact .refl _
  · rename_i hempty
    have hstep : (m.machine ask).Reaches 1 (.running ⟨0, memory, w⟩) (m.step (Query.setting ask).meaning ⟨0, memory, w⟩) :=
      .step _
    rw [step, List.getElem?_eq_none (Nat.le_of_not_lt hempty)] at hstep
    exact hstep.weaken (Nat.zero_le 1)

/-- Behind its instructions a method has perhaps one more, without effect, and then it is left. -/
theorem reaches_end {is : List Instruction}
    (hcode : m.code = is.filter (!isLabel ·) ∨ m.code = is.filter (!isLabel ·) ++ [.nop]) (memory : Int → Value) (w : W) :
    (m.machine ask).Reaches 0 (m.place (size is) memory w) (.halted none w) := by
  rw [size_eq_length_filter]
  generalize is.filter (!isLabel ·) = code at hcode
  have hleft {pc : Nat} (h : m.code.length ≤ pc) : m.place pc memory w = .halted none w := if_neg (Nat.not_lt.2 h)
  rcases hcode with hcode | hcode
  · rw [hleft (by rw [hcode])]
    exact .refl _
  · have hi : m.code[code.length]? = some .nop := by simp [hcode]
    have hstep : (m.machine ask).Delivers 1 (m.place code.length memory w) (runOn (pure () : Act W Unit) w) fun _ w' s =>
        s = m.place (code.length + 1) memory w' :=
      delivers_effect hi rfl rfl (pure_bind () fun _ => pure (Value.null, Exit.follow 0)).symm
    obtain ⟨s, hreaches, rfl⟩ := hstep
    have hlast : m.code.length ≤ code.length + 1 := by simp [hcode]
    rw [hleft hlast] at hreaches
    exact hreaches.weaken (Nat.zero_le 1)

end CodeMethod

theorem OwnCall.memory_slot (call : OwnCall) (k : Nat) :
    call.memory k = ((call.object?.toList ++ call.args)[k]?).getD .null := by
  simp [memory]

/-! ## Methods -/

/-- A method of a program, its declaration, and the code that becomes of it when calls are normal. -/
structure SymbolTable.HasCode (t : SymbolTable) (info : MethodInfo) (d : Node) (m : CodeMethod) : Prop where
  declares : t.Declares d info
  kind : d.kind = .methodDecl
  apart : ∀ v ∈ info.params ++ info.locals, v.name ≠ "this"
  lowered : ∃ d' ns ns', t.normalizeVarargs none d = .ok d' ∧ ns.stem = "tmp" ∧ (t.lowerMethod d').run ns = .ok (m, ns')

namespace SymbolTable.HasCode
variable {W : Type} {t : SymbolTable} {info : MethodInfo} {d : Node} {m : CodeMethod} {ask : Query → Act W Value}
  {call : OwnCall}

theorem this_notMem (h : t.HasCode info d m) : "this" ∉ (info.params ++ info.locals).map (·.name) := fun hmem => by
  obtain ⟨v, hv, heq⟩ := List.mem_map.1 hmem
  exact h.apart v hv heq

theorem mem_of_binds (h : t.HasCode info d m) {x : String} (hx : (t.binding? (some info.name) x).isSome) :
    x ∈ (info.params ++ info.locals).map (·.name) := by
  obtain ⟨v, hv⟩ := Option.isSome_iff_exists.1 hx
  obtain ⟨hmem, rfl⟩ := Node.Accepted.mem_of_binding h.declares.found hv
  exact List.mem_map_of_mem hmem

theorem unbound (h : t.HasCode info d m) : t.binding? (some info.name) "this" = none := by
  by_contra hbound
  exact h.this_notMem (h.mem_of_binds (Option.isSome_iff_ne_none.2 hbound))

/-- The statements of the method, those that are lowered, and their code. -/
theorem exists_code (h : t.HasCode info d m) : ∃ (parts : List Node) (ns ns' : Names) (is : List Instruction),
    List.Forall₂ (fun n n' => t.normalizeVarargs (some info.name) n = .ok n') d.statements parts ∧ ns.stem = "tmp" ∧
      (t.lowerSequence info.name info.returnType parts).run (ns.reserve ((info.params ++ info.locals).map (·.name))) =
        .ok (is, ns') ∧ m.Contains 0 is ∧
      (m.code = is.filter (!CodeMethod.isLabel ·) ∨ m.code = is.filter (!CodeMethod.isLabel ·) ++ [.nop]) ∧
      m.IsFor info ∧ ∃ m₀ : CodeMethod, m₀.finish = .ok m := by
  obtain ⟨d', ns, ns', hnormal, hstem, hrun⟩ := h.lowered
  obtain ⟨kind, attributes, cs, p⟩ := d
  obtain rfl : kind = .methodDecl := h.kind
  obtain ⟨below, cs', hbelow, hcs, rfl⟩ := normalizeVarargs_eq_ok.1 hnormal
  obtain rfl : some info.name = below := Except.ok.inj (h.declares.within.method.symm.trans hbelow)
  have hname : Node.name ⟨.methodDecl, attributes, cs', p⟩ = .ok info.name := h.declares.name
  obtain ⟨name, found, is, hname', hfound, his, hcode, hcontains⟩ := lowerMethod_code hrun
  obtain rfl : info.name = name := Except.ok.inj (hname.symm.trans hname')
  obtain rfl : info = found := by
    rw [SymbolTable.method, h.declares.found] at hfound
    exact Except.ok.inj hfound
  obtain ⟨_, _, _, m₀, _, _, -, -, -, -, hfinish⟩ := lowerMethod_eq_ok hrun
  refine ⟨_, ns, _, is, ?_, hstem, his, hcontains, hcode, isFor_of_lowerMethod hrun hname h.declares.found, m₀, hfinish⟩
  refine List.rel_filter (fun n n' hn => ?_) (mapM_eq_ok_iff.1 hcs)
  simp only [(kind_normalizeVarargs hn).1]

theorem isFor (h : t.HasCode info d m) : m.IsFor info := by
  obtain ⟨_, _, _, _, -, -, -, -, -, hfor, -⟩ := h.exists_code
  exact hfor

theorem params_distinct (h : t.HasCode info d m) : (m.params.map (·.name)).Nodup ∧ "this" ∉ m.params.map (·.name) := by
  have hdistinct := h.declares.distinct
  have hthis := h.this_notMem
  rw [List.map_append] at hdistinct hthis
  rw [h.isFor.params]
  exact ⟨hdistinct.of_append_left, fun hmem => hthis (List.mem_append_left _ hmem)⟩

theorem finished (h : t.HasCode info d m) : m.IsFinished := by
  obtain ⟨_, _, _, _, -, -, -, -, -, -, m₀, hfinish⟩ := h.exists_code
  refine ⟨CodeMethod.packed_of_finish hfinish h.params_distinct.1 h.params_distinct.2, fun k i hi => ?_⟩
  obtain ⟨ds, us, hds, hus, hslots⟩ := CodeMethod.mentions_of_finish hfinish hi
  exact ⟨⟨ds, hds, fun x hx => hslots x (List.mem_append_left us hx)⟩,
    ⟨us, hus, fun x hx => hslots x (List.mem_append_right ds hx)⟩⟩

variable (ask call) in
/-- The method as it runs for a call. -/
def methodRun (h : t.HasCode info d m) : MethodRun W := ⟨t.context info, m, h.finished, h.unbound, ask, call.object?⟩

/-- At its start a method has `this` and the parameters in memory, and nothing else. -/
theorem mirrors (h : t.HasCode info d m) (hcall : call.Suits info) :
    (h.methodRun ask call).Mirrors (info.store call) call.memory := by
  obtain ⟨_, _, _, _, -, -, -, -, -, hfor, m₀, hfinish⟩ := h.exists_code
  obtain ⟨hnodup, hthis⟩ := h.params_distinct
  have hself : call.object?.isSome = !info.isStatic := by rw [OwnCall.object?, Option.isSome_map, hcall.self]
  have hfront : call.object?.toList.length = if m.isStatic then 0 else 1 := by
    rw [hfor.isStatic]
    cases hstatic : info.isStatic <;> cases hobject : call.object? <;> simp [hstatic, hobject] at hself ⊢
  have hargs : call.args.length = m.params.length := by rw [hcall.args, hfor.params]
  refine ⟨rfl, fun hstatic => ?object, fun x hx v hv => ?vars⟩
  case object =>
    have hstatic : info.isStatic = false := hstatic
    obtain ⟨object, hobject⟩ : ∃ object, call.object? = some object :=
      Option.isSome_iff_exists.1 (by rw [hself, hstatic]; rfl)
    have hslot := CodeMethod.find?_fixed_of_finish hfinish (CodeMethod.fixedSlot_this (hfor.isStatic.trans hstatic) hthis)
    refine ⟨object, hobject, (CodeMethod.read_of_slot hslot _).trans ?_⟩
    simp [OwnCall.memory, hobject]
  case vars =>
    obtain ⟨n, hn⟩ : ∃ n, m.slots.find? x = some n := by
      by_contra hnone
      have hread : m.read call.memory x = none := by
        rw [CodeMethod.read, Option.eq_none_iff_forall_not_mem.2 fun n hn => hnone ⟨n, hn⟩]
        rfl
      cases hread.symm.trans hv
    obtain rfl := Option.some.inj ((CodeMethod.read_of_slot hn _).symm.trans hv)
    by_cases hparam : x ∈ m.params.map (·.name)
    · obtain ⟨k, v, hslot, hvalue, hfound⟩ := CodeMethod.exists_fixedSlot_of_param hfront hnodup hthis hargs hparam
      obtain rfl : (k : Int) = n := Option.some.inj ((CodeMethod.find?_fixed_of_finish hfinish hslot).symm.trans hn)
      rw [hfor.params] at hfound
      rw [OwnCall.memory_slot, hvalue]
      simp only [MethodInfo.store, hfound]
    · -- what is neither `this` nor a parameter has a slot behind those that are filled
      obtain ⟨-, hsize, hdomain⟩ := CodeMethod.fixedSlots_spec hnodup hthis
      obtain ⟨names, -, hslots⟩ := CodeMethod.finish_spec hfinish
      have hfree : m.fixedSlots.find? x = none := by
        by_contra hfixed
        rcases (hdomain x).1 hfixed with ⟨-, rfl⟩ | hmem
        · exact h.this_notMem (h.mem_of_binds hx)
        · exact hparam hmem
      rw [hslots] at hn
      have hle := CodeMethod.size_le_of_foldl_addSlot hfree hn
      obtain ⟨k, rfl⟩ := Int.eq_ofNat_of_zero_le (le_trans (Int.natCast_nonneg _) hle)
      have hbehind : (call.object?.toList ++ call.args).length ≤ k := by
        rw [hsize] at hle
        rw [List.length_append, hfront, hargs]
        exact Int.ofNat_le.1 hle
      have hnone : (info.params.zip call.args).find? (·.1.name = x) = none := by
        rw [List.find?_eq_none]
        intro p hp
        rw [decide_eq_true_eq]
        rintro rfl
        rw [hfor.params] at hparam
        exact hparam (List.mem_map_of_mem (List.of_mem_zip hp).1)
      rw [OwnCall.memory_slot, List.getElem?_eq_none hbehind]
      simp only [MethodInfo.store, hnone]
      rfl

/-- The names of temporaries are apart from `this` and the variables of the method. -/
theorem reserves (h : t.HasCode info d m) {ns : Names} (hstem : ns.stem = "tmp") :
    (h.methodRun ask call).Reserves (ns.reserve ((info.params ++ info.locals).map (·.name))) where
  this := Names.not_fresh_this hstem
  vars _ hx := Names.not_fresh_of_reserved (List.mem_append_right _ (h.mem_of_binds hx))

/-- The code of a method carries out the body of the method. -/
theorem advances (h : t.HasCode info d m) (hcall : call.Suits info)
    (horderly : ∀ n ∈ d.statements, n.Everywhere (t.Orderly info.name ask call.object?)) (rounds : Nat) (w : W) :
    (m.machine ask).Advances rounds (.running ⟨0, call.memory, w⟩)
      (runOn (t.execBody info.name info.returnType ask rounds d (info.store call)) w) CodeProgram.Finishes := by
  obtain ⟨parts, ns, ns', is, hparts, hstem, his, hcontains, hcode, -, -⟩ := h.exists_code
  have hperforms : List.Forall₂ ((h.methodRun ask call).Performs info.returnType rounds) d.statements parts :=
    ((List.forall₂_and_left d.statements parts).2 ⟨fun n hn => hn, hparts⟩).imp fun n n' hn =>
      MethodRun.performs_of_fits (A := h.methodRun ask call) (h.declares.fits hn.1) (horderly n hn.1) hn.2 rounds
  have hleads := (MethodRun.leaves_lowerSequence hperforms (h.reserves hstem) _ _ his).2
  have hrun := hleads (info.store call) call.memory (h.mirrors hcall) 0 w hcontains
  -- a method without code is left at once, and a last instruction without effect may follow
  have hstart : (m.machine ask).Reaches 0 (.running ⟨0, call.memory, w⟩) _ := CodeMethod.reaches_start call.memory w
  refine ((hstart.advances hrun).weaken (Nat.le_add_left rounds 0)).onward fun flow w' s hs => ?_
  cases flow with
  | returned value => exact ⟨s, .refl s, hs⟩
  | exhausted => exact ⟨s, .refl s, hs⟩
  | next store =>
    obtain ⟨memory, rfl, -⟩ := hs
    rw [Nat.zero_add]
    exact ⟨_, CodeMethod.reaches_end hcode memory w', rfl⟩

end SymbolTable.HasCode
end JmmCompiler

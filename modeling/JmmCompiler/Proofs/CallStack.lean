import JmmCompiler.Code.Program
import JmmCompiler.Proofs.InstructionPlans
import JmmCompiler.Proofs.LoweredFlow
import JmmCompiler.Proofs.OwnCalls
/-! The code of a class as a machine with a stack of calls. A call of a method of the class is carried out from its first
instruction on, while its caller waits in the middle of an instruction. -/
namespace JmmCompiler

/-- A method that waits for the answer to a call. -/
structure Caller where
  method : CodeMethod
  pc : Nat
  memory : Int → Value
  rest : Value → Plan (Value × Exit Outcome)

inductive Thread (H : Type)
  /-- A method carries out what is left of an instruction. -/
  | running (method : CodeMethod) (pc : Nat) (memory : Int → Value) (plan : Plan (Value × Exit Outcome)) (callers : List Caller)
    (w : World Query H)
  | returning (value : Option Value) (callers : List Caller) (w : World Query H)
  /-- A call to the surroundings does not return. -/
  | waiting (w : World Query H)
  | ended (outcome : Outcome) (w : World Query H)

/-- What an instruction of a method is about to do. Behind the last one a method does nothing. -/
def CodeMethod.planAt (m : CodeMethod) (pc : Nat) (memory : Int → Value) : Plan (Value × Exit Outcome) :=
  match m.code[pc]? with
  | some i => .ofInstruction (m.read memory) i
  | none => return (.null, .follow 0)

theorem CodeMethod.step_eq {W : Type} {m : CodeMethod} {ask : Query → Act W Value} {c : MachineState Value W}
    {i : Instruction} (hi : m.code[c.pc]? = some i) : m.step (Query.setting ask).meaning c =
      match runOn ((Query.setting ask).act (m.read c.memory) i) c.heap with
      | (.ok r, w) => m.after c.pc c.memory r w
      | (.error trap, w) => .halted (some (.trapped trap)) w := by
  simp only [step, hi, Setting.meaning]
  rcases runOn ((Query.setting ask).act (m.read c.memory) i) c.heap with ⟨trap | ⟨v, choice | outcome⟩, w⟩
  · rfl
  · simp only [Setting.effect, after, follow]
    cases m.successors c.pc <;> rfl
  · rfl

namespace Thread
variable {H : Type}

def stopped : Trap → World Query H → Thread H
  | .hang, w => waiting w
  | trap, w => ended (.trapped trap) w

/-- A method of the class in the state of a machine for the method alone. -/
def of (m : CodeMethod) (callers : List Caller) : Status Value (World Query H) Outcome → Thread H
  | .running c => running m c.pc c.memory (m.planAt c.pc c.memory) callers c.heap
  | .halted none w => returning none callers w
  | .halted (some (.returned value)) w => returning value callers w
  | .halted (some (.trapped trap)) w => stopped trap w

def world : Thread H → World Query H
  | running _ _ _ _ _ w | returning _ _ w | waiting w | ended _ w => w

/-- Whether a thread has not ended, in a world. -/
def GoesOn (w : World Query H) : Thread H → Prop
  | running _ _ _ _ _ w' | returning _ _ w' | waiting w' => w' = w
  | ended .. => False

theorem GoesOn.world {w : World Query H} {s : Thread H} (h : s.GoesOn w) : s.world = w := by
  cases s with
  | ended => exact h.elim
  | _ => exact h

@[simp] theorem world_stopped (trap : Trap) (w : World Query H) : (stopped trap w).world = w := by cases trap <;> rfl

@[simp] theorem world_of_after (m : CodeMethod) (callers : List Caller) (pc : Nat) (memory : Int → Value)
    (r : Value × Exit Outcome) (w : World Query H) : (of m callers (m.after pc memory r w)).world = w := by
  obtain ⟨v, choice | ⟨value | trap⟩⟩ := r
  · simp only [CodeMethod.after, CodeMethod.follow]
    split
    · split <;> rfl
    · rfl
  · rfl
  · exact world_stopped trap w

end Thread

/-- The slots with which a method starts: `this`, if there is one, and the arguments. -/
def OwnCall.memory (call : OwnCall) (slot : Int) : Value :=
  if slot < 0 then .null else ((call.object?.toList ++ call.args)[slot.toNat]?).getD .null

namespace CodeProgram
variable {H : Type} (code : CodeProgram) (S : Surroundings H)

/-- A method of the class at its first instruction. -/
def enter (call : OwnCall) (callers : List Caller) (w : World Query H) : Thread H :=
  match code.method call.method with
  | .ok m => .of m callers (.running ⟨0, call.memory, w⟩)
  | .error _ => .ended (.trapped .fault) w

def next : Thread H → Thread H
  | .running m pc memory (.done r) callers w => .of m callers (m.after pc memory r w)
  | .running _ _ _ (.trapped trap) _ w => .stopped trap w
  | .running m pc memory (.asks query rest) callers w =>
    match S.own? query w.heap with
    | some call => code.enter call (⟨m, pc, memory, rest⟩ :: callers) (w.record query)
    | none =>
      match S.answer query w.heap with
      | (.ok value, heap) => .running m pc memory (rest value) callers { w.record query with heap }
      | (.error trap, heap) => .stopped trap { w.record query with heap }
  | .returning value (c :: callers) w => .running c.method c.pc c.memory (c.rest (value.getD .null)) callers w
  | .returning value [] w => .ended (.returned value) w
  | .waiting w => .waiting w
  | .ended outcome w => .ended outcome w

@[simp] theorem world_enter (call : OwnCall) (callers : List Caller) (w : World Query H) :
    (code.enter call callers w).world = w := by
  unfold enter
  split <;> rfl

/-- Calls are recorded behind those that were made before. -/
theorem trace_next (s : Thread H) : s.world.trace <+: (code.next S s).world.trace := by
  have hrecord (query : Query) (w : World Query H) : w.trace <+: (w.record query).trace := by
    unfold World.record
    split
    · exact List.prefix_append _ _
    · exact List.prefix_rfl
  cases s with
  | running m pc memory plan callers w =>
    change w.trace <+: _
    cases plan with
    | done r => rw [next, Thread.world_of_after]
    | trapped trap => rw [next, Thread.world_stopped]
    | asks query rest =>
      have hpart := hrecord query w
      rw [next]
      split
      · rwa [world_enter]
      · split
        · exact hpart
        · rwa [Thread.world_stopped]
  | returning value callers w => cases callers <;> exact List.prefix_rfl
  | waiting w => exact List.prefix_rfl
  | ended outcome w => exact List.prefix_rfl

theorem trace_iterate {j k : Nat} (hjk : j ≤ k) (s : Thread H) :
    ((code.next S)^[j] s).world.trace <+: ((code.next S)^[k] s).world.trace := by
  induction k, hjk using Nat.le_induction with
  | base => exact List.prefix_rfl
  | succ k _ ih =>
    rw [Function.iterate_succ_apply']
    exact ih.trans (code.trace_next S _)

/-- The code of a class as a machine. -/
def machine : Machine (Thread H) (World Query H) where
  next := code.next S
  trapped := .stopped
  next_trapped trap w := by cases trap <;> rfl

/-- The machine follows a computation: it gets to where the outcome leads, goes on for at least `n` steps if the computation
does not come to an end, and otherwise ends in the same trap. -/
def Follows {α : Type} (n : Nat) (s : Thread H) (r : Except Trap α × World Query H)
    (after : α → World Query H → Thread H) : Prop :=
  match r with
  | (.ok a, w) => (code.machine S).Reaches 1 s (after a w)
  | (.error .hang, w) => ∃ t, (code.machine S).Reaches n s t ∧ t.GoesOn w
  | (.error trap, w) => (code.machine S).Reaches 0 s (.ended (.trapped trap) w)

section
variable {code S} {α : Type} {m n : Nat} {s t : Thread H} {r : Except Trap α × World Query H}
  {after : α → World Query H → Thread H} {w : World Query H}

theorem Follows.weaken (h : code.Follows S n s r after) (hmn : m ≤ n) : code.Follows S m s r after := by
  rcases r with ⟨trap | a, w⟩
  · cases trap with
    | hang =>
      obtain ⟨t, hreaches, ht⟩ := h
      exact ⟨t, hreaches.weaken hmn, ht⟩
    | _ => exact h
  · exact h

theorem Follows.of_error {β : Type} {after' : β → World Query H → Thread H} {trap : Trap}
    (h : code.Follows S n s (.error trap, w) after) : code.Follows S n s (.error trap, w) after' := by
  cases trap <;> exact h

theorem Follows.after_reaches (h : code.Follows S n t r after) (hreaches : (code.machine S).Reaches m s t) :
    code.Follows S (m + n) s r after := by
  rcases r with ⟨trap | a, w⟩
  · cases trap with
    | hang =>
      obtain ⟨u, hu, hgoes⟩ := h
      exact ⟨u, hreaches.trans hu, hgoes⟩
    | _ => exact (hreaches.trans h).weaken (Nat.zero_le _)
  · exact (hreaches.trans h).weaken (Nat.le_add_left 1 m)

theorem next_stopped (trap : Trap) (w : World Query H) : (code.machine S).next (.stopped trap w) = .stopped trap w :=
  (code.machine S).next_trapped trap w

/-- What is stopped stays so. -/
theorem Reaches.stopped {trap : Trap} (h : (code.machine S).Reaches m s (.stopped trap w)) (n : Nat) :
    code.Follows S n s (.error trap, w) after := by
  have hlong := h.rest (next_stopped trap w) n
  cases trap with
  | hang => exact ⟨_, hlong, rfl⟩
  | _ => exact hlong.weaken (Nat.zero_le n)

/-- Where calls of the methods of the class are followed, so are plans. A plan that does not come to an end takes a step
more than the call in it. -/
theorem follows_plan {perform : OwnCall → Act (World Query H) (Option Value)} {n : Nat} {P : OwnCall → Prop}
    (hown : ∀ query heap call, S.own? query heap = some call → P call)
    (hcalls : ∀ call, P call → ∀ callers w, code.Follows S n (code.enter call callers w) (runOn (perform call) w)
      fun value w => .returning value callers w)
    (plan : Plan (Value × Exit Outcome)) (m : CodeMethod) (pc : Nat) (memory : Int → Value) (callers : List Caller)
    (w : World Query H) :
    code.Follows S (n + 1) (.running m pc memory plan callers w) (runOn (plan.act (S.ask perform)) w)
      fun r w => .of m callers (m.after pc memory r w) := by
  have hstep (s : Thread H) : (code.machine S).Reaches 1 s (code.next S s) := .step s
  induction plan generalizing w with
  | done r => exact hstep _
  | trapped trap => exact Reaches.stopped (hstep (.running m pc memory (.trapped trap) callers w)) _
  | asks query rest ih =>
    have hfirst := hstep (.running m pc memory (.asks query rest) callers w)
    simp only [Plan.act, runOn_bind]
    cases hcall : S.own? query w.heap with
    | some call =>
      simp only [next, hcall] at hfirst
      have hcallee := hcalls call (hown _ _ _ hcall) (⟨m, pc, memory, rest⟩ :: callers) (w.record query)
      replace hcallee := hcallee.after_reaches hfirst
      rw [Surroundings.runOn_ask_own hcall, runOn_bind]
      rcases hr : runOn (perform call) (w.record query) with ⟨trap | value, w'⟩
      · rw [hr] at hcallee
        exact (hcallee.weaken (Nat.add_comm n 1).le).of_error
      · rw [hr] at hcallee
        have hback := hcallee.trans (hstep (.returning value (⟨m, pc, memory, rest⟩ :: callers) w'))
        exact ((ih (value.getD .null) w').after_reaches hback).weaken (Nat.le_add_left _ _)
    | none =>
      simp only [next, hcall] at hfirst
      rw [Surroundings.runOn_ask_other hcall]
      rcases hanswer : S.answer query w.heap with ⟨trap | value, heap⟩
      · rw [hanswer] at hfirst
        exact Reaches.stopped hfirst _
      · rw [hanswer] at hfirst
        exact ((ih value _).after_reaches hfirst).weaken (Nat.le_add_left _ _)

/-! ## Methods -/

/-- A machine for a method alone has come to a state: with at least `k` steps where the method still runs, and with `n` steps
or more, from which one does not return, where the method waits for a call. -/
def Tracks (code : CodeProgram) (S : Surroundings H) (n k : Nat) (m : CodeMethod) (callers : List Caller) (s : Thread H) :
    Status Value (World Query H) Outcome → Prop
  | .running c => (code.machine S).Reaches k s (.of m callers (.running c))
  | .halted (some (.trapped .hang)) w => ∃ t, (code.machine S).Reaches n s t ∧ t.GoesOn w
  | .halted result w => (code.machine S).Reaches 1 s (.of m callers (.halted result w))

theorem tracks_of_reaches {k : Nat} {method : CodeMethod} {callers : List Caller}
    {status : Status Value (World Query H) Outcome}
    (h : (code.machine S).Reaches (k + 1) s (.of method callers status)) :
    code.Tracks S n (k + 1) method callers s status := by
  rcases status with c | ⟨_ | value | trap, w⟩
  · exact h
  · exact h.weaken (Nat.le_add_left 1 k)
  · exact h.weaken (Nat.le_add_left 1 k)
  · cases trap with
    | hang => exact ⟨_, h.rest rfl n, rfl⟩
    | _ => exact h.weaken (Nat.le_add_left 1 k)

/-- What is found at the end of more steps. -/
theorem Tracks.after_reaches {m k n : Nat} {method : CodeMethod} {callers : List Caller}
    {status : Status Value (World Query H) Outcome} (h : code.Tracks S n k method callers t status)
    (hreaches : (code.machine S).Reaches m s t) : code.Tracks S n (m + k) method callers s status := by
  rcases status with c | ⟨_ | value | trap, w⟩
  · exact hreaches.trans h
  · exact (hreaches.trans h).weaken (Nat.le_add_left 1 m)
  · exact (hreaches.trans h).weaken (Nat.le_add_left 1 m)
  · cases trap with
    | hang =>
      obtain ⟨u, hu, hgoes⟩ := h
      exact ⟨u, (hreaches.trans hu).weaken (Nat.le_add_left n m), hgoes⟩
    | _ => exact (hreaches.trans h).weaken (Nat.le_add_left 1 m)

variable {perform : OwnCall → Act (World Query H) (Option Value)} {P : OwnCall → Prop}
  (hown : ∀ query heap call, S.own? query heap = some call → P call)
  (hcalls : ∀ call, P call → ∀ callers w, code.Follows S n (code.enter call callers w) (runOn (perform call) w)
    fun value w => .returning value callers w)
  (method : CodeMethod) (callers : List Caller)
include hown hcalls

theorem tracks_step (c : MachineState Value (World Query H)) :
    code.Tracks S (n + 1) 1 method callers (.of method callers (.running c))
      (method.step (Query.setting (S.ask perform)).meaning c) := by
  cases hi : method.code[c.pc]? with
  | none =>
    have hplan : method.planAt c.pc c.memory = .done (.null, .follow 0) := by
      rw [CodeMethod.planAt, hi]
      rfl
    have hleaves : method.after c.pc c.memory (.null, .follow 0) c.heap = .halted none c.heap := by
      have hnone : method.successors c.pc = .error .malformed := by
        rw [CodeMethod.successors, hi]
        rfl
      rw [CodeMethod.after, CodeMethod.follow, hnone]
    have hstep : (code.machine S).Reaches 1 (.running method c.pc c.memory (.done (.null, .follow 0)) callers c.heap)
        (.of method callers (method.after c.pc c.memory (.null, .follow 0) c.heap)) := .step _
    rw [hleaves] at hstep
    rw [Thread.of, hplan, CodeMethod.step, hi]
    exact hstep
  | some i =>
    have hplan : method.planAt c.pc c.memory = .ofInstruction (method.read c.memory) i := by rw [CodeMethod.planAt, hi]
    have hfollows := follows_plan hown hcalls (.ofInstruction (method.read c.memory) i) method c.pc c.memory callers c.heap
    rw [Plan.act_ofInstruction] at hfollows
    rw [CodeMethod.step_eq hi, Thread.of, hplan]
    rcases hr : runOn ((Query.setting (S.ask perform)).act (method.read c.memory) i) c.heap with ⟨trap | r, w⟩
    · rw [hr] at hfollows
      cases trap with
      | hang => exact hfollows
      | _ => exact Machine.Reaches.rest hfollows rfl 1
    · rw [hr] at hfollows
      exact tracks_of_reaches hfollows

/-- Steps of a method alone are followed. -/
theorem tracks_steps (k : Nat) (c : MachineState Value (World Query H)) :
    code.Tracks S (n + 1) k method callers (.of method callers (.running c))
      ((method.next (S.ask perform))^[k] (.running c)) := by
  induction k generalizing c with
  | zero => exact .refl _
  | succ k ih =>
    rw [Function.iterate_succ_apply]
    have hfirst := tracks_step hown hcalls method callers c
    change code.Tracks S (n + 1) 1 method callers _ (method.next (S.ask perform) (.running c)) at hfirst
    cases hnext : method.next (S.ask perform) (.running c) with
    | running c' =>
      rw [hnext] at hfirst
      exact Nat.add_comm 1 k ▸ (ih c').after_reaches hfirst
    | halted result w =>
      rw [hnext] at hfirst
      rw [Function.iterate_fixed rfl]
      rcases result with _ | value | trap
      · exact hfirst
      · exact hfirst
      · cases trap <;> exact hfirst

end

/-! ## Programs -/

/-- How the machine for a method alone is left by a statement: behind the code, with a value, or on its way. -/
def Finishes {W : Type} : Flow → W → Status Value W Outcome → Prop
  | .next _, w, s => s = .halted none w
  | .returned value, w, s => s = .halted (some (.returned value)) w
  | .exhausted, w, s => ∃ c, s = .running c ∧ c.heap = w

variable {H : Type} (code : CodeProgram) (root : Node) (t : SymbolTable) (S : Surroundings H)

/-- Code that carries out the methods of a program, where the calls in them are performed. -/
structure Implements : Prop where
  own : ∀ query heap call, S.own? query heap = some call → t.Receives call
  bodies : ∀ n call, t.Receives call → ∃ m info decl, code.method call.method = .ok m ∧ t.method? call.method = some info ∧
    root.declaration? call.method = some decl ∧ ∀ w,
      (m.machine (S.ask (root.perform t S n))).Advances (n + 1) (.running ⟨0, call.memory, w⟩)
        (runOn (t.execBody info.name info.returnType (S.ask (root.perform t S n)) (n + 1) decl (info.store call)) w) Finishes

variable {code root t S}

/-- A call is followed. The induction is on the calls within each other that it may have. -/
theorem Implements.follows (h : code.Implements root t S) (n : Nat) {call : OwnCall} (hcall : t.Receives call)
    (callers : List Caller) (w : World Query H) :
    code.Follows S n (code.enter call callers w) (runOn (root.perform t S n call) w)
      fun value w => .returning value callers w := by
  induction n generalizing call callers w with
  | zero =>
    obtain ⟨m, -, -, hm, -⟩ := h.bodies 0 call hcall
    refine ⟨_, .refl _, ?_⟩
    rw [enter, hm]
    rfl
  | succ n ih =>
    obtain ⟨m, info, decl, hm, hinfo, hdecl, hbody⟩ := h.bodies n call hcall
    have htracks := tracks_steps h.own (fun call hcall callers w => ih hcall callers w) m callers
    have hrun := hbody w
    rw [enter, hm]
    simp only [Node.perform, hinfo, hdecl, runOn_bind]
    rcases hr : runOn (t.execBody info.name info.returnType (S.ask (root.perform t S n)) (n + 1) decl (info.store call)) w with
      ⟨trap | flow, w'⟩
    · rw [hr] at hrun
      obtain ⟨k, -, hk⟩ := hrun trivial
      have hend := htracks k ⟨0, call.memory, w⟩
      rw [show (m.next _)^[k] _ = _ from hk] at hend
      cases trap with
      | hang => exact hend
      | _ => exact hend.weaken (Nat.zero_le 1)
    · rw [hr] at hrun
      obtain ⟨status, ⟨k, hpace, hk⟩, hfinishes⟩ := hrun
      have hend := htracks k ⟨0, call.memory, w⟩
      rw [show (m.next _)^[k] _ = _ from hk] at hend
      cases flow with
      | next store =>
        obtain rfl := hfinishes
        exact hend
      | returned value =>
        obtain rfl := hfinishes
        exact hend
      | exhausted =>
        obtain ⟨c, rfl, rfl⟩ := hfinishes
        exact ⟨_, hend.weaken hpace, rfl⟩

/-- The machine for a class ends as a call of a method does. -/
theorem Implements.reaches_ended (h : code.Implements root t S) {call : OwnCall} (hcall : t.Receives call) {n : Nat}
    {w w' : World Query H} {result : Except Trap (Option Value)} (hrun : runOn (root.perform t S n call) w = (result, w'))
    {outcome : Outcome} (houtcome : Outcome.of? result = some outcome) :
    (code.machine S).Reaches 0 (code.enter call [] w) (.ended outcome w') := by
  have hfollows := h.follows n hcall [] w
  rw [hrun] at hfollows
  rcases result with trap | value
  · cases trap with
    | hang => cases houtcome
    | _ =>
      obtain rfl := Option.some.inj houtcome
      exact hfollows
  · obtain rfl := Option.some.inj houtcome
    exact (hfollows.trans (.step (Thread.returning value [] w'))).weaken (Nat.zero_le _)

/-- The machine for a class goes on as long as a call of a method does, with the same calls on its way. -/
theorem Implements.goesOn (h : code.Implements root t S) {call : OwnCall} (hcall : t.Receives call) {n : Nat}
    {w w' : World Query H} {result : Except Trap (Option Value)} (hrun : runOn (root.perform t S n call) w = (result, w'))
    (houtcome : Outcome.of? result = none) :
    ∃ s, (code.machine S).Reaches n (code.enter call [] w) s ∧ s.GoesOn w' := by
  have hfollows := h.follows n hcall [] w
  rw [hrun] at hfollows
  rcases result with trap | value
  · cases trap with
    | hang => exact hfollows
    | _ => cases houtcome
  · cases houtcome

/-- The machine for a class ends just where a call of a method does. -/
theorem Implements.ended_iff (h : code.Implements root t S) {call : OwnCall} (hcall : t.Receives call) (w : World Query H)
    (outcome : Outcome) (w' : World Query H) :
    (∃ n result, runOn (root.perform t S n call) w = (result, w') ∧ Outcome.of? result = some outcome) ↔
      ∃ k, (code.next S)^[k] (code.enter call [] w) = .ended outcome w' := by
  constructor
  · rintro ⟨n, result, hrun, houtcome⟩
    obtain ⟨k, -, hk⟩ := h.reaches_ended hcall hrun houtcome
    exact ⟨k, hk⟩
  · rintro ⟨k, hk⟩
    have hended : (code.machine S).Reaches k (code.enter call [] w) (.ended outcome w') := ⟨k, Nat.le_refl k, hk⟩
    rcases hrun : runOn (root.perform t S (k + 1) call) w with ⟨result, w₁⟩
    cases houtcome : Outcome.of? result with
    | some outcome₁ =>
      have hsame := (h.reaches_ended hcall hrun houtcome).unique hended rfl rfl
      obtain ⟨rfl, rfl⟩ := Thread.ended.inj hsame
      exact ⟨k + 1, result, hrun, houtcome⟩
    | none =>
      -- a machine that has ended does not go on
      obtain ⟨s, ⟨j, hj, hs⟩, hgoes⟩ := h.goesOn hcall hrun houtcome
      have hlate : s = .ended outcome w' := by
        rw [← hs, show j = (j - k) + k by omega, Function.iterate_add_apply, show ((code.machine S).next)^[k] _ = _ from hk]
        exact Function.iterate_fixed rfl _
      rw [hlate] at hgoes
      exact hgoes.elim

end CodeProgram
end JmmCompiler

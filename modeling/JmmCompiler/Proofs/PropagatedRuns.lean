import JmmCompiler.Proofs.ConstantRuns
import JmmCompiler.Proofs.FoldableTrees
/-! Runs of statements in which constants are propagated. Propagation follows the order of the statements, and what it knows
of the variables at a place of a method holds whenever a run comes to that place. -/
namespace JmmCompiler

namespace Flow
variable {W : Type} {P Q R : Store → Prop} {run run' other other' : Store → Act W Flow} {test test' : Store → Act W Bool}

/-- From stores with a property two statements do the same, and lead on with stores that have another property. -/
structure Agree (P Q : Store → Prop) (run run' : Store → Act W Flow) : Prop where
  same : ∀ store, P store → run' store = run store
  leads : ∀ store, P store → (run store).Yields (Leads Q)

theorem Agree.weaken (h : Agree P Q run run') (hQR : ∀ store, Q store → R store) : Agree P R run run' :=
  ⟨h.same, fun store hstore => (h.leads store hstore).imp fun _ hflow => hflow.imp hQR⟩

theorem Agree.strengthen (h : Agree P Q run run') (hRP : ∀ store, R store → P store) : Agree R Q run run' :=
  ⟨fun store hstore => h.same store (hRP store hstore), fun store hstore => h.leads store (hRP store hstore)⟩

theorem Agree.of_eq (h : Agree P Q run run') (hrun : ∀ store, other store = run store)
    (hrun' : ∀ store, other' store = run' store) :
    Agree P Q other other' := by
  obtain rfl : other = run := funext hrun
  obtain rfl : other' = run' := funext hrun'
  exact h

theorem agree_throw (trap : Trap) : Agree (W := W) P Q (fun _ => throw trap) fun _ => throw trap :=
  ⟨fun _ _ => rfl, fun _ _ => Act.yields_throw trap⟩

theorem agree_nil : Agree (W := W) P P (sequence []) (sequence []) := ⟨fun _ _ => rfl, fun _ hstore => Act.yields_pure hstore⟩

theorem Agree.cons {parts parts' : List (Store → Act W Flow)} (h : Agree P Q run run')
    (hrest : Agree Q R (sequence parts) (sequence parts')) :
    Agree P R (sequence (run :: parts)) (sequence (run' :: parts')) := by
  refine ⟨fun store hstore => ?_, fun store hstore => ?_⟩
  · rw [sequence, sequence, h.same store hstore]
    refine (h.leads store hstore).bind_congr fun flow hflow => ?_
    cases flow with
    | next store' => exact hrest.same store' hflow
    | returned value => rfl
    | exhausted => rfl
  · refine (h.leads store hstore).bind fun flow hflow => ?_
    cases flow with
    | next store' => exact hrest.leads store' hflow
    | returned value => exact Act.yields_pure trivial
    | exhausted => exact Act.yields_pure trivial

theorem Agree.branch (htest : ∀ store, P store → test' store = test store) (h : Agree P Q run run')
    (hother : Agree P Q other other') :
    Agree P Q (fun store => test store >>= fun taken => if taken then run store else other store)
      (fun store => test' store >>= fun taken => if taken then run' store else other' store) := by
  refine ⟨fun store hstore => ?_, fun store hstore => (Act.yields_true _).bind fun taken _ => ?_⟩
  · simp only [htest store hstore]
    refine (Act.yields_true _).bind_congr fun taken _ => ?_
    cases taken with
    | false => exact hother.same store hstore
    | true => exact h.same store hstore
  · cases taken with
    | false => exact hother.leads store hstore
    | true => exact h.leads store hstore

theorem Agree.loop (htest : ∀ store, P store → test' store = test store) (h : Agree P P run run') (rounds : Nat) :
    Agree P P (loop test run rounds) (loop test' run' rounds) where
  same _ hstore := loop_congr (fun store hstore => ⟨htest store hstore, h.same store hstore, h.leads store hstore⟩) rounds hstore
  leads _ hstore := yields_loop h.leads rounds hstore

end Flow

namespace SymbolTable
variable {t : SymbolTable} {method : String} {scope : List String} {b b₁ b₂ b' : Bindings} {n n' : Node} {ns : List Node}

variable (t method) in
/-- What propagation makes of a statement, and of the bindings before it. -/
structure Propagates (scope : List String) (b : Bindings) (n : Node) (n' : Node) (b' : Bindings) : Prop where
  propagated : Node.propagateStatement scope b n = .ok (n', b')
  within : b'.Within scope
  agree : ∀ (W : Type) (ask : Query → Act W Value) (rounds : Nat),
    Flow.Agree (fun store => b.Hold store) (fun store => b'.Hold store)
    (t.plainExec method ask rounds n) (t.plainExec method ask rounds n')

/-- Statements one after the other. -/
theorem exists_propagateSequence
    (h : ∀ n ∈ ns, ∀ b : Bindings, b.Within scope → ∃ n' b', t.Propagates method scope b n n' b') (hb : b.Within scope) :
    ∃ ns' b', Node.propagateSequence scope b ns = .ok (ns', b') ∧ b'.Within scope ∧
      ∀ (W : Type) (ask : Query → Act W Value) (rounds : Nat),
        Flow.Agree (fun store => b.Hold store) (fun store => b'.Hold store)
        (Flow.sequence (ns.map (t.plainExec method ask rounds))) (Flow.sequence (ns'.map (t.plainExec method ask rounds))) := by
  induction ns generalizing b with
  | nil => exact ⟨[], b, rfl, hb, fun _ _ _ => Flow.agree_nil⟩
  | cons n ns ih =>
    obtain ⟨n', b₁, hn⟩ := h n (by simp) b hb
    obtain ⟨ns', b₂, hns, hb₂, hagree⟩ := ih (fun n hn => h n (by simp [hn])) hn.within
    refine ⟨n' :: ns', b₂, ?_, hb₂, fun W ask rounds => (hn.agree W ask rounds).cons (hagree W ask rounds)⟩
    simp only [Node.propagateSequence, hn.propagated, ok_bind, hns]
    rfl

/-- A part of a statement with constants in the place of variables that hold them. -/
theorem exists_sameValue (hscope : ∀ name ∈ scope, (t.binding? method name).isSome = true) (hb : b.Within scope)
    (hn : n.Everywhere Node.Foldable) :
    ∃ n', n.substitute b = .ok n' ∧ ∀ (W : Type) (ask : Query → Act W Value) (store : Store), b.Hold store →
      t.SameValue method ask store n n' := by
  obtain ⟨n', hn'⟩ := Node.exists_substitute hb.literal hn
  exact ⟨n', hn', fun W ask store hstore => sameValue_substitute (fun e he => hscope _ (hb.scope e he)) hstore hn'⟩

/-- Statements that consist of expressions. -/
theorem exists_propagates_operands {kind : Kind} {attributes : Assoc Attribute} {p : Position}
    (hscope : ∀ name ∈ scope, (t.binding? method name).isSome = true) (hb : b.Within scope)
    (hkind : kind = .arrayAssign ∨ kind = .exprStmt ∨ kind = .returnStmt)
    (hn : Node.Everywhere Node.Foldable ⟨kind, attributes, ns, p⟩) :
    ∃ n' b', t.Propagates method scope b ⟨kind, attributes, ns, p⟩ n' b' := by
  obtain ⟨ns', hns', hsame⟩ := exists_forall₂ (f := Node.substitute b)
    (R := fun c c' => ∀ (W : Type) (ask : Query → Act W Value) (store : Store), b.Hold store →
      t.SameValue method ask store c c') fun c hc => exists_sameValue hscope hb (hn.foldable_child hc)
  refine ⟨⟨kind, attributes, ns', p⟩, b, ?_, hb, fun W ask rounds => ⟨fun store hstore => ?_, fun store hstore => ?_⟩⟩
  · rcases hkind with rfl | rfl | rfl <;> simp [Node.propagateStatement, Node.substitute, Node.substituteAll_eq_mapM, hns']
  · exact plainExec_operands hkind (hsame.imp fun c c' hc => hc W ask store hstore)
  · exact (yields_plainExec_operands hkind).imp fun _ hflow => hflow.imp fun _ heq => heq ▸ hstore

/-- An assignment. What it assigns to a variable of the method is known behind it if it is a constant. -/
theorem exists_propagates_assign {attributes : Assoc Attribute} {p : Position}
    (hscope : ∀ name ∈ scope, (t.binding? method name).isSome = true) (hb : b.Within scope) (target value : Node)
    (hn : Node.Everywhere Node.Foldable ⟨.assign, attributes, [target, value], p⟩) :
    ∃ n' b', t.Propagates method scope b ⟨.assign, attributes, [target, value], p⟩ n' b' := by
  have htarget := hn.foldable_child (c := target) (by simp)
  have hvalue := hn.foldable_child (c := value) (by simp)
  obtain ⟨substituted, hsubstituted, hsame⟩ := exists_sameValue hscope hb hvalue
  have hmiddle := (Node.simplified_substitute (K := AnyConstant) (fun _ _ _ _ => trivial) hsubstituted).foldable hvalue
  obtain ⟨folded, hfolded⟩ := Node.exists_fold hmiddle
  have hafter := (Node.simplified_fold (K := AnyConstant) hfolded).foldable hmiddle
  have heval (W : Type) (ask : Query → Act W Value) (store : Store) (hstore : b.Hold store) :
      t.plainEval method ask store folded = t.plainEval method ask store value :=
    (sameValue_fold hfolded).value.trans (hsame W ask store hstore).value
  by_cases hvar : target.kind = .varRef
  · obtain ⟨name, hname⟩ := htarget.here.name hvar
    have hsteps (W : Type) (ask : Query → Act W Value) (rounds : Nat) (store : Store) (value : Node) :
        t.plainExec method ask rounds ⟨.assign, attributes, [target, value], p⟩ store =
          t.plainEval method ask store value >>= fun v => t.assignVariable method ask store name v := by
      rw [plainExec_assign, if_pos hvar, hname, Act.ofExcept_ok, pure_bind]
    have hagree {b' : Bindings} (h : ∀ (W : Type) (ask : Query → Act W Value) (store : Store), b.Hold store →
        (t.plainEval method ask store folded).Yields fun v =>
          (t.assignVariable method ask store name v).Yields (Flow.Leads fun store' => b'.Hold store')) (W : Type)
        (ask : Query → Act W Value) (rounds : Nat) : Flow.Agree (fun store => b.Hold store) (fun store => b'.Hold store)
          (t.plainExec method ask rounds ⟨.assign, attributes, [target, value], p⟩)
          (t.plainExec method ask rounds ⟨.assign, attributes, [target, folded], p⟩) := by
      refine ⟨fun store hstore => ?_, fun store hstore => ?_⟩
      · rw [hsteps, hsteps, heval W ask store hstore]
      · rw [hsteps, ← heval W ask store hstore]
        exact (h W ask store hstore).bind fun v hv => hv
    by_cases hmem : name ∈ scope
    · obtain ⟨c?, hc?, hliteral⟩ := hafter.here.literal
      obtain ⟨b', hb', hwithin, hholds⟩ := Bindings.assign_spec hb hmem hc? hliteral
      refine ⟨⟨.assign, attributes, [target, folded], p⟩, b', ?_, hwithin, hagree fun W ask store hstore w v w' hv => ?_⟩
      · simp only [Node.propagateStatement, hsubstituted, ok_bind, hfolded, ne_eq, hvar, not_true, if_false, hname,
          List.contains_iff_mem, hmem, if_true, hb']
        rfl
      · have hvalue : ∀ c, c? = some c → v = c.value := by
          rintro c rfl
          rw [plainEval_constant hc?] at hv
          exact (Except.ok.inj (Prod.mk.inj hv).1).symm
        refine (yields_assignVariable name v).imp fun _ hflow => hflow.imp fun store' hstore' => ?_
        rcases hstore' with rfl | ⟨-, hunbound⟩
        · exact hholds store v hstore hvalue
        · simp [hscope name hmem] at hunbound
    · refine ⟨⟨.assign, attributes, [target, folded], p⟩, b, ?_, hb, hagree fun W ask store hstore w v w' _ => ?_⟩
      · simp only [Node.propagateStatement, hsubstituted, ok_bind, hfolded, ne_eq, hvar, not_true, if_false, hname,
          List.contains_iff_mem, hmem]
        rfl
      · refine (yields_assignVariable name v).imp fun _ hflow => hflow.imp fun store' hstore' => ?_
        rcases hstore' with rfl | ⟨rfl, -⟩
        · refine hstore.of_eq fun e he => Function.update_of_ne ?_ _ _
          rintro rfl
          exact hmem (hb.scope e he)
        · exact hstore
  · obtain ⟨target', htarget'⟩ := Node.exists_substitute hb.literal htarget
    have hother : target'.kind ≠ .varRef := by
      obtain ⟨kind, _, _, _⟩ := target
      simp only [Node.substitute, show kind ≠ .varRef from hvar, if_false, bind_eq_ok, pure_eq_ok] at htarget'
      obtain ⟨_, -, rfl⟩ := htarget'
      exact hvar
    refine ⟨⟨.assign, attributes, [target', folded], p⟩, b, ?_, hb, fun W ask rounds =>
      (Flow.agree_throw .fault).of_eq (fun store => ?_) fun store => ?_⟩
    · simp only [Node.propagateStatement, hsubstituted, ok_bind, hfolded, ne_eq, hvar, not_false_eq_true, if_true, htarget']
      rfl
    · rw [plainExec_assign, if_neg hvar]
    · rw [plainExec_assign, if_neg hother]

namespace Propagates
variable {attributes : Assoc Attribute} {p : Position}
  {condition condition' body body' thenPart thenPart' elsePart elsePart' : Node}
  {names : List String} {rest : List Node}

theorem ifThen (hcondition : condition.substitute b = .ok condition')
    (htest : ∀ (W : Type) (ask : Query → Act W Value) (store : Store), b.Hold store →
      t.SameValue method ask store condition condition')
    (hthen : t.Propagates method scope b thenPart thenPart' b₁) (hb : b.Within scope) :
    t.Propagates method scope b ⟨.ifStmt, attributes, [condition, thenPart], p⟩
      ⟨.ifStmt, attributes, [condition', thenPart'], p⟩
      (b₁.merge b) := by
  refine ⟨?_, hthen.within.filter _, fun W ask rounds => ?_⟩
  · simp only [Node.propagateStatement, Node.propagateBranches, hcondition, hthen.propagated, ok_bind]
    rfl
  · refine .of_eq (.branch (fun store hstore => plainHolds_congr (htest W ask store hstore))
      ((hthen.agree W ask rounds).weaken fun store hstore => hstore.filter _) ⟨fun store _ => rfl, fun store hstore => ?_⟩)
      (fun store => plainExec_ifThen condition thenPart) fun store => plainExec_ifThen condition' thenPart'
    exact Act.yields_pure (hstore.merge hthen.within hb)

theorem ifElse (hcondition : condition.substitute b = .ok condition')
    (htest : ∀ (W : Type) (ask : Query → Act W Value) (store : Store), b.Hold store →
      t.SameValue method ask store condition condition')
    (hthen : t.Propagates method scope b thenPart thenPart' b₁) (helse : t.Propagates method scope b elsePart elsePart' b₂) :
    t.Propagates method scope b ⟨.ifStmt, attributes, [condition, thenPart, elsePart], p⟩
      ⟨.ifStmt, attributes, [condition', thenPart', elsePart'], p⟩ (b₁.merge b₂) := by
  refine ⟨?_, hthen.within.filter _, fun W ask rounds => ?_⟩
  · simp only [Node.propagateStatement, Node.propagateBranches, hcondition, hthen.propagated, helse.propagated, ok_bind]
    rfl
  · exact .of_eq (.branch (fun store hstore => plainHolds_congr (htest W ask store hstore))
      ((hthen.agree W ask rounds).weaken fun store hstore => hstore.filter _)
      ((helse.agree W ask rounds).weaken fun store hstore => hstore.merge hthen.within helse.within))
      (fun store => plainExec_ifElse condition thenPart elsePart) fun store => plainExec_ifElse condition' thenPart' elsePart'

/-- What a loop does not assign stays what it is in each round. -/
theorem round (h : t.Propagates method scope (b.eraseAll names) body body' b₁) (hbody : body ∈ n.children)
    (hnames : n.assignedNames = .ok names) (W : Type) (ask : Query → Act W Value) (rounds : Nat) :
    Flow.Agree (fun store => (b.eraseAll names).Hold store) (fun store => (b.eraseAll names).Hold store)
      (t.plainExec method ask rounds body) (t.plainExec method ask rounds body') := by
  have houtside (x : String) (hx : body.Assigns x) : ¬x ∉ names := fun hout =>
    hout ((hx.of_child hbody).mem_assignedNames hnames)
  refine ⟨(h.agree W ask rounds).same, fun store hstore => ?_⟩
  refine (yields_plainExec houtside store.vars fun _ _ => rfl).imp fun flow hflow => hflow.imp fun store' hkept => ?_
  exact hstore.of_eq fun e he => hkept _ (Bindings.mem_eraseAll.1 he).2

theorem whileLoop (hnames : Node.assignedNames ⟨.whileStmt, attributes, condition :: body :: rest, p⟩ = .ok names)
    (hcondition : condition.substitute (b.eraseAll names) = .ok condition')
    (htest : ∀ (W : Type) (ask : Query → Act W Value) (store : Store), (b.eraseAll names).Hold store →
      t.SameValue method ask store condition condition')
    (hbody : t.Propagates method scope (b.eraseAll names) body body' b₁) (hb : b.Within scope) :
    t.Propagates method scope b ⟨.whileStmt, attributes, condition :: body :: rest, p⟩
      ⟨.whileStmt, attributes, [condition', body'], p⟩ (b.eraseAll names) := by
  refine ⟨?_, hb.eraseAll names, fun W ask rounds => ?_⟩
  · simp only [Node.propagateStatement, hnames, hcondition, hbody.propagated, ok_bind]
    rfl
  · have hround := hbody.round (by simp) hnames W ask rounds
    exact ((Flow.Agree.loop (fun store hstore => plainHolds_congr (htest W ask store hstore)) hround rounds).strengthen
      fun store hstore => hstore.eraseAll names).of_eq (fun store => plainExec_while condition body rest)
        fun store => plainExec_while condition' body' []

end Propagates

/-- Propagation succeeds on a statement in which constants can be folded, and keeps what it does in stores in which the
bindings before it hold. -/
theorem exists_propagates (hscope : ∀ name ∈ scope, (t.binding? method name).isSome = true) (hn : n.Everywhere Node.Foldable)
    (hb : b.Within scope) : ∃ n' b', t.Propagates method scope b n n' b' := by
  induction n using Node.induction_children generalizing b with
  | step n ih =>
    have hbelow (c : Node) (hc : c ∈ n.children) (b : Bindings) (hb : b.Within scope) :
        ∃ n' b', t.Propagates method scope b c n' b' := ih c hc (hn.foldable_child hc) hb
    have hpart (c : Node) (hc : c ∈ n.children) {b : Bindings} (hb : b.Within scope) :
        ∃ c', c.substitute b = .ok c' ∧ ∀ (W : Type) (ask : Query → Act W Value) (store : Store), b.Hold store →
          t.SameValue method ask store c c' := exists_sameValue hscope hb (hn.foldable_child hc)
    obtain ⟨kind, attributes, cs, p⟩ := n
    have htakes := hn.here.takes
    cases kind with
    | block =>
      obtain ⟨cs', b', hcs', hb', hagree⟩ := exists_propagateSequence hbelow hb
      refine ⟨⟨.block, attributes, cs', p⟩, b', ?_, hb', fun W ask rounds => ?_⟩
      · simp only [Node.propagateStatement, hcs', ok_bind]
        rfl
      · exact (hagree W ask rounds).of_eq (fun store => plainExec_block) fun store => plainExec_block
    | arrayAssign => exact exists_propagates_operands hscope hb (.inl rfl) hn
    | exprStmt => exact exists_propagates_operands hscope hb (.inr (.inl rfl)) hn
    | returnStmt => exact exists_propagates_operands hscope hb (.inr (.inr rfl)) hn
    | assign =>
      obtain ⟨target, value, rfl⟩ : ∃ target value, cs = [target, value] := List.length_eq_two.1 htakes
      exact exists_propagates_assign hscope hb target value hn
    | ifStmt =>
      rcases htakes with hlength | hlength
      · obtain ⟨condition, thenPart, rfl⟩ := List.length_eq_two.1 hlength
        obtain ⟨condition', hcondition, htest⟩ := hpart condition (by simp) hb
        obtain ⟨thenPart', b₁, hthen⟩ := hbelow thenPart (by simp) b hb
        exact ⟨_, _, .ifThen hcondition htest hthen hb⟩
      · obtain ⟨condition, thenPart, elsePart, rfl⟩ := List.length_eq_three.1 hlength
        obtain ⟨condition', hcondition, htest⟩ := hpart condition (by simp) hb
        obtain ⟨thenPart', b₁, hthen⟩ := hbelow thenPart (by simp) b hb
        obtain ⟨elsePart', b₂, helse⟩ := hbelow elsePart (by simp) b hb
        exact ⟨_, _, .ifElse hcondition htest hthen helse⟩
    | whileStmt =>
      rcases cs with _ | ⟨condition, _ | ⟨body, rest⟩⟩
      · exact absurd htakes (Nat.not_succ_le_zero 1)
      · exact absurd htakes (Nat.not_succ_le_self 1)
      obtain ⟨names, hnames⟩ := Node.exists_assignedNames hn
      have hb' := hb.eraseAll names
      obtain ⟨condition', hcondition, htest⟩ := hpart condition (by simp) hb'
      obtain ⟨body', b₁, hbody⟩ := hbelow body (by simp) (b.eraseAll names) hb'
      exact ⟨_, _, .whileLoop hnames hcondition htest hbody hb⟩
    | _ => exact ⟨_, b, rfl, hb, fun W ask rounds =>
        (Flow.agree_throw .fault).of_eq (fun _ => plainExec_other rfl) fun _ => plainExec_other rfl⟩

end SymbolTable
end JmmCompiler

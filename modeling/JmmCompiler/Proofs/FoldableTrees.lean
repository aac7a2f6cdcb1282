import JmmCompiler.Proofs.Simplifying
import JmmCompiler.Proofs.ValidProgram
/-! Trees in which constants can be folded. No round of propagation and folding fails on a program that no check objects to, as
its nodes have the attributes and the children that the rounds look for, and keep them. -/
namespace JmmCompiler

/-- The numbers of children that nodes of a kind have, as far as folding and propagation count them. -/
def Kind.Takes : Kind → Nat → Prop
  | .paren, k | .unary, k => 1 ≤ k
  | .binary, k | .whileStmt, k => 2 ≤ k
  | .assign, k => k = 2
  | .ifStmt, k => k = 2 ∨ k = 3
  | _, _ => True

namespace Node

/-- A node with the attributes and the number of children that its kind calls for, and no method in it. A literal has a
value, and is the literal that is made for the value. -/
structure Foldable (n : Node) : Prop where
  literal : ∃ c?, n.constant? = .ok c? ∧ ∀ c, c? = some c → ∃ p, n = c.node p
  name : n.kind = .varRef → ∃ name, n.name = .ok name
  op : n.kind = .unary ∨ n.kind = .binary → ∃ op, n.op = .ok op
  takes : n.kind.Takes n.children.length
  nested : ∀ c ∈ n.children, c.kind ≠ .methodDecl

variable {n n' c : Node} {cs : List Node} {b : Bindings}

theorem kept_foldable : Kept AnyConstant Foldable where
  holds _ _ _ _ := trivial
  constant c p _ := by
    refine ⟨⟨some c, constant?_node c p, fun c' hc' => ⟨p, by rw [Option.some.inj hc']⟩⟩, ?_, ?_, ?_, ?_⟩ <;> cases c <;>
      simp [Constant.node, Kind.Takes]
  children kind attributes cs cs' p hcs h := by
    refine ⟨?_, h.name, h.op, ?_, fun c' hc' hkind => ?_⟩
    · obtain ⟨c?, hc?, hliteral⟩ := h.literal
      refine ⟨c?, hc?, fun c hc => ?_⟩
      obtain ⟨q, hq⟩ := hliteral c hc
      obtain rfl : cs = [] := by
        have hchildren := congrArg children hq
        cases c <;> exact hchildren
      have hnil : cs' = [] := List.length_eq_zero_iff.1 (Nat.le_zero.1 hcs.length_le)
      exact ⟨q, hnil ▸ hq⟩
    · have htakes : kind.Takes cs.length := h.takes
      change kind.Takes cs'.length
      rcases hcs.length with hlength | ⟨rfl, hlength, -⟩
      · rwa [hlength]
      · rw [hlength]
        exact Nat.le_refl 2
    · obtain ⟨c, hc, hkind⟩ := hcs.nested c' hc' hkind
      exact h.nested c hc hkind

theorem Everywhere.foldable_child (h : n.Everywhere Foldable) (hc : c ∈ n.children) : c.Everywhere Foldable :=
  h.child hc (h.here.nested c hc)

/-- Folding and propagation keep such trees. -/
theorem Simplified.foldable (h : Simplified AnyConstant n n') (hn : n.Everywhere Foldable) : n'.Everywhere Foldable :=
  h.everywhere Constant.closed_any kept_foldable hn

/-! ## Folding -/

theorem Foldable.exists_foldTop (h : n.Foldable) (hcs : ∀ c ∈ n.children, c.Foldable) : ∃ n', n.foldTop = .ok n' := by
  obtain ⟨kind, attributes, cs, p⟩ := n
  cases kind with
  | paren =>
    rcases cs with _ | ⟨inner, rest⟩
    · exact absurd h.takes (by simp [Kind.Takes])
    obtain ⟨c?, hc?, -⟩ := (hcs inner (by simp)).literal
    simp only [foldTop, child, List.getElem?_cons_zero, ok_bind, hc?]
    cases c? <;> exact ⟨_, rfl⟩
  | unary =>
    rcases cs with _ | ⟨operand, rest⟩
    · exact absurd h.takes (by simp [Kind.Takes])
    obtain ⟨c?, hc?, -⟩ := (hcs operand (by simp)).literal
    obtain ⟨op, hop⟩ := h.op (.inl rfl)
    simp only [foldTop, child, List.getElem?_cons_zero, ok_bind, hc?, hop]
    rcases c? with _ | ⟨_ | _⟩ <;> exact ⟨_, rfl⟩
  | binary =>
    rcases cs with _ | ⟨left, _ | ⟨right, rest⟩⟩
    · exact absurd h.takes (by simp [Kind.Takes])
    · exact absurd h.takes (by simp [Kind.Takes])
    obtain ⟨a?, ha?, -⟩ := (hcs left (by simp)).literal
    obtain ⟨b?, hb?, -⟩ := (hcs right (by simp)).literal
    obtain ⟨op, hop⟩ := h.op (.inr rfl)
    simp only [foldTop, child, List.getElem?_cons_zero, List.getElem?_cons_succ, ok_bind, ha?, hb?, hop]
    cases a? with
    | none => exact ⟨_, rfl⟩
    | some a =>
      cases b? with
      | none => exact ⟨_, rfl⟩
      | some b =>
        dsimp only
        cases Constant.evaluate? op a b <;> exact ⟨_, rfl⟩
  | _ => exact ⟨_, rfl⟩

theorem exists_fold (h : n.Everywhere Foldable) : ∃ n', n.fold = .ok n' := by
  induction n using Node.induction_children with
  | step n ih =>
    obtain ⟨cs, hcs⟩ := exists_mapM_eq_ok (f := fold) fun c hc => ih c hc (h.foldable_child hc)
    obtain ⟨kind, attributes, children, p⟩ := n
    have hparts : Simplified AnyConstant ⟨kind, attributes, children, p⟩ ⟨kind, attributes, cs, p⟩ :=
      .children (simplified_of_mapM hcs fun c _ c' hc' => simplified_fold hc') kind attributes p
    have hfolded := hparts.foldable h
    obtain ⟨n', hn'⟩ := hfolded.here.exists_foldTop fun c hc => (hfolded.foldable_child hc).here
    exact ⟨n', by rw [fold, foldAll_eq_mapM, hcs, ok_bind, hn']⟩

/-! ## Propagation -/

theorem exists_substitute (hb : ∀ e ∈ b.entries, ∃ (c : Constant) (p : Position), e.2 = c.node p) (h : n.Everywhere Foldable) :
    ∃ n', n.substitute b = .ok n' := by
  induction n using Node.induction_children with
  | step n ih =>
    obtain ⟨cs, hcs⟩ := exists_mapM_eq_ok (f := substitute b) fun c hc => ih c hc (h.foldable_child hc)
    obtain ⟨kind, attributes, children, p⟩ := n
    by_cases hkind : kind = .varRef
    · subst hkind
      obtain ⟨name, hname⟩ := h.here.name rfl
      simp only [substitute, if_true, hname, ok_bind]
      cases hfind : b.find? name with
      | none => exact ⟨_, rfl⟩
      | some bound =>
        obtain ⟨c, q, rfl⟩ := hb _ (Assoc.mem_of_findEntry hfind)
        simp only [constant?_node, ok_bind]
        exact ⟨_, rfl⟩
    · simp only [substitute, hkind, if_false, substituteAll_eq_mapM, hcs, ok_bind]
      exact ⟨_, rfl⟩

theorem exists_assignedName? (h : n.Everywhere Foldable) (hkind : n.kind = .assign) : ∃ name?, n.assignedName? = .ok name? := by
  obtain ⟨kind, attributes, cs, p⟩ := n
  obtain rfl : kind = .assign := hkind
  obtain ⟨target, value, rfl⟩ : ∃ target value, cs = [target, value] := List.length_eq_two.1 h.here.takes
  simp only [assignedName?, child, List.getElem?_cons_zero, ok_bind]
  by_cases hvar : target.kind = .varRef
  · obtain ⟨name, hname⟩ := (h.foldable_child (c := target) (by simp)).here.name hvar
    rw [if_pos hvar, hname]
    exact ⟨_, rfl⟩
  · rw [if_neg hvar]
    exact ⟨_, rfl⟩

theorem exists_assignedNames (h : n.Everywhere Foldable) : ∃ names, n.assignedNames = .ok names := by
  have hvisited : ∀ v ∈ visit (located [] n), v.2.Everywhere Foldable := by
    refine forall_mem_visit (Q := fun _ n => n.Everywhere Foldable)
      (fun path m i c hm hc => hm.foldable_child (List.mem_of_getElem? hc)) fun v hv => ?_
    obtain ⟨c, hc, rfl⟩ := List.mem_map.1 hv
    exact h.foldable_child (List.mem_of_getElem? (List.mem_zipIdx_iff_getElem?.1 hc))
  obtain ⟨below, hbelow⟩ : ∃ below, (n.descendants [.assign]).mapM (fun v => v.2.assignedName?) = .ok below :=
    exists_mapM_eq_ok fun v hv => by
      obtain ⟨hv, hkind⟩ := List.mem_filter.1 hv
      exact exists_assignedName? (hvisited v hv) (by simpa using hkind)
  unfold assignedNames
  rw [hbelow, ok_bind]
  by_cases hkind : n.kind = .assign
  · obtain ⟨own, hown⟩ := exists_assignedName? h hkind
    rw [if_pos hkind, hown]
    exact ⟨_, rfl⟩
  · rw [if_neg hkind]
    exact ⟨_, rfl⟩

/-! ## Parsed trees -/

theorem foldable_of_not_literal (hint : n.kind ≠ .intLiteral) (hbool : n.kind ≠ .boolLiteral)
    (hname : n.kind = .varRef → ∃ name, n.name = .ok name) (hop : n.kind = .unary ∨ n.kind = .binary → ∃ op, n.op = .ok op)
    (htakes : n.kind.Takes n.children.length) (hnested : ∀ c ∈ n.children, c.kind ≠ .methodDecl) : n.Foldable := by
  refine ⟨⟨none, ?_, nofun⟩, hname, hop, htakes, hnested⟩
  unfold constant?
  split
  · exact absurd ‹_› hint
  · exact absurd ‹_› hbool
  · rfl

theorem IsExpression.foldable (h : n.IsExpression) : n.Foldable := by
  have hnested := IsPart.kind_child (.inl h)
  cases h with
  | intLiteral value p => exact kept_foldable.constant (.int value) p trivial
  | boolLiteral value p => exact kept_foldable.constant (.bool value) p trivial
  | @varRef name hname p =>
    exact foldable_of_not_literal nofun nofun (fun _ => ⟨name, rfl⟩) (by simp) trivial hnested
  | unary hoperand htight p =>
    exact foldable_of_not_literal nofun nofun nofun (fun _ => ⟨"!", rfl⟩) (Nat.le_refl 1) hnested
  | @binary op left right hop hleft hright hleftTight hrightTight p =>
    exact foldable_of_not_literal nofun nofun nofun (fun _ => ⟨op, rfl⟩) (Nat.le_refl 2) hnested
  | paren hinner p => exact foldable_of_not_literal nofun nofun nofun (by simp) (Nat.le_refl 1) hnested
  | _ => exact foldable_of_not_literal nofun nofun nofun (by simp) trivial hnested

theorem IsStatement.foldable (h : n.IsStatement) : n.Foldable := by
  have hnested := IsPart.kind_child (.inr h)
  cases h with
  | simple hn =>
    cases hn with
    | assign hname hvalue p q => exact foldable_of_not_literal nofun nofun nofun (by simp) rfl hnested
    | _ => exact foldable_of_not_literal nofun nofun nofun (by simp) trivial hnested
  | block hns p => exact foldable_of_not_literal nofun nofun nofun (by simp) trivial hnested
  | ifThen hc ht p => exact foldable_of_not_literal nofun nofun nofun (by simp) (.inl rfl) hnested
  | ifElse hc ht he p => exact foldable_of_not_literal nofun nofun nofun (by simp) (.inr rfl) hnested
  | whileLoop hc hb p => exact foldable_of_not_literal nofun nofun nofun (by simp) (Nat.le_refl 2) hnested

/-- Statements that are read from a text are such trees. -/
theorem IsStatement.everywhere_foldable (h : n.IsStatement) : n.Everywhere Foldable :=
  h.everywhere_isPart.imp fun _ hn => hn.elim IsExpression.foldable IsStatement.foldable

end Node
end JmmCompiler

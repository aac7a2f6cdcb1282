import JmmCompiler.Proofs.Simplifying
import JmmCompiler.Source.Reader
/-! Rounds of propagation and folding. What is folded has nothing left to fold, every round that changes a tree leaves
fewer nodes or fewer variables in it, and so the rounds come to a tree that no round changes. -/
namespace JmmCompiler.Node

variable {K : Constant → Prop} {n n' root root' r : Node} {cs cs' : List Node}

/-! ## Normal forms -/

/-- No node of a tree is an expression that has a value. -/
def IsFolded (n : Node) : Prop := ∀ path m, n.at? path = some m → ∀ c, ¬m.Reduces c

theorem not_reduces_node (c c' : Constant) (p : Position) : ¬(c.node p).Reduces c' := by
  cases c <;> nofun

theorem IsFolded.node (c : Constant) (p : Position) : (c.node p).IsFolded := by
  intro path m hm
  cases path with
  | nil =>
    obtain rfl := Option.some.inj hm
    exact fun c' => not_reduces_node c c' p
  | cons i path =>
    have hchildren : (c.node p).children = [] := by cases c <;> rfl
    simp [at?, hchildren] at hm

theorem IsFolded.of_children (hn : ∀ c, ¬n.Reduces c) (h : ∀ c ∈ n.children, c.IsFolded) : n.IsFolded := by
  intro path m hm
  cases path with
  | nil =>
    obtain rfl := Option.some.inj hm
    exact hn
  | cons i path =>
    obtain ⟨c, hc, hat⟩ := Option.bind_eq_some_iff.1 hm
    exact h c (List.mem_of_getElem? hc) path m hat

theorem fold_node (c : Constant) (p : Position) : (c.node p).fold = .ok (c.node p) := by
  cases c <;> rfl

/-- What is folded has nothing left to fold, and folding it again changes nothing. -/
theorem fold_folded (h : n.fold = .ok n') : n'.IsFolded ∧ n'.fold = .ok n' := by
  induction n using Node.induction_children generalizing n' with
  | step n ih =>
    obtain ⟨kind, attributes, children, p⟩ := n
    rw [fold, foldAll_eq_mapM, bind_eq_ok] at h
    obtain ⟨children', hchildren, h⟩ := h
    have hall (c' : Node) (hc' : c' ∈ children') : c'.IsFolded ∧ c'.fold = .ok c' := by
      obtain ⟨c, hc, hfold⟩ := exists_of_mem_mapM hchildren hc'
      exact ih c hc hfold
    have hagain : children'.mapM fold = .ok children' :=
      mapM_eq_ok_iff.2 (List.forall₂_same.2 fun c' hc' => (hall c' hc').2)
    rcases foldTop_cases h with ⟨rfl, hnone⟩ | ⟨c, -, rfl⟩
    · refine ⟨.of_children hnone fun c' hc' => (hall c' hc').1, ?_⟩
      rw [fold, foldAll_eq_mapM, hagain, ok_bind, h]
    · exact ⟨.node c _, fold_node c _⟩

/-! ## What a round does -/

theorem allReferences_append (cs cs' : List Node) :
    allReferences (cs ++ cs') = allReferences cs + allReferences cs' := by
  induction cs with
  | nil => simp [allReferences]
  | cons c cs ih => rw [List.cons_append, allReferences, allReferences, ih, Nat.add_assoc]

/-- What every step makes smaller. -/
def weight (n : Node) : Nat := n.count + n.references

theorem weight_node (c : Constant) (p : Position) : (c.node p).weight = 1 := by cases c <;> rfl

theorem Simplifies.weight_lt (h : Simplifies K n n') : n'.weight < n.weight := by
  induction h with
  | child kind attributes before after p h ih =>
    simp only [weight, count, references, countAll_append, countAll, allReferences_append, allReferences] at ih ⊢
    omega
  | read attributes children p hc =>
    rw [weight_node]
    simp only [weight, count, references, if_true]
    omega
  | reduce h =>
    rw [weight_node]
    cases h with
    | @paren _ inner _ _ _ hinner =>
      have := inner.count_pos
      simp only [weight, count, countAll]
      omega
    | @not _ operand _ _ _ hop hoperand =>
      have := operand.count_pos
      simp only [weight, count, countAll]
      omega
    | @binary _ left _ _ _ _ _ _ _ hop hleft hright hvalue =>
      have := left.count_pos
      simp only [weight, count, countAll]
      omega
  | trim attributes condition body next rest p =>
    have := next.count_pos
    simp only [weight, count, countAll, references, allReferences]
    omega

/-- A tree that is simplified is the same tree or a smaller one. -/
theorem Simplified.eq_or_weight_lt (h : Simplified K n n') : n' = n ∨ n'.weight < n.weight := by
  induction h with
  | refl => exact .inl rfl
  | tail _ hstep ih =>
    have hlt := hstep.weight_lt
    rcases ih with rfl | ih
    · exact .inr hlt
    · exact .inr (Nat.lt_trans hlt ih)

theorem simplified_replaceClass {c c' : Node} (hc : cs.find? (·.kind = .classDecl) = some c) (h : Simplified K c c') :
    List.Forall₂ (Simplified K) cs (replaceClass c' cs) := by
  induction cs with
  | nil => cases hc
  | cons n cs ih =>
    rw [replaceClass]
    by_cases hkind : n.kind = .classDecl
    · rw [List.find?_cons_of_pos (by simpa using hkind)] at hc
      obtain rfl := Option.some.inj hc
      rw [if_pos hkind]
      exact .cons h (Simplified.forall₂_refl cs)
    · rw [List.find?_cons_of_neg (by simpa using hkind)] at hc
      rw [if_neg hkind]
      exact .cons (.refl n) (ih hc)

theorem simplified_propagate (h : root.propagate = .ok root') : Simplified AnyConstant root root' := by
  simp only [propagate, bind_eq_ok, pure_eq_ok] at h
  obtain ⟨c, hc, members, hmembers, rfl⟩ := h
  have hclass : Simplified AnyConstant c (c.withChildren members) := by
    refine .withChildren (simplified_of_mapM hmembers fun m _ m' hm' => ?_)
    split at hm'
    · obtain ⟨cs, rfl, hcs⟩ := simplified_propagateMethod Constant.closed_any (everywhere_any m) hm'
      exact .withChildren hcs
    · obtain rfl := Except.ok.inj hm'
      exact .refl m
  unfold classDecl at hc
  split at hc
  · rename_i hkind
    obtain rfl := Except.ok.inj hc
    rw [if_pos hkind]
    exact hclass
  · rename_i hkind
    rw [if_neg hkind]
    split at hc
    · rename_i hfind
      obtain rfl := Except.ok.inj hc
      exact .withChildren (simplified_replaceClass hfind hclass)
    · cases hc

theorem simplified_foldRound (h : root.foldRound = .ok root') : Simplified AnyConstant root root' := by
  simp only [foldRound, bind_eq_ok] at h
  obtain ⟨propagated, hpropagated, hfolded⟩ := h
  exact (simplified_propagate hpropagated).trans (simplified_fold hfolded)

/-! ## Rounds -/

theorem forall₂_of_sameAll (h : sameAll cs cs' = true) : List.Forall₂ (fun c c' => c.same c' = true) cs cs' := by
  induction cs generalizing cs' with
  | nil =>
    cases cs' with
    | nil => exact .nil
    | cons c' cs' => cases h
  | cons c cs ih =>
    cases cs' with
    | nil => cases h
    | cons c' cs' =>
      rw [sameAll, Bool.and_eq_true] at h
      exact .cons h.1 (ih h.2)

/-- Trees that are equal up to positions are equally large. -/
theorem weight_eq_of_same (h : n.same n' = true) : n.weight = n'.weight := by
  suffices hboth : n.count = n'.count ∧ n.references = n'.references by rw [weight, weight, hboth.1, hboth.2]
  induction n using Node.induction_children generalizing n' with
  | step n ih =>
    obtain ⟨kind, attributes, cs, p⟩ := n
    obtain ⟨kind', attributes', cs', p'⟩ := n'
    simp only [same, Bool.and_eq_true, decide_eq_true_eq] at h
    obtain ⟨⟨rfl, -⟩, hall⟩ := h
    have hsame := (List.forall₂_and_left cs cs').2 ⟨fun c hc c' (h : c.same c' = true) => ih c hc h, forall₂_of_sameAll hall⟩
    have hsums : countAll cs = countAll cs' ∧ allReferences cs = allReferences cs' := by
      clear ih hall
      induction hsame with
      | nil => exact ⟨rfl, rfl⟩
      | cons hc _ ih =>
        obtain ⟨hcount, hreferences⟩ := hc.1 _ hc.2
        simp only [countAll, allReferences, hcount, hreferences, ih.1, ih.2, and_self]
    simp only [count, references, hsums.1, hsums.2, and_self]

/-- A round that leaves a tree equal up to positions leaves it as it is. -/
theorem eq_of_same (h : root.foldRound = .ok root') (hsame : root'.same root = true) : root' = root := by
  rcases (simplified_foldRound h).eq_or_weight_lt with heq | hlt
  · exact heq
  · rw [weight_eq_of_same hsame] at hlt
    exact absurd hlt (Nat.lt_irrefl _)

/-- The tree after some rounds. -/
def afterRounds (root : Node) : Nat → Except Failure Node
  | 0 => .ok root
  | k + 1 => do (← root.foldRound).afterRounds k

theorem foldRounds_fixed (h : r.foldRound = .ok r) (done fuel : Nat) : ∃ rounds, foldRounds done fuel r = .ok (r, rounds) := by
  induction fuel generalizing done with
  | zero => exact ⟨done, rfl⟩
  | succ fuel ih =>
    rw [foldRounds, h, ok_bind]
    split
    · exact ⟨_, rfl⟩
    · exact ih (done + 1)

/-- Enough rounds come to a tree that no round changes, unless a pass fails. -/
theorem foldRounds_settles {fuel done rounds : Nat} (hfuel : root.weight < fuel)
    (h : foldRounds done fuel root = .ok (r, rounds)) :
    (∃ k ≤ root.weight, root.afterRounds k = .ok r) ∧ r.foldRound = .ok r := by
  induction fuel generalizing root done with
  | zero => omega
  | succ fuel ih =>
    simp only [foldRounds, bind_eq_ok] at h
    obtain ⟨next, hnext, h⟩ := h
    split at h
    · rename_i hsame
      obtain rfl := eq_of_same hnext hsame
      obtain ⟨rfl, -⟩ := Prod.mk.inj (Except.ok.inj h)
      exact ⟨⟨0, Nat.zero_le _, rfl⟩, hnext⟩
    · rcases (simplified_foldRound hnext).eq_or_weight_lt with rfl | hlt
      · obtain ⟨rounds', hfixed⟩ := foldRounds_fixed hnext (done + 1) fuel
        obtain ⟨rfl, -⟩ := Prod.mk.inj (Except.ok.inj (hfixed.symm.trans h))
        exact ⟨⟨0, Nat.zero_le _, rfl⟩, hnext⟩
      · obtain ⟨⟨k, hk, hafter⟩, hr⟩ := ih (by omega) h
        exact ⟨⟨k + 1, by omega, by rw [afterRounds, hnext, ok_bind, hafter]⟩, hr⟩

theorem exists_rounds (h : ∀ k tree, root.afterRounds k = .ok tree → ∃ next, tree.foldRound = .ok next) (fuel done : Nat) :
    ∃ result, foldRounds done fuel root = .ok result := by
  induction fuel generalizing root done with
  | zero => exact ⟨_, rfl⟩
  | succ fuel ih =>
    obtain ⟨next, hnext⟩ := h 0 root rfl
    rw [foldRounds, hnext, ok_bind]
    split
    · exact ⟨_, rfl⟩
    · refine ih (fun k tree htree => h (k + 1) tree ?_) (done + 1)
      rw [afterRounds, hnext, ok_bind, htree]

theorem foldConstants_fixed (h : r.foldRound = .ok r) : r.foldConstants = .ok r := by
  obtain ⟨rounds, hrounds⟩ := foldRounds_fixed h 0 (r.count + r.references + 1)
  rw [foldConstants, foldConstantsCounted, hrounds]
  rfl

theorem foldConstants_settles (h : root.foldConstants = .ok r) :
    (∃ k ≤ root.weight, root.afterRounds k = .ok r) ∧ r.foldRound = .ok r := by
  simp only [foldConstants, foldConstantsCounted, bind_eq_ok, pure_eq_ok] at h
  obtain ⟨⟨tree, rounds⟩, hrounds, rfl⟩ := h
  exact foldRounds_settles (Nat.lt_succ_self _) hrounds

/-- Folding reaches a normal form, and rounds of propagation and folding come to an end. A tree that is folded has no
expression left that has a value, and folding it again changes nothing. Where no pass fails, the rounds come to a tree
after a number of them that is bounded by the nodes and variables of the program; no round changes that tree, and neither
do more rounds of folding constants. -/
theorem folding_settles :
    (∀ n n' : Node, n.fold = .ok n' → n'.IsFolded ∧ n'.fold = .ok n') ∧
    (∀ root : Node, (∀ k tree, root.afterRounds k = .ok tree → ∃ next, tree.foldRound = .ok next) →
      ∃ r, root.foldConstants = .ok r) ∧
    ∀ root r : Node, root.foldConstants = .ok r →
      (∃ k ≤ root.count + root.references, root.afterRounds k = .ok r) ∧
      (∃ propagated, r.propagate = .ok propagated ∧ propagated.fold = .ok r) ∧ r.foldConstants = .ok r := by
  refine ⟨fun n n' h => fold_folded h, fun root h => ?_, fun root r h => ?_⟩
  · obtain ⟨⟨r, rounds⟩, hrounds⟩ := exists_rounds h (root.count + root.references + 1) 0
    exact ⟨r, by rw [foldConstants, foldConstantsCounted, hrounds]; rfl⟩
  · obtain ⟨hrounds, hfixed⟩ := foldConstants_settles h
    refine ⟨hrounds, ?_, foldConstants_fixed hfixed⟩
    simpa only [foldRound, bind_eq_ok] using hfixed

/-- A loop that changes one of two variables, behind branches that agree on the other. -/
theorem folding_settles_loop :
    ∃ root r, Node.parse ("class A\x7bint f(boolean c)\x7bint a;int b;b=2;if(c)a=1+1;else a=b;" ++
        "while(b<(a*3))b=b+(a);return a+b;\x7d\x7d") = .ok root ∧
      root.foldConstants = .ok r ∧ root.count = 40 ∧ root.references = 12 ∧ r.count = 34 ∧ r.references = 8 ∧
      (∃ k ≤ root.count + root.references, root.afterRounds k = .ok r) ∧ r.foldConstants = .ok r := by
  obtain ⟨root, hroot, hfacts⟩ := exists_of_toOption (show (Node.parse
      ("class A\x7bint f(boolean c)\x7bint a;int b;b=2;if(c)a=1+1;else a=b;" ++
        "while(b<(a*3))b=b+(a);return a+b;\x7d\x7d")).toOption.map (fun root =>
          (root.count, root.references, root.foldConstants.toOption.map fun r => (r.count, r.references))) =
      some (40, 12, some (34, 8)) by decide +kernel)
  simp only [Prod.mk.injEq] at hfacts
  obtain ⟨hcount, hreferences, hfolded⟩ := hfacts
  obtain ⟨r, hr, hsmaller⟩ := exists_of_toOption hfolded
  obtain ⟨hcount', hreferences'⟩ := Prod.mk.inj hsmaller
  obtain ⟨hrounds, -, hfixed⟩ := folding_settles.2.2 root r hr
  exact ⟨root, r, hroot, hr, hcount, hreferences, hcount', hreferences', hrounds, hfixed⟩

end JmmCompiler.Node

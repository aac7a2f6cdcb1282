import JmmCompiler.Constants.Propagate
import JmmCompiler.Proofs.Slots
import JmmCompiler.Proofs.Subtrees
import Mathlib.Data.List.Forall2
import Mathlib.Logic.Relation
/-! What folding and propagation do to a tree, step by step: a variable becomes a constant that it is known to hold, an
expression over literals becomes its value, and a loop loses the children that it has too many. -/
namespace JmmCompiler

/-- Constants of a kind that has the truth values and the values of operators on constants of the kind. -/
structure Constant.Closed (K : Constant → Prop) : Prop where
  bool : ∀ b, K (.bool b)
  evaluate : ∀ op a b c, K a → K b → Constant.evaluate? op a b = some c → K c

/-- Constants of every kind. -/
abbrev AnyConstant : Constant → Prop := fun _ => True

theorem Constant.closed_any : Constant.Closed AnyConstant := ⟨fun _ => trivial, fun _ _ _ _ _ _ _ => trivial⟩

namespace Node

/-- The value of an expression over literals. -/
inductive Reduces : Node → Constant → Prop
  | paren {attributes : Assoc Attribute} {inner : Node} {rest : List Node} {p : Position} {c : Constant}
      (hinner : inner.constant? = .ok (some c)) : Reduces ⟨.paren, attributes, inner :: rest, p⟩ c
  | not {attributes : Assoc Attribute} {operand : Node} {rest : List Node} {p : Position} {b : Bool}
      (hop : Node.op ⟨.unary, attributes, operand :: rest, p⟩ = .ok "!")
      (hoperand : operand.constant? = .ok (some (.bool b))) :
      Reduces ⟨.unary, attributes, operand :: rest, p⟩ (.bool !b)
  | binary {attributes : Assoc Attribute} {left right : Node} {rest : List Node} {p : Position} {op : String}
      {a b c : Constant} (hop : Node.op ⟨.binary, attributes, left :: right :: rest, p⟩ = .ok op)
      (hleft : left.constant? = .ok (some a)) (hright : right.constant? = .ok (some b))
      (hvalue : Constant.evaluate? op a b = some c) : Reduces ⟨.binary, attributes, left :: right :: rest, p⟩ c

/-- One step of folding or propagation, with constants of a kind for variables. -/
inductive Simplifies (K : Constant → Prop) : Node → Node → Prop
  | child (kind : Kind) (attributes : Assoc Attribute) (before after : List Node) (p : Position) {c c' : Node}
      (h : Simplifies K c c') :
      Simplifies K ⟨kind, attributes, before ++ c :: after, p⟩ ⟨kind, attributes, before ++ c' :: after, p⟩
  | read (attributes : Assoc Attribute) (children : List Node) (p : Position) {c : Constant} (hc : K c) :
      Simplifies K ⟨.varRef, attributes, children, p⟩ (c.node p)
  | reduce {n : Node} {c : Constant} (h : n.Reduces c) : Simplifies K n (c.node n.position)
  | trim (attributes : Assoc Attribute) (condition body next : Node) (rest : List Node) (p : Position) :
      Simplifies K ⟨.whileStmt, attributes, condition :: body :: next :: rest, p⟩
        ⟨.whileStmt, attributes, [condition, body], p⟩

/-- Any number of steps. -/
def Simplified (K : Constant → Prop) : Node → Node → Prop := Relation.ReflTransGen (Simplifies K)

variable {K : Constant → Prop} {n n' : Node} {cs cs' : List Node} {b b' : Bindings} {scope : List String}

theorem Simplified.refl (n : Node) : Simplified K n n := Relation.ReflTransGen.refl

theorem Simplified.trans {n'' : Node} (h : Simplified K n n') (h' : Simplified K n' n'') : Simplified K n n'' :=
  Relation.ReflTransGen.trans h h'

theorem Simplified.child {c c' : Node} (h : Simplified K c c') (kind : Kind) (attributes : Assoc Attribute)
    (before after : List Node) (p : Position) :
    Simplified K ⟨kind, attributes, before ++ c :: after, p⟩ ⟨kind, attributes, before ++ c' :: after, p⟩ := by
  induction h with
  | refl => exact .refl _
  | tail _ hstep ih => exact ih.tail (.child kind attributes before after p hstep)

theorem Simplified.children (h : List.Forall₂ (Simplified K) cs cs') (kind : Kind) (attributes : Assoc Attribute)
    (p : Position) : Simplified K ⟨kind, attributes, cs, p⟩ ⟨kind, attributes, cs', p⟩ := by
  have hall : ∀ before, Simplified K ⟨kind, attributes, before ++ cs, p⟩ ⟨kind, attributes, before ++ cs', p⟩ := by
    induction h with
    | nil => exact fun before => .refl _
    | @cons c c' cs cs' hc _ ih =>
      intro before
      refine (hc.child kind attributes before cs p).trans ?_
      simpa using ih (before ++ [c'])
  exact hall []

theorem Simplified.withChildren (h : List.Forall₂ (Simplified K) n.children cs') : Simplified K n (n.withChildren cs') := by
  obtain ⟨kind, attributes, cs, p⟩ := n
  exact .children h kind attributes p

theorem Simplified.forall₂_refl (cs : List Node) : List.Forall₂ (Simplified K) cs cs :=
  List.forall₂_same.2 fun c _ => .refl c

/-- Children that are simplified one by one. -/
theorem simplified_of_mapM {f : Node → Except Failure Node} (h : cs.mapM f = .ok cs')
    (hf : ∀ c ∈ cs, ∀ c', f c = .ok c' → Simplified K c c') : List.Forall₂ (Simplified K) cs cs' := by
  have hall := mapM_eq_ok_iff.1 h
  exact ((List.forall₂_and_left cs cs').2 ⟨hf, hall⟩).imp fun c c' hc => hc.1 c' hc.2

/-! ## Folding -/

theorem foldAll_eq_mapM (cs : List Node) : foldAll cs = cs.mapM fold := by
  induction cs with
  | nil => rfl
  | cons c cs ih => rw [foldAll, ih, List.mapM_cons]

/-- Folding a node over folded children gives its value, if it has one, and else the node. -/
theorem foldTop_cases (h : n.foldTop = .ok n') :
    n' = n ∧ (∀ c, ¬n.Reduces c) ∨ ∃ c, n.Reduces c ∧ n' = c.node n.position := by
  obtain ⟨kind, attributes, children, p⟩ := n
  unfold foldTop at h
  split at h
  · rename_i hkind
    obtain rfl : kind = .paren := hkind
    simp only [bind_eq_ok] at h
    obtain ⟨inner, hchild, constant, hconstant, h⟩ := h
    rcases children with _ | ⟨first, rest⟩
    · cases hchild
    obtain rfl : first = inner := Except.ok.inj hchild
    split at h
    · exact .inr ⟨_, .paren hconstant, (Except.ok.inj h).symm⟩
    · refine .inl ⟨(Except.ok.inj h).symm, fun c hc => ?_⟩
      cases hc with
      | paren hinner => simp [hinner] at hconstant
  · rename_i hkind
    obtain rfl : kind = .unary := hkind
    simp only [bind_eq_ok] at h
    obtain ⟨operand, hchild, constant, hconstant, h⟩ := h
    rcases children with _ | ⟨first, rest⟩
    · cases hchild
    obtain rfl : first = operand := Except.ok.inj hchild
    split at h
    · simp only [bind_eq_ok, pure_eq_ok] at h
      obtain ⟨op, hop, rfl⟩ := h
      split
      · rename_i heq
        exact .inr ⟨_, .not (heq ▸ hop) hconstant, rfl⟩
      · rename_i hne
        refine .inl ⟨rfl, fun c hc => ?_⟩
        cases hc with
        | not hop' hoperand => exact hne (Except.ok.inj (hop.symm.trans hop'))
    · rename_i hnone
      refine .inl ⟨(Except.ok.inj h).symm, fun c hc => ?_⟩
      cases hc with
      | not hop hoperand => exact hnone _ (Except.ok.inj (hconstant.symm.trans hoperand))
  · rename_i hkind
    obtain rfl : kind = .binary := hkind
    simp only [bind_eq_ok] at h
    obtain ⟨left, hleftChild, a, hleft, right, hrightChild, b, hright, h⟩ := h
    rcases children with _ | ⟨first, _ | ⟨second, rest⟩⟩
    · cases hleftChild
    · cases hrightChild
    obtain rfl : first = left := Except.ok.inj hleftChild
    obtain rfl : second = right := Except.ok.inj hrightChild
    split at h
    · simp only [bind_eq_ok] at h
      obtain ⟨op, hop, h⟩ := h
      split at h
      · rename_i hvalue
        exact .inr ⟨_, .binary hop hleft hright hvalue, (Except.ok.inj h).symm⟩
      · rename_i hnone
        refine .inl ⟨(Except.ok.inj h).symm, fun c hc => ?_⟩
        cases hc with
        | binary hop' hleft' hright' hvalue =>
          obtain rfl := Except.ok.inj (hop.symm.trans hop')
          obtain rfl := Option.some.inj (Except.ok.inj (hleft.symm.trans hleft'))
          obtain rfl := Option.some.inj (Except.ok.inj (hright.symm.trans hright'))
          simp [hnone] at hvalue
    · rename_i hnone
      refine .inl ⟨(Except.ok.inj h).symm, fun c hc => ?_⟩
      cases hc with
      | binary hop hleft' hright' hvalue =>
        exact hnone _ _ (Except.ok.inj (hleft.symm.trans hleft')) (Except.ok.inj (hright.symm.trans hright'))
  · rename_i hparen hunary hbinary
    refine .inl ⟨(Except.ok.inj h).symm, fun c hc => ?_⟩
    cases hc with
    | paren hinner => exact hparen rfl
    | not hop hoperand => exact hunary rfl
    | binary hop hleft hright hvalue => exact hbinary rfl

theorem simplified_fold (h : n.fold = .ok n') : Simplified K n n' := by
  induction n using Node.induction_children generalizing n' with
  | step n ih =>
    obtain ⟨kind, attributes, children, p⟩ := n
    rw [fold, foldAll_eq_mapM, bind_eq_ok] at h
    obtain ⟨children', hchildren, h⟩ := h
    have hparts : Simplified K _ ⟨kind, attributes, children', p⟩ :=
      .children (simplified_of_mapM hchildren fun c hc c' hc' => ih c hc hc') kind attributes p
    rcases foldTop_cases h with ⟨rfl, -⟩ | ⟨c, hc, rfl⟩
    · exact hparts
    · exact hparts.tail (.reduce hc)

/-! ## Constants of a kind -/

/-- A literal stands for a constant of a kind. -/
def Holds (K : Constant → Prop) (n : Node) : Prop := ∀ c, n.constant? = .ok (some c) → K c

theorem constant?_node (c : Constant) (p : Position) : (c.node p).constant? = .ok (some c) := by
  cases c <;> rfl

theorem kind_of_constant? {c : Constant} (h : n.constant? = .ok (some c)) :
    n.kind = .intLiteral ∨ n.kind = .boolLiteral := by
  unfold constant? at h
  split at h
  · rename_i hkind
    exact .inl hkind
  · rename_i hkind
    exact .inr hkind
  · cases h

/-- How children may be replaced: one by one, or all but two of those of a loop are left out. None becomes a method
declaration. -/
structure Shrinks (kind : Kind) (cs cs' : List Node) : Prop where
  length : cs'.length = cs.length ∨ kind = .whileStmt ∧ cs'.length = 2 ∧ 2 ≤ cs.length
  nested : ∀ c' ∈ cs', c'.kind = .methodDecl → ∃ c ∈ cs, c.kind = .methodDecl

theorem Shrinks.length_le {kind : Kind} (h : Shrinks kind cs cs') : cs'.length ≤ cs.length := by
  rcases h.length with h | ⟨-, h, h'⟩ <;> omega

/-- A property that makes the literals among its nodes stand for constants of a kind, that all such literals have, and that
nodes keep when their children are replaced. -/
structure Kept (K : Constant → Prop) (P : Node → Prop) : Prop where
  holds : ∀ n, P n → n.Holds K
  constant : ∀ c p, K c → P (c.node p)
  children : ∀ kind attributes cs cs' p, Shrinks kind cs cs' → P ⟨kind, attributes, cs, p⟩ → P ⟨kind, attributes, cs', p⟩

theorem kept_holds : Kept K (Holds K) where
  holds _ h := h
  constant c p hc c' hc' := by
    obtain rfl : c = c' := by simpa [constant?_node] using hc'
    exact hc
  children _ _ _ _ _ _ h := h

theorem Kept.everywhere_node {P : Node → Prop} (hP : Kept K P) {c : Constant} (hc : K c) (p : Position) :
    (c.node p).Everywhere P :=
  .intro (hP.constant c p hc) fun d hd => by cases c <;> cases hd

theorem kind_node_ne (c : Constant) (p : Position) : (c.node p).kind ≠ .methodDecl := by
  cases c <;> simp [Constant.node]

/-- A literal among the children of a node. -/
theorem Everywhere.constant {c : Node} {value : Constant} (hn : n.Everywhere (Holds K)) (hc : c ∈ n.children)
    (h : c.constant? = .ok (some value)) : K value := by
  refine (hn.child hc ?_).here value h
  rcases kind_of_constant? h with hkind | hkind <;> simp [hkind]

theorem Reduces.holds {c : Constant} (hK : Constant.Closed K) (h : n.Reduces c) (hn : n.Everywhere (Holds K)) : K c := by
  cases h with
  | paren hinner => exact hn.constant (by simp) hinner
  | not hop hoperand => exact hK.bool _
  | binary hop hleft hright hvalue =>
    exact hK.evaluate _ _ _ _ (hn.constant (by simp) hleft) (hn.constant (by simp) hright) hvalue

theorem Reduces.kind_ne {c : Constant} (h : n.Reduces c) : n.kind ≠ .methodDecl := by cases h <;> simp

/-- Method declarations stay what they are, and nothing else becomes one. -/
theorem Simplifies.kind_iff (h : Simplifies K n n') : n'.kind = .methodDecl ↔ n.kind = .methodDecl := by
  cases h with
  | child => exact Iff.rfl
  | read attributes children p hc => exact iff_of_false (kind_node_ne _ p) (by simp)
  | reduce h => exact iff_of_false (kind_node_ne _ _) h.kind_ne
  | trim => exact iff_of_false (by simp) (by simp)

theorem Simplified.kind_iff (h : Simplified K n n') : n'.kind = .methodDecl ↔ n.kind = .methodDecl := by
  induction h with
  | refl => exact Iff.rfl
  | tail _ hstep ih => exact hstep.kind_iff.trans ih

/-- Steps keep such a property. -/
theorem Simplifies.everywhere {P : Node → Prop} (hK : Constant.Closed K) (hP : Kept K P) (h : Simplifies K n n')
    (hn : n.Everywhere P) : n'.Everywhere P := by
  induction h with
  | @child kind attributes before after p c c' h ih =>
    have hshrinks : Shrinks kind (before ++ c :: after) (before ++ c' :: after) := by
      refine ⟨.inl (by simp), fun d hd hnested => ?_⟩
      rw [List.mem_append, List.mem_cons] at hd
      rcases hd with hd | rfl | hd
      · exact ⟨d, by simp [hd], hnested⟩
      · exact ⟨c, by simp, h.kind_iff.1 hnested⟩
      · exact ⟨d, by simp [hd], hnested⟩
    refine .intro (hP.children _ _ _ _ _ hshrinks hn.here) fun d hd hnested => ?_
    simp only [List.mem_append, List.mem_cons] at hd
    rcases hd with hd | rfl | hd
    · exact hn.child (by simp [hd]) hnested
    · have hc : c.kind ≠ .methodDecl := fun hc => hnested (h.kind_iff.2 hc)
      exact ih (hn.child (by simp) hc)
    · exact hn.child (by simp [hd]) hnested
  | read attributes children p hc => exact hP.everywhere_node hc p
  | reduce h => exact hP.everywhere_node (h.holds hK (hn.imp hP.holds)) _
  | trim attributes condition body next rest p =>
    have hmem : ∀ d ∈ [condition, body], d ∈ condition :: body :: next :: rest := by simp
    have hshrinks : Shrinks .whileStmt (condition :: body :: next :: rest) [condition, body] :=
      ⟨.inr ⟨rfl, rfl, by simp⟩, fun d hd hnested => ⟨d, hmem d hd, hnested⟩⟩
    exact .intro (hP.children _ _ _ _ _ hshrinks hn.here) fun d hd hnested => hn.child (hmem d hd) hnested

theorem Simplified.everywhere {P : Node → Prop} (hK : Constant.Closed K) (hP : Kept K P) (h : Simplified K n n')
    (hn : n.Everywhere P) : n'.Everywhere P := by
  induction h with
  | refl => exact hn
  | tail _ hstep ih => exact hstep.everywhere hK hP ih

end Node

namespace Bindings
variable {K : Constant → Prop} {b b' : Bindings} {name : String} {value : Node}

/-- The literals that variables are known to hold are of a kind. -/
def Holds (K : Constant → Prop) (b : Bindings) : Prop := ∀ e ∈ b.entries, e.2.Holds K

theorem holds_empty : Holds K {} := by simp [Holds]

theorem mem_insertEntry {es : List (String × Node)} {e : String × Node}
    (h : e ∈ Assoc.insertEntry name value es) : e = (name, value) ∨ e ∈ es := by
  induction es with
  | nil => simpa [Assoc.insertEntry] using h
  | cons d es ih =>
    rw [Assoc.insertEntry] at h
    split at h
    · exact (List.mem_cons.1 h).imp_right (List.mem_cons_of_mem _)
    · rcases List.mem_cons.1 h with rfl | h
      · exact .inr List.mem_cons_self
      · exact (ih h).imp_right (List.mem_cons_of_mem _)

theorem Holds.erase (h : b.Holds K) (name : String) : Holds K (b.erase name) := fun e he =>
  h e (List.mem_of_mem_filter he)

theorem Holds.eraseAll (h : b.Holds K) (names : List String) : Holds K (b.eraseAll names) := by
  induction names generalizing b with
  | nil => exact h
  | cons name names ih => exact ih (h.erase name)

theorem Holds.merge (h : b.Holds K) (b' : Bindings) : Holds K (b.merge b') := fun e he =>
  h e (List.mem_of_mem_filter he)

theorem Holds.assign (h : b.Holds K) (hvalue : value.Holds K) (hassign : b.assign name value = .ok b') : b'.Holds K := by
  simp only [Bindings.assign, bind_eq_ok, pure_eq_ok] at hassign
  obtain ⟨c, -, rfl⟩ := hassign
  split
  · intro e he
    rcases mem_insertEntry he with rfl | he
    · exact hvalue
    · exact h e he
  · exact h.erase name

end Bindings

/-! ## Propagation -/

namespace Node
variable {K : Constant → Prop} {n n' root root' : Node} {cs cs' : List Node} {b b' : Bindings} {scope : List String}

theorem substituteAll_eq_mapM (b : Bindings) (cs : List Node) : substituteAll b cs = cs.mapM (·.substitute b) := by
  induction cs with
  | nil => rfl
  | cons c cs ih => rw [substituteAll, ih, List.mapM_cons]

theorem simplified_substitute (hb : b.Holds K) (h : n.substitute b = .ok n') : Simplified K n n' := by
  induction n using Node.induction_children generalizing n' with
  | step n ih =>
    obtain ⟨kind, attributes, children, p⟩ := n
    rw [substitute] at h
    by_cases hkind : kind = .varRef
    · subst hkind
      simp only [if_true, bind_eq_ok] at h
      obtain ⟨name, -, h⟩ := h
      split at h
      · obtain rfl := Except.ok.inj h
        exact .refl _
      · rename_i bound hbound
        rw [bind_eq_ok] at h
        obtain ⟨constant, hconstant, h⟩ := h
        split at h
        · obtain rfl := Except.ok.inj h
          exact .single (.read attributes children p (hb _ (Assoc.mem_of_findEntry hbound) _ hconstant))
        · cases h
    · simp only [hkind, if_false, bind_eq_ok, pure_eq_ok, substituteAll_eq_mapM] at h
      obtain ⟨children', hchildren, rfl⟩ := h
      exact .children (simplified_of_mapM hchildren fun c hc c' hc' => ih c hc hc') _ _ _

/-- What is known of a statement: it is simplified, and the bindings after it hold constants of the kind. -/
def Propagates (K : Constant → Prop) (scope : List String) (n : Node) : Prop :=
  ∀ ⦃b : Bindings⦄, b.Holds K → ∀ n' b', propagateStatement scope b n = .ok (n', b') → Simplified K n n' ∧ Bindings.Holds K b'

theorem propagates_sequence (hcs : ∀ n ∈ cs, n.Propagates K scope) (hb : b.Holds K)
    (h : propagateSequence scope b cs = .ok (cs', b')) : List.Forall₂ (Simplified K) cs cs' ∧ Bindings.Holds K b' := by
  induction cs generalizing b cs' b' with
  | nil =>
    obtain ⟨rfl, rfl⟩ := Prod.mk.inj (Except.ok.inj h)
    exact ⟨.nil, hb⟩
  | cons n cs ih =>
    simp only [propagateSequence, bind_eq_ok, pure_eq_ok, Prod.mk.injEq] at h
    obtain ⟨first, hfirst, rest, hrest, rfl, rfl⟩ := h
    obtain ⟨hn, hb₁⟩ := hcs n (by simp) hb _ _ hfirst
    obtain ⟨hmore, hb₂⟩ := ih (fun n hn => hcs n (by simp [hn])) hb₁ hrest
    exact ⟨.cons hn hmore, hb₂⟩

theorem propagates_branches {results : List (Node × Bindings)} (hcs : ∀ n ∈ cs, n.Propagates K scope) (hb : b.Holds K)
    (h : propagateBranches scope b cs = .ok results) :
    List.Forall₂ (Simplified K) cs (results.map (·.1)) ∧ ∀ r ∈ results, Bindings.Holds K r.2 := by
  induction cs generalizing results with
  | nil =>
    obtain rfl := Except.ok.inj h
    exact ⟨.nil, by simp⟩
  | cons n cs ih =>
    simp only [propagateBranches, bind_eq_ok, pure_eq_ok] at h
    obtain ⟨first, hfirst, rest, hrest, rfl⟩ := h
    obtain ⟨hn, hb₁⟩ := hcs n (by simp) hb _ _ hfirst
    obtain ⟨hmore, hb₂⟩ := ih (fun n hn => hcs n (by simp [hn])) hrest
    exact ⟨.cons hn hmore, List.forall_mem_cons.2 ⟨hb₁, hb₂⟩⟩

theorem propagates_methodDecl (hkind : n.kind = .methodDecl) : n.Propagates K scope := by
  intro b hb n' b' h
  obtain ⟨kind, attributes, children, p⟩ := n
  obtain rfl : kind = .methodDecl := hkind
  obtain ⟨rfl, rfl⟩ := Prod.mk.inj (Except.ok.inj h)
  exact ⟨.refl _, hb⟩

/-- An assignment: what a variable is known to be behind it is of the kind. -/
theorem propagates_assign (hK : Constant.Closed K) {attributes : Assoc Attribute} {target value : Node} {p : Position}
    (hn : Node.Everywhere (Holds K) ⟨.assign, attributes, [target, value], p⟩) :
    Node.Propagates K scope ⟨.assign, attributes, [target, value], p⟩ := by
  intro b hb n' b' h
  simp only [propagateStatement.eq_def, bind_eq_ok] at h
  obtain ⟨substituted, hsubstituted, folded, hfolded, h⟩ := h
  have hvalue : Simplified K value folded := (simplified_substitute hb hsubstituted).trans (simplified_fold hfolded)
  split at h
  · simp only [bind_eq_ok, pure_eq_ok, Prod.mk.injEq] at h
    obtain ⟨target', htarget, rfl, rfl⟩ := h
    exact ⟨.children (.cons (simplified_substitute hb htarget) (.cons hvalue .nil)) _ _ _, hb⟩
  simp only [bind_eq_ok] at h
  obtain ⟨name, -, h⟩ := h
  have hparts : Simplified K ⟨.assign, attributes, [target, value], p⟩ ⟨.assign, attributes, [target, folded], p⟩ :=
    .children (.cons (.refl _) (.cons hvalue .nil)) _ _ _
  split at h
  · have hholds : folded.Holds K := by
      by_cases hkind : value.kind = .methodDecl
      · intro c hc
        have hfolded := kind_of_constant? hc
        simp [hvalue.kind_iff.2 hkind] at hfolded
      · exact (hvalue.everywhere hK kept_holds (hn.child (by simp) hkind)).here
    simp only [bind_eq_ok, pure_eq_ok, Prod.mk.injEq] at h
    obtain ⟨b₁, hassign, rfl, rfl⟩ := h
    exact ⟨hparts, hb.assign hholds hassign⟩
  · obtain ⟨rfl, rfl⟩ := Prod.mk.inj (Except.ok.inj h)
    exact ⟨hparts, hb⟩

/-- Propagation simplifies a statement whose literals are of the kind. -/
theorem propagates (hK : Constant.Closed K) (hn : n.Everywhere (Holds K)) : n.Propagates K scope := by
  induction n using Node.induction_children with
  | step n ih =>
    have hbelow (c : Node) (hc : c ∈ n.children) : c.Propagates K scope := by
      by_cases hkind : c.kind = .methodDecl
      · exact propagates_methodDecl hkind
      · exact ih c hc (hn.child hc hkind)
    intro b hb n' b' h
    obtain ⟨kind, attributes, children, p⟩ := n
    rw [propagateStatement.eq_def] at h
    cases kind with
    | assign =>
      rcases children with _ | ⟨target, _ | ⟨value, _ | ⟨_, _⟩⟩⟩
      · cases h
      · cases h
      · exact propagates_assign hK hn hb n' b' h
      · cases h
    | arrayAssign =>
      simp only [bind_eq_ok, pure_eq_ok, Prod.mk.injEq] at h
      obtain ⟨substituted, hsubstituted, rfl, rfl⟩ := h
      exact ⟨simplified_substitute hb hsubstituted, hb⟩
    | exprStmt =>
      simp only [bind_eq_ok, pure_eq_ok, Prod.mk.injEq] at h
      obtain ⟨substituted, hsubstituted, rfl, rfl⟩ := h
      exact ⟨simplified_substitute hb hsubstituted, hb⟩
    | returnStmt =>
      simp only [bind_eq_ok, pure_eq_ok, Prod.mk.injEq] at h
      obtain ⟨substituted, hsubstituted, rfl, rfl⟩ := h
      exact ⟨simplified_substitute hb hsubstituted, hb⟩
    | block =>
      simp only [bind_eq_ok, pure_eq_ok, Prod.mk.injEq] at h
      obtain ⟨⟨children', b₁⟩, hchildren, rfl, rfl⟩ := h
      obtain ⟨hparts, hb₁⟩ := propagates_sequence hbelow hb hchildren
      exact ⟨.children hparts _ _ _, hb₁⟩
    | ifStmt =>
      rcases children with _ | ⟨condition, branches⟩
      · cases h
      simp only [bind_eq_ok] at h
      obtain ⟨condition', hcondition, results, hresults, h⟩ := h
      obtain ⟨hparts, hbs⟩ := propagates_branches (fun n hn => hbelow n (by simp [hn])) hb hresults
      have hall := List.Forall₂.cons (simplified_substitute hb hcondition) hparts
      split at h
      · obtain ⟨rfl, rfl⟩ := Prod.mk.inj (Except.ok.inj h)
        exact ⟨.children hall _ _ _, (hbs _ List.mem_cons_self).merge _⟩
      · obtain ⟨rfl, rfl⟩ := Prod.mk.inj (Except.ok.inj h)
        exact ⟨.children hall _ _ _, (hbs _ List.mem_cons_self).merge _⟩
      · cases h
    | whileStmt =>
      simp only [bind_eq_ok] at h
      obtain ⟨assigned, -, h⟩ := h
      have hb₁ : Bindings.Holds K (b.eraseAll assigned) := hb.eraseAll assigned
      rcases children with _ | ⟨condition, _ | ⟨body, rest⟩⟩
      · cases h
      · simp only [bind_eq_ok] at h
        obtain ⟨_, -, h⟩ := h
        cases h
      · simp only [bind_eq_ok, pure_eq_ok, Prod.mk.injEq] at h
        obtain ⟨condition', hcondition, ⟨body', b₂⟩, hbody, rfl, rfl⟩ := h
        have htrimmed : Simplified K ⟨.whileStmt, attributes, condition :: body :: rest, p⟩
            ⟨.whileStmt, attributes, [condition, body], p⟩ := by
          rcases rest with _ | ⟨next, rest⟩
          · exact .refl _
          · exact .single (.trim attributes condition body next rest p)
        have hbody' := (hbelow body (by simp) hb₁ _ _ hbody).1
        exact ⟨htrimmed.trans (.children (.cons (simplified_substitute hb₁ hcondition) (.cons hbody' .nil)) _ _ _), hb₁⟩
    | _ =>
      obtain ⟨rfl, rfl⟩ := Prod.mk.inj (Except.ok.inj h)
      exact ⟨.refl _, hb⟩

theorem everywhere_any (n : Node) : n.Everywhere (Holds AnyConstant) := .of_forall (fun _ _ _ => trivial) n

theorem simplified_propagateMethod (hK : Constant.Closed K) (hn : n.Everywhere (Holds K)) (h : n.propagateMethod = .ok n') :
    ∃ cs, n' = n.withChildren cs ∧ List.Forall₂ (Simplified K) n.children cs := by
  simp only [propagateMethod, bind_eq_ok, pure_eq_ok] at h
  obtain ⟨scope, -, ⟨children, b⟩, hchildren, rfl⟩ := h
  have hbelow (c : Node) (hc : c ∈ n.children) : c.Propagates K scope := by
    by_cases hkind : c.kind = .methodDecl
    · exact propagates_methodDecl hkind
    · exact propagates hK (hn.child hc hkind)
  exact ⟨children, rfl, (propagates_sequence hbelow Bindings.holds_empty hchildren).1⟩

end Node
end JmmCompiler

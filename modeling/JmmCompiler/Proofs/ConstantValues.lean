import JmmCompiler.Proofs.PlainEvaluation
import JmmCompiler.Proofs.Simplifying
/-! The values of constants. An expression keeps its value when constants are put in the place of variables that hold
them, and when it is folded. -/
namespace JmmCompiler

/-- The value that a constant stands for. -/
def Constant.value : Constant → Value
  | int n => .int n
  | bool b => .ofBool b

theorem Act.truth_ofBool {W : Type} (b : Bool) : (Act.truth (.ofBool b) : Act W Bool) = pure b := by cases b <;> rfl

/-- What an operator is at compile time it is at run time. -/
theorem Operator.apply_value {W : Type} {o : Operator} {a b c : Constant} (h : o.evaluate? a b = some c) :
    (o.apply a.value b.value : Act W Value) = pure c.value := by
  cases o with
  | arithmetic op =>
    cases a <;> cases b <;> try cases h
    obtain ⟨n, hn, rfl⟩ := Option.map_eq_some_iff.1 h
    simp [Constant.value, apply, hn]
  | comparison op =>
    cases a with
    | int a =>
      cases b with
      | int b =>
        obtain rfl : Constant.bool (op.holds a b) = c := by cases op <;> exact Option.some.inj h
        cases op <;> rfl
      | bool b => cases op <;> cases h
    | bool a =>
      cases b with
      | int b => cases op <;> cases h
      | bool b =>
        cases op <;> try cases h
        · cases a <;> cases b <;> rfl
        · cases a <;> cases b <;> rfl
  | logical op =>
    cases a with
    | int a => cases op <;> cases h
    | bool a =>
      cases b with
      | int b => cases op <;> cases h
      | bool b =>
        cases op with
        | and =>
          obtain rfl := Option.some.inj h
          simp [Constant.value, apply, Act.truth_ofBool]
        | or =>
          obtain rfl := Option.some.inj h
          simp [Constant.value, apply, Act.truth_ofBool]

namespace SymbolTable
variable {t : SymbolTable} {method : String} {W : Type} {ask : Query → Act W Value} {store : Store} {n n' c c' : Node}
  {cs cs' : List Node}

/-! ## Parts -/

variable (t method) in
/-- A receiver names a class where another does, and then the same one. -/
def NamesSame (c c' : Node) : Prop :=
  t.isClassName method c' = t.isClassName method c ∧ (t.isClassName method c = true → c'.name = c.name)

theorem isClassName_of_kind_ne (h : c.kind ≠ .varRef) : t.isClassName method c = false := by
  unfold isClassName
  split
  · simp [h]
  · rfl

theorem NamesSame.of_kind_ne (h : c.kind ≠ .varRef) (h' : c'.kind ≠ .varRef) : t.NamesSame method c c' := by
  rw [NamesSame, isClassName_of_kind_ne h, isClassName_of_kind_ne h']
  exact ⟨rfl, nofun⟩

theorem NamesSame.refl (c : Node) : t.NamesSame method c c := ⟨rfl, fun _ => rfl⟩

variable (t method ask store) in
/-- A part of an expression that may take the place of another. -/
structure SameValue (c c' : Node) : Prop where
  names : t.NamesSame method c c'
  value : t.plainEval method ask store c' = t.plainEval method ask store c

theorem SameValue.map_eq (h : List.Forall₂ (t.SameValue method ask store) cs cs') :
    cs'.map (t.plainEval method ask store) = cs.map (t.plainEval method ask store) := by
  induction h with
  | nil => rfl
  | cons hc _ ih => rw [List.map_cons, List.map_cons, hc.value, ih]

/-- An expression whose parts are replaced by others with the same values has the same value. -/
theorem plainEval_children {kind : Kind} {attributes : Assoc Attribute} {p : Position}
    (h : List.Forall₂ (t.SameValue method ask store) cs cs') :
    t.plainEval method ask store ⟨kind, attributes, cs', p⟩ = t.plainEval method ask store ⟨kind, attributes, cs, p⟩ := by
  rw [plainEval_eq, plainEval_eq, SameValue.map_eq h]
  cases kind with
  | call =>
    cases h with
    | nil => rfl
    | @cons receiver receiver' args args' hreceiver hargs =>
      obtain ⟨hclass, hname⟩ := hreceiver.names
      have hcalled : Node.name? ⟨.call, attributes, receiver' :: args', p⟩ =
        Node.name? ⟨.call, attributes, receiver :: args, p⟩ := rfl
      simp only [List.map_cons, plainValueOf, hcalled, hclass]
      split
      · rename_i himport
        rw [hname himport]
      · rfl
  | arrayLiteral => rfl
  | _ =>
    generalize cs.map (t.plainEval method ask store) = parts
    rcases parts with _ | ⟨_, _ | ⟨_, _⟩⟩ <;> rfl

/-! ## Constants -/

/-- A literal has the value of the constant that it stands for. -/
theorem plainEval_constant {constant : Constant} (h : n.constant? = .ok (some constant)) :
    t.plainEval method ask store n = pure constant.value := by
  obtain ⟨kind, attributes, children, p⟩ := n
  rw [plainEval_eq]
  unfold Node.constant? at h
  split at h
  · rename_i hkind
    obtain rfl : kind = .intLiteral := hkind
    simp only [bind_eq_ok] at h
    obtain ⟨value, hvalue, h⟩ := h
    split at h
    · rename_i i hi
      obtain rfl := Option.some.inj (Except.ok.inj h)
      simp [plainValueOf, valueOf, hvalue, hi, Constant.value]
    · cases h
  · rename_i hkind
    obtain rfl : kind = .boolLiteral := hkind
    simp only [bind_eq_ok, pure_eq_ok] at h
    obtain ⟨value, hvalue, h⟩ := h
    obtain rfl := Option.some.inj h
    simp [plainValueOf, valueOf, hvalue, Constant.value]
  · cases h

theorem plainEval_node (constant : Constant) (p : Position) :
    t.plainEval method ask store (constant.node p) = pure constant.value := plainEval_constant (Node.constant?_node constant p)

/-- An expression over literals has the value that it reduces to. -/
theorem plainEval_reduces {constant : Constant} (h : n.Reduces constant) :
    t.plainEval method ask store n = pure constant.value := by
  rw [plainEval_eq]
  cases h with
  | paren hinner =>
    simp only [List.map_cons, plainEval_constant hinner]
    rfl
  | not hop hoperand =>
    simp only [List.map_cons, plainEval_constant hoperand]
    simp [plainValueOf, valueOf, hop, Constant.value, Act.truth_ofBool]
  | @binary attributes left right rest p op a b c hop hleft hright hvalue =>
    obtain ⟨o, ho, hvalue⟩ := Option.bind_eq_some_iff.1 hvalue
    simp only [List.map_cons, plainEval_constant hleft, plainEval_constant hright]
    by_cases hand : op = "&&"
    · subst hand
      obtain rfl : Operator.logical .and = o := Option.some.inj ho
      cases a with
      | int a => cases hvalue
      | bool a =>
        cases b with
        | int b => cases hvalue
        | bool b =>
          obtain rfl := Option.some.inj hvalue
          cases a <;> simp [plainValueOf, valueOf, hop, Constant.value, Act.truth_ofBool]
    · simp [plainValueOf, valueOf, hop, hand, ho, Operator.apply_value hvalue]

theorem kind_node_ne_varRef (constant : Constant) (p : Position) : (constant.node p).kind ≠ .varRef := by
  cases constant <;> simp [Constant.node]

/-- Parts that are computed one by one and may take the places of the others. -/
theorem sameValue_of_mapM {f : Node → Except Failure Node} (h : cs.mapM f = .ok cs')
    (hf : ∀ c ∈ cs, ∀ c', f c = .ok c' → t.SameValue method ask store c c') (kind : Kind) (attributes : Assoc Attribute)
    (p : Position) : t.SameValue method ask store ⟨kind, attributes, cs, p⟩ ⟨kind, attributes, cs', p⟩ :=
  ⟨⟨rfl, fun _ => rfl⟩, plainEval_children
    (((List.forall₂_and_left cs cs').2 ⟨hf, mapM_eq_ok_iff.1 h⟩).imp fun _ c' hc => hc.1 c' hc.2)⟩

/-- Folding keeps the value of an expression. -/
theorem sameValue_fold (h : n.fold = .ok n') : t.SameValue method ask store n n' := by
  induction n using Node.induction_children generalizing n' with
  | step n ih =>
    obtain ⟨kind, attributes, children, p⟩ := n
    rw [Node.fold, Node.foldAll_eq_mapM, bind_eq_ok] at h
    obtain ⟨children', hchildren, h⟩ := h
    have hparts : t.SameValue method ask store ⟨kind, attributes, children, p⟩ ⟨kind, attributes, children', p⟩ :=
      sameValue_of_mapM hchildren (fun c hc c' hc' => ih c hc hc') kind attributes p
    rcases Node.foldTop_cases h with ⟨rfl, -⟩ | ⟨c, hc, rfl⟩
    · exact hparts
    · refine ⟨.of_kind_ne (fun hkind => ?_) (kind_node_ne_varRef c _), ?_⟩
      · obtain rfl : kind = .varRef := hkind
        cases hc
      · rw [plainEval_node, ← plainEval_reduces hc, hparts.value]

/-- Constants in the place of variables that hold them. -/
theorem sameValue_substitute {b : Bindings} (hbound : ∀ e ∈ b.entries, (t.binding? method e.1).isSome = true)
    (hheld : ∀ e ∈ b.entries, ∀ c, e.2.constant? = .ok (some c) → store.vars e.1 = c.value) (h : n.substitute b = .ok n') :
    t.SameValue method ask store n n' := by
  induction n using Node.induction_children generalizing n' with
  | step n ih =>
    obtain ⟨kind, attributes, children, p⟩ := n
    rw [Node.substitute] at h
    by_cases hkind : kind = .varRef
    · subst hkind
      simp only [if_true, bind_eq_ok] at h
      obtain ⟨name, hname, h⟩ := h
      split at h
      · obtain rfl := Except.ok.inj h
        exact ⟨.refl _, rfl⟩
      · rename_i bound hfound
        rw [bind_eq_ok] at h
        obtain ⟨constant, hconstant, h⟩ := h
        split at h
        · rename_i c
          obtain rfl := Except.ok.inj h
          have hmem := Assoc.mem_of_findEntry hfound
          have hisBound : (t.binding? method name).isSome = true := hbound _ hmem
          have hclass : t.isClassName method ⟨.varRef, attributes, children, p⟩ = false := by
            obtain ⟨v, hv⟩ := Option.isSome_iff_exists.1 hisBound
            simp [isClassName, hname, hv]
          refine ⟨⟨?_, fun hnamed => ?_⟩, ?_⟩
          · rw [hclass, isClassName_of_kind_ne (kind_node_ne_varRef c p)]
          · rw [hclass] at hnamed
            cases hnamed
          · rw [plainEval_node, plainEval_eq, ← hheld _ hmem c hconstant]
            simp [plainValueOf, valueOf, readVariable, hname, hisBound]
        · cases h
    · simp only [hkind, if_false, bind_eq_ok, pure_eq_ok, Node.substituteAll_eq_mapM] at h
      obtain ⟨children', hchildren, rfl⟩ := h
      exact sameValue_of_mapM hchildren (fun c hc c' hc' => ih c hc hc') kind attributes p

end SymbolTable
end JmmCompiler

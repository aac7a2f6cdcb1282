import JmmCompiler.Lowering.Statement
import JmmCompiler.Proofs.Freshness
import JmmCompiler.Proofs.Machine
import JmmCompiler.Proofs.Subtrees
import Mathlib.Data.List.Perm.Basic
import Mathlib.Tactic.Tauto
/-! Numbers of labels. Every label carries the number of the construct that it was made for, and a construct
takes its number before those inside it take theirs. A sequence of instructions is labelled with a range of
numbers; sequences with ranges one after the other have no label in common. -/
namespace JmmCompiler

/-! ## Failures -/

/-- A stage that does not fail because of a label that comes twice. -/
def Undoubled {α : Type} (x : Except Failure α) : Prop := ∀ l, x ≠ .error (.duplicateLabel l)

section
variable {α β : Type}

theorem undoubled_ok (a : α) : Undoubled (.ok a) := by simp [Undoubled]

theorem undoubled_pure (a : α) : Undoubled (pure a) := undoubled_ok a

theorem undoubled_throw {e : Failure} (h : ∀ l, e ≠ .duplicateLabel l) :
    Undoubled (throw e : Except Failure α) := by
  intro l heq
  exact h l (Except.error.inj heq)

theorem Undoubled.bind {x : Except Failure α} {f : α → Except Failure β} (hx : Undoubled x)
    (hf : ∀ a, x = .ok a → Undoubled (f a)) : Undoubled (x >>= f) := by
  cases x with
  | error e => exact undoubled_throw fun l heq => hx l (congrArg Except.error heq)
  | ok a => exact hf a rfl

end

namespace Node

theorem undoubled_required (n : Node) (key : String) : Undoubled (n.required key) := by
  unfold required
  split
  · exact undoubled_ok _
  · exact undoubled_throw (by simp)

theorem undoubled_text (n : Node) (key : String) : Undoubled (n.text key) := by
  refine (n.undoubled_required key).bind fun a _ => ?_
  split
  · exact undoubled_pure _
  · exact undoubled_throw (by simp)

theorem undoubled_word (n : Node) (key : String) : Undoubled (n.word key) := by
  refine (n.undoubled_required key).bind fun a _ => ?_
  split
  · exact undoubled_throw (by simp)
  · exact undoubled_throw (by simp)
  · exact undoubled_pure _

theorem undoubled_name (n : Node) : Undoubled n.name := n.undoubled_word "name"

theorem undoubled_op (n : Node) : Undoubled n.op := n.undoubled_word "op"

theorem undoubled_name? (n : Node) : Undoubled n.name? := by
  refine (n.undoubled_required "name").bind fun a _ => ?_
  split
  · exact undoubled_pure _
  · rw [map_eq_pure_bind]
    exact n.undoubled_name.bind fun _ _ => undoubled_pure _

theorem undoubled_child (n : Node) (i : Nat) : Undoubled (n.child i) := by
  unfold child
  split
  · exact undoubled_ok _
  · exact undoubled_throw (by simp)

theorem undoubled_classDecl (n : Node) : Undoubled n.classDecl := by
  unfold classDecl
  split
  · exact undoubled_ok _
  · split
    · exact undoubled_ok _
    · exact undoubled_throw (by simp)

end Node

namespace Element

theorem undoubled_type (e : Element) : Undoubled e.type := by
  cases e with
  | absent => exact undoubled_throw (by simp)
  | _ => exact undoubled_ok _

theorem undoubled_name (e : Element) : Undoubled e.name := by
  cases e with
  | literal n type => exact undoubled_throw (by simp)
  | absent => exact undoubled_throw (by simp)
  | _ => exact undoubled_ok _

end Element

namespace SymbolTable
variable (t : SymbolTable)

theorem undoubled_typeOf (method : Option String) (n : Node) : Undoubled (t.typeOf method n) := by
  induction n using Node.induction_children with
  | step n ih =>
    obtain ⟨kind, attributes, children, position⟩ := n
    have hfirst (c : Node) (rest : List Node) (h : children = c :: rest) : Undoubled (t.typeOf method c) :=
      ih c (by simp [h])
    unfold typeOf
    cases kind with
    | binary =>
      refine (Node.undoubled_op _).bind fun op _ => ?_
      split
      · exact undoubled_pure _
      · exact undoubled_throw (by simp)
    | paren =>
      cases children with
      | nil => exact undoubled_throw (by simp)
      | cons inner rest => exact hfirst inner rest rfl
    | varRef => exact (Node.undoubled_name _).bind fun _ _ => undoubled_pure _
    | newObject => exact (Node.undoubled_text _ _).bind fun _ _ => undoubled_pure _
    | newArray => exact (Node.undoubled_name _).bind fun _ _ => undoubled_pure _
    | arrayLiteral =>
      dsimp only
      split
      · cases children with
        | nil => exact undoubled_pure _
        | cons first rest => exact (hfirst first rest rfl).bind fun _ _ => undoubled_pure _
      · cases children with
        | nil => exact undoubled_pure _
        | cons first rest => exact (hfirst first rest rfl).bind fun _ _ => undoubled_pure _
      · exact (Node.undoubled_word _ _).bind fun _ _ => undoubled_pure _
    | arrayAccess =>
      cases children with
      | nil => exact undoubled_throw (by simp)
      | cons array rest => exact (hfirst array rest rfl).bind fun _ _ => undoubled_pure _
    | call =>
      refine (Node.undoubled_name _).bind fun name _ => ?_
      dsimp only
      split
      · exact undoubled_pure _
      · cases children with
        | nil => exact undoubled_throw (by simp)
        | cons receiver rest =>
          dsimp only
          split
          · exact undoubled_pure _
          · refine (hfirst receiver rest rfl).bind fun _ _ => ?_
            split
            · exact undoubled_pure _
            · exact undoubled_pure _
    | _ => first | exact undoubled_pure _ | exact undoubled_throw (by simp)

theorem undoubled_method (name : String) : Undoubled (t.method name) := by
  unfold method
  split
  · exact undoubled_ok _
  · exact undoubled_throw (by simp)

theorem undoubled_isOwnCall (method : Option String) (name : String) (receiver : Node) :
    Undoubled (t.isOwnCall method name receiver) := by
  unfold isOwnCall isOwnReceiver
  split
  · split
    · exact undoubled_pure _
    · exact (t.undoubled_typeOf method receiver).bind fun _ _ => undoubled_pure _
  · exact undoubled_pure _

theorem undoubled_isClassReceiver (method : String) (receiver : Node) :
    Undoubled (t.isClassReceiver method receiver) := by
  unfold isClassReceiver
  split
  · exact undoubled_pure _
  · exact receiver.undoubled_name.bind fun _ _ => undoubled_pure _

theorem undoubled_operandHint (method op : String) (other : Node) :
    Undoubled (t.operandHint method op other) := by
  unfold operandHint
  split
  · exact undoubled_pure _
  · exact (t.undoubled_typeOf method other).bind fun _ _ => undoubled_pure _

theorem undoubled_literalElement? (n : Node) : Undoubled (literalElement? n) := by
  unfold literalElement?
  split
  · refine (n.undoubled_required "value").bind fun a _ => ?_
    split
    · exact undoubled_pure _
    · exact undoubled_throw (by simp)
  · exact (n.undoubled_required "value").bind fun a _ => undoubled_pure _
  · exact undoubled_pure _

theorem undoubled_selfUpdate? (name : String) (type : Ty) (value : Node) :
    Undoubled (selfUpdate? name type value) := by
  unfold selfUpdate?
  split
  · exact undoubled_pure _
  refine value.undoubled_op.bind fun op _ => ?_
  split
  · exact undoubled_pure _
  · exact undoubled_pure _
  · split
    · split
      · exact undoubled_pure _
      refine (Node.undoubled_name _).bind fun other _ => ?_
      split
      · exact undoubled_pure _
      · exact (undoubled_literalElement? _).bind fun _ _ => undoubled_pure _
    · exact undoubled_throw (by simp)

end SymbolTable

/-! ## Label numbers of a lowering -/

namespace Lower
variable {α β : Type} {k : Nat}

/-- From the names whose next label number is `k`, a lowering gives what is asked for, or it fails for
another reason than a label that comes twice. -/
def From (k : Nat) (x : Lower α) (P : α → Nat → Prop) : Prop :=
  ∀ ns, ns.nextLabel = k →
    match x.run ns with
    | .ok (a, ns') => P a ns'.nextLabel
    | .error e => ∀ l, e ≠ .duplicateLabel l

variable {x : Lower α} {f : α → Lower β} {P : α → Nat → Prop} {Q : β → Nat → Prop}

theorem From.pure {a : α} (h : P a k) : From k (Pure.pure a) P := by
  rintro ns rfl
  exact h

theorem From.throw {e : Failure} (h : ∀ l, e ≠ .duplicateLabel l) : From k (throw e) P := fun _ _ => h

theorem From.bind (hx : From k x P) (hf : ∀ a k', P a k' → From k' (f a) Q) : From k (x >>= f) Q := by
  intro ns hk
  have hfirst := hx ns hk
  rw [StateT.run_bind]
  cases hrun : x.run ns with
  | error e =>
    rw [hrun] at hfirst
    exact hfirst
  | ok r =>
    rw [hrun] at hfirst
    exact hf r.1 r.2.nextLabel hfirst r.2 rfl

theorem From.imp {P' : α → Nat → Prop} (hx : From k x P) (h : ∀ a k', P a k' → P' a k') : From k x P' := by
  intro ns hk
  have hfirst := hx ns hk
  cases hrun : x.run ns with
  | error e =>
    rw [hrun] at hfirst
    exact hfirst
  | ok r =>
    rw [hrun] at hfirst
    exact h _ _ hfirst

theorem From.lift {y : Except Failure α} (hy : Undoubled y) (h : ∀ a, y = .ok a → P a k) :
    From k (liftM y) P := by
  rintro ns rfl
  cases y with
  | error e => exact fun l heq => hy l (congrArg Except.error heq)
  | ok a => exact h a rfl

theorem From.known {y : Except Failure α} (hy : Undoubled y) (hf : ∀ a, y = .ok a → From k (f a) Q) :
    From k (liftM y >>= f) Q :=
  From.bind (P := fun a k' => y = .ok a ∧ k' = k) (.lift hy fun _ ha => ⟨ha, rfl⟩) fun a k' ha => by
    obtain ⟨ha, rfl⟩ := ha
    exact hf a ha

/-- What follows when a question is answered that is asked in some cases only. -/
theorem From.flag {y : Except Failure α} (hy : Undoubled y) {asks : Prop} [Decidable asks] {answer : α → Bool}
    {rest : Bool → Lower β} (h : ∀ b, From k (rest b) Q) :
    From k (if asks then do
        let a ← y
        let b ← Pure.pure (answer a)
        rest b
      else do
        let b ← Pure.pure false
        rest b) Q := by
  split
  · exact .known hy fun a _ => h _
  · exact h _

theorem from_temp : From k temp fun _ k' => k' = k := by
  rintro ns rfl
  rfl

theorem from_label : From k label fun n k' => n = k ∧ k' = k + 1 := by
  rintro ns rfl
  exact ⟨rfl, rfl⟩

end Lower

/-! ## Labels of a sequence -/

/-- The labels that stand in a sequence of instructions. -/
def labelsOf (is : List Instruction) : List String :=
  is.filterMap fun
    | .label name => some name
    | _ => none

@[simp] theorem labelsOf_nil : labelsOf [] = [] := rfl

@[simp] theorem labelsOf_append (is js : List Instruction) : labelsOf (is ++ js) = labelsOf is ++ labelsOf js :=
  List.filterMap_append

/-- What labels are called before their number. -/
def labelStems : List String :=
  ["and_false_", "and_end_", "if_then_", "if_else_", "if_end_", "while_cond_", "while_body_", "while_end_"]

/-- The labels with a number. -/
def numbered (i : Nat) : List String := labelStems.map (· ++ toString i)

/-- The digits at the end of a label, the last one first. -/
def lastDigits (label : String) : List Char := label.toList.reverse.takeWhile Char.isDigit

theorem lastDigits_append {stem : String} (h : stem.toList.getLast? = some '_') (i : Nat) :
    lastDigits (stem ++ toString i) = (toString i).toList.reverse := by
  obtain ⟨front, hfront⟩ := List.getLast?_eq_some_iff.1 h
  have hdigits : ∀ c ∈ (toString i).toList.reverse, c.isDigit = true := by
    intro c hc
    have hc : c ∈ Nat.toDigits 10 i := by simpa using hc
    exact Nat.isDigit_of_mem_toDigits (by decide) (by decide) hc
  rw [lastDigits, String.toList_append, List.reverse_append, List.takeWhile_append_of_pos hdigits, hfront]
  simp

/-- The number of a label is read off it. -/
theorem eq_of_mem_numbered {i j : Nat} {label : String} (hi : label ∈ numbered i) (hj : label ∈ numbered j) :
    i = j := by
  obtain ⟨stem, hstem, rfl⟩ := List.mem_map.1 hi
  obtain ⟨stem', hstem', heq⟩ := List.mem_map.1 hj
  have hlast : ∀ stem ∈ labelStems, stem.toList.getLast? = some '_' := by decide
  have hdigits := congrArg lastDigits heq
  rw [lastDigits_append (hlast _ hstem'), lastDigits_append (hlast _ hstem), List.reverse_inj] at hdigits
  exact (Nat.repr_injective (String.toList_inj.1 hdigits)).symm

section
variable {k k' k'' : Nat} {xs ys : List String} (hxs : ∀ l ∈ xs, ∃ i, k ≤ i ∧ i < k' ∧ l ∈ numbered i)
  (hys : ∀ l ∈ ys, ∃ i, k' ≤ i ∧ i < k'' ∧ l ∈ numbered i)
include hxs hys

/-- Labels with numbers of their own are apart from those with later numbers. -/
theorem nodup_append_numbered (hx : xs.Nodup) (hy : ys.Nodup) : (xs ++ ys).Nodup := by
  refine hx.append hy fun l hl hl' => ?_
  obtain ⟨i, _, hi, hmem⟩ := hxs l hl
  obtain ⟨j, hj, _, hmem'⟩ := hys l hl'
  have := eq_of_mem_numbered hmem hmem'
  omega

theorem exists_numbered_append (hle : k ≤ k') (hle' : k' ≤ k'') :
    ∀ l ∈ xs ++ ys, ∃ i, k ≤ i ∧ i < k'' ∧ l ∈ numbered i := by
  intro l hl
  rcases List.mem_append.1 hl with hl | hl
  · obtain ⟨i, hi, hlt, hmem⟩ := hxs l hl
    exact ⟨i, hi, Nat.lt_of_lt_of_le hlt hle', hmem⟩
  · obtain ⟨i, hi, hlt, hmem⟩ := hys l hl
    exact ⟨i, Nat.le_trans hle hi, hlt, hmem⟩

end

/-- A sequence whose labels are distinct and have numbers from `k` up to below `k'`. Its jumps go to them or
to labels outside. -/
structure Labelled (k k' : Nat) (outside : List String) (is : List Instruction) : Prop where
  le : k ≤ k'
  nodup : (labelsOf is).Nodup
  mem : ∀ l ∈ labelsOf is, ∃ i, k ≤ i ∧ i < k' ∧ l ∈ numbered i
  jumps : ∀ i ∈ is, ∀ l, i.target? = some l → l ∈ labelsOf is ∨ l ∈ outside

namespace Labelled
variable {k k' k'' : Nat} {outside : List String} {is js : List Instruction}

theorem nil (k : Nat) (outside : List String) : Labelled k k outside [] :=
  ⟨Nat.le_refl k, List.nodup_nil, by simp, by simp⟩

/-- An instruction that is no label and does not jump. -/
theorem single {i : Instruction} (k : Nat) (hlabel : labelsOf [i] = []) (htarget : i.target? = none) :
    Labelled k k outside [i] :=
  ⟨Nat.le_refl k, by simp [hlabel], by simp [hlabel], by simp [htarget]⟩

theorem append (h : Labelled k k' outside is) (h' : Labelled k' k'' outside js) :
    Labelled k k'' outside (is ++ js) where
  le := Nat.le_trans h.le h'.le
  nodup := by
    rw [labelsOf_append]
    exact nodup_append_numbered h.mem h'.mem h.nodup h'.nodup
  mem := by
    rw [labelsOf_append]
    exact exists_numbered_append h.mem h'.mem h.le h'.le
  jumps := by
    intro i hi l hl
    rw [labelsOf_append, List.mem_append]
    rcases List.mem_append.1 hi with hi | hi
    · exact (h.jumps i hi l hl).imp_left .inl
    · exact (h'.jumps i hi l hl).imp_left .inr

theorem outside_mono (h : Labelled k k' outside is) {outside' : List String}
    (hsub : ∀ l ∈ outside, l ∈ outside') : Labelled k k' outside' is :=
  ⟨h.le, h.nodup, h.mem, fun i hi l hl => (h.jumps i hi l hl).imp_right (hsub l)⟩

/-- A construct that adds labels with its own number to what is inside it. -/
theorem enclose (own : List String) (inner : List Instruction) (h : Labelled (k + 1) k' (own ++ outside) inner)
    (hown : own.Nodup) (hnumber : ∀ l ∈ own, l ∈ numbered k) (hperm : (labelsOf is).Perm (own ++ labelsOf inner))
    (hjumps : ∀ i ∈ is, ∀ l, i.target? = some l → i ∈ inner ∨ l ∈ own ++ outside) : Labelled k k' outside is where
  le := Nat.le_of_succ_le h.le
  nodup := by
    refine hperm.nodup_iff.2 (hown.append h.nodup fun l hl hl' => ?_)
    obtain ⟨i, hi, -, hmem⟩ := h.mem l hl'
    have := eq_of_mem_numbered hmem (hnumber l hl)
    omega
  mem := by
    intro l hl
    rcases List.mem_append.1 (hperm.mem_iff.1 hl) with hl | hl
    · exact ⟨k, Nat.le_refl k, h.le, hnumber l hl⟩
    · obtain ⟨i, hi, hlt, hmem⟩ := h.mem l hl
      exact ⟨i, Nat.le_of_succ_le hi, hlt, hmem⟩
  jumps := by
    intro i hi l hl
    rw [hperm.mem_iff, List.mem_append]
    have hor : l ∈ labelsOf inner ∨ l ∈ own ++ outside :=
      (hjumps i hi l hl).elim (fun hinner => h.jumps i hinner l hl) .inr
    rw [List.mem_append] at hor
    tauto

end Labelled

/-- A labelled sequence that does not return. It is left at its end or for a label outside. -/
structure Straight (k k' : Nat) (outside : List String) (is : List Instruction) : Prop where
  labelled : Labelled k k' outside is
  stays : ∀ e type, .ret e type ∉ is

namespace Straight
variable {k k' k'' : Nat} {outside : List String} {is js : List Instruction}

theorem nil (k : Nat) (outside : List String) : Straight k k outside [] := ⟨.nil k outside, by simp⟩

/-- An instruction that is no label, does not jump and does not return. -/
theorem single {i : Instruction} (k : Nat) (hlabel : labelsOf [i] = []) (htarget : i.target? = none)
    (hreturn : ∀ e type, i ≠ .ret e type) : Straight k k outside [i] :=
  ⟨.single k hlabel htarget, fun e type hmem => hreturn e type (List.mem_singleton.1 hmem).symm⟩

theorem append (h : Straight k k' outside is) (h' : Straight k' k'' outside js) : Straight k k'' outside (is ++ js) :=
  ⟨h.labelled.append h'.labelled, fun e type hmem => (List.mem_append.1 hmem).elim (h.stays e type) (h'.stays e type)⟩

end Straight

end JmmCompiler

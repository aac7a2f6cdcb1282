import Mathlib
import JmmCompiler.Proofs.Gathering
import JmmCompiler.Proofs.Rewriting
import JmmCompiler.Proofs.ValidProgram
/-! Normal calls. Gathering arguments a second time changes nothing, and every expression keeps its type; in a program
that no check objects to, every call of a method of the class has one argument of a fitting type for each parameter. -/
namespace JmmCompiler

/-! ## Places -/

namespace Node
variable {root n c : Node} {i : Nat} {path : Path} {outer : Option String}

/-- The name of the method that the node at a path belongs to, where the tree is in a method itself. -/
def nameAt (outer : Option String) (root : Node) (path : Path) (n : Node) : Except Failure (Option String) :=
  match root.methodAt? path n with
  | some d => d.name?
  | none => .ok outer

theorem methodAt?_cons (hc : root.children[i]? = some c) : root.methodAt? (i :: path) n =
    (c.methodAt? path n).or (if root.kind = .methodDecl then some root else none) := by
  unfold methodAt?
  by_cases hn : n.kind = .methodDecl
  · simp [hn]
  · rw [if_neg hn, if_neg hn, ancestor?_map, ancestor?_map, above, hc, List.reverse_cons, List.find?_append]
    by_cases hroot : root.kind = .methodDecl <;> simp [hroot]

theorem nameBelow_self {below : Option String} (h : n.nameBelow outer = .ok below) : n.nameBelow below = .ok below := by
  unfold nameBelow at h ⊢
  split at h
  · rwa [if_pos ‹_›]
  · rw [if_neg ‹_›]

theorem nameAt_nil : nameAt outer n [] n = n.nameBelow outer := by
  unfold nameAt nameBelow methodAt?
  by_cases hn : n.kind = .methodDecl <;> simp [hn, ancestor?_map, above]

/-- Below a child the names are those of the child, in the method of its parent. -/
theorem nameAt_cons {below : Option String} (hc : root.children[i]? = some c) (hbelow : root.nameBelow outer = .ok below) :
    nameAt outer root (i :: path) n = nameAt below c path n := by
  unfold nameAt
  rw [methodAt?_cons hc]
  unfold nameBelow at hbelow
  cases c.methodAt? path n with
  | some d => rfl
  | none =>
    by_cases hroot : root.kind = .methodDecl
    · rw [if_pos hroot] at hbelow
      simpa [hroot] using hbelow
    · rw [if_neg hroot] at hbelow
      simpa [hroot] using hbelow

theorem exists_nameBelow (outer : Option String) (h : n.kind = .methodDecl → ∃ name, n.name? = .ok name) :
    ∃ below, n.nameBelow outer = .ok below := by
  unfold nameBelow
  split
  · exact h ‹_›
  · exact ⟨outer, rfl⟩

theorem exists_nameAt (hnames : ∀ path n, root.at? path = some n → n.kind = .methodDecl → ∃ name, n.name? = .ok name)
    (hat : root.at? path = some n) : ∃ method, nameAt outer root path n = .ok method := by
  obtain ⟨below, hbelow⟩ := exists_nameBelow outer (hnames [] root rfl)
  induction path generalizing outer root below with
  | nil =>
    obtain rfl : root = n := by simpa [at?] using hat
    exact ⟨below, nameAt_nil.trans hbelow⟩
  | cons i path ih =>
    simp only [at?] at hat
    obtain ⟨c, hc, hchild⟩ := Option.bind_eq_some_iff.1 hat
    have hnames' (path : Path) (n : Node) (h : c.at? path = some n) : n.kind = .methodDecl → ∃ name, n.name? = .ok name :=
      hnames (i :: path) n (by simp [at?, hc, h])
    obtain ⟨below', hbelow'⟩ := exists_nameBelow below (hnames' [] c rfl)
    rw [nameAt_cons hc hbelow]
    exact ih hnames' hchild below' hbelow'

theorem at?_of_mem_preorder {v : Path × Node} (h : v ∈ root.preorder) : root.at? v.1 = some v.2 :=
  forall_mem_visit (Q := fun path n => root.at? path = some n) (fun _ _ _ _ h hc => at?_append_singleton h hc)
    (by simp [at?]) v h

/-- A property of all nodes of a tree with the names of the methods that they belong to. -/
inductive AllIn (P : Option String → Node → Prop) : Option String → Node → Prop
  | intro {outer below : Option String} {n : Node} (hbelow : n.nameBelow outer = .ok below) (here : P below n)
      (children : ∀ c ∈ n.children, AllIn P below c) : AllIn P outer n

theorem AllIn.at {P : Option String → Node → Prop} (h : AllIn P outer root) (hat : root.at? path = some n) :
    ∃ below, nameAt outer root path n = .ok below ∧ P below n := by
  induction path generalizing outer root with
  | nil =>
    obtain rfl : root = n := by simpa [at?] using hat
    cases h with
    | intro hbelow here _ => exact ⟨_, nameAt_nil.trans hbelow, here⟩
  | cons i path ih =>
    simp only [at?] at hat
    obtain ⟨c, hc, hat⟩ := Option.bind_eq_some_iff.1 hat
    cases h with
    | intro hbelow _ children =>
      rw [nameAt_cons hc hbelow]
      exact ih (children c (List.mem_of_getElem? hc)) hat

theorem allIn_of_at {P : Option String → Node → Prop}
    (h : ∀ path n, root.at? path = some n → ∃ below, nameAt outer root path n = .ok below ∧ P below n) :
    AllIn P outer root := by
  induction root using induction_children generalizing outer with
  | step root ih =>
    obtain ⟨below, hbelow, here⟩ := h [] root rfl
    rw [nameAt_nil] at hbelow
    refine .intro hbelow here fun c hc => ih c hc fun path n hat => ?_
    obtain ⟨i, hi⟩ := List.getElem?_of_mem hc
    rw [← nameAt_cons hi hbelow]
    exact h (i :: path) n (by simp [at?, hi, hat])

end Node

namespace SymbolTable
variable {t : SymbolTable} {method outer : Option String} {n n' c c' : Node} {cs cs' : List Node} {kind : Kind}
  {attributes : Assoc Attribute} {p : Position}

/-! ## Types -/

/-- The type of a call comes from its name, the type of its receiver and the number of its arguments. -/
theorem typeOf_receiver (attributes : Assoc Attribute) (receiver : Node) (args : List Node) (p : Position) :
    t.typeOf method ⟨.call, attributes, receiver :: args, p⟩ = (do
      let name ← Node.name ⟨.call, attributes, [], p⟩
      match t.method? name with
      | none => return Ty.foreign name args
      | some m => return if (← t.typeOf method receiver) = t.classType then m.returnType else Ty.foreign name args) := by
  rw [typeOf]
  refine congrArg _ (funext fun name => ?_)
  have hlength : (name = "length" ∧ (receiver :: args).length = 1) = (name = "length" ∧ args = []) := by simp
  simp only [hlength]
  cases t.method? name with
  | none => rfl
  | some m =>
    by_cases hkind : receiver.kind = .thisRef
    · simp [hkind, t.typeOf_thisRef method hkind]
    · simp only [hkind, if_false]
      refine congrArg _ (funext fun type => ?_)
      by_cases htype : type = t.classType
      · simp [htype]
      · simp [htype, Ty.foreign]

/-- A node keeps its type with its first child and its number of children. -/
theorem typeOf_children (hlength : cs'.length = cs.length) (hfirst : t.typeOf method c' = t.typeOf method c)
    (kind : Kind) (attributes : Assoc Attribute) (p : Position) :
    t.typeOf method ⟨kind, attributes, c' :: cs', p⟩ = t.typeOf method ⟨kind, attributes, c :: cs, p⟩ := by
  cases kind with
  | call =>
    have hnil : cs' = [] ↔ cs = [] := by
      rw [← List.length_eq_zero_iff, ← List.length_eq_zero_iff, hlength]
    have hforeign (name : String) : Ty.foreign name cs' = Ty.foreign name cs := by simp [Ty.foreign, hnil]
    simp only [typeOf_receiver, hfirst, hforeign]
  | paren => exact hfirst
  | arrayLiteral | arrayAccess =>
    rw [typeOf.eq_def, typeOf.eq_def]
    simp only [hfirst]
  | _ => rfl

theorem isOwnReceiver_congr {receiver receiver' : Node} (h : t.typeOf method receiver' = t.typeOf method receiver) :
    t.isOwnReceiver method receiver' = t.isOwnReceiver method receiver := by
  have hfold (e : Node) : t.isOwnReceiver method e = (do return decide ((← t.typeOf method e) = t.classType)) := by
    unfold isOwnReceiver
    by_cases hkind : e.kind = .thisRef
    · simp [hkind, t.typeOf_thisRef method hkind]
    · simp [hkind]
  rw [hfold, hfold, h]

/-! ## Gathering -/

theorem typeOf_gatheredCall {receiver : Node} {args : List Node} {m : MethodInfo} {last : Symbol}
    (h : t.CallsOwn method attributes p receiver m) : 
    t.typeOf method (gatheredCall attributes p receiver args m last) =
      t.typeOf method ⟨.call, attributes, receiver :: args, p⟩ := by
  obtain ⟨⟨name, hname, hm⟩, hown⟩ := h
  obtain ⟨type, htype, rfl⟩ : ∃ type, t.typeOf method receiver = .ok type ∧ type = t.classType := by
    unfold isOwnReceiver at hown
    split at hown
    · rename_i hkind
      exact ⟨_, t.typeOf_thisRef method hkind, rfl⟩
    · simpa only [bind_eq_ok, pure_eq_ok, decide_eq_true_eq] using hown
  simp only [gatheredCall, typeOf_receiver, hname, ok_bind, hm, htype, if_true]

/-! ## Whole trees -/

theorem nameBelow_normalizeVarargs (h : t.normalizeVarargs outer n = .ok n') : n'.nameBelow outer = n.nameBelow outer := by
  obtain ⟨hkind, hattributes⟩ := kind_normalizeVarargs h
  obtain ⟨kind, attributes, cs, p⟩ := n
  obtain ⟨kind', attributes', cs', p'⟩ := n'
  obtain rfl : kind' = kind := hkind
  obtain rfl : attributes' = attributes := hattributes
  rfl

/-- Every expression keeps its type. -/
theorem typeOf_normalizeVarargs (h : t.normalizeVarargs method n = .ok n') :
    t.typeOf method n' = t.typeOf method n := by
  induction n using Node.induction_children generalizing n' with
  | step n ih =>
    obtain ⟨kind, attributes, cs, p⟩ := n
    obtain ⟨below, cs', hbelow, hcs', h⟩ := normalizeVarargs_eq_ok.1 h
    by_cases hdecl : kind = .methodDecl
    · subst hdecl
      obtain rfl : n' = _ := h
      rfl
    obtain rfl : method = below := Except.ok.inj ((if_neg hdecl).symm.trans hbelow)
    have hparts : t.typeOf method ⟨kind, attributes, cs', p⟩ = t.typeOf method ⟨kind, attributes, cs, p⟩ := by
      cases cs with
      | nil => rw [List.mapM_nil, pure_eq_ok] at hcs'; rw [hcs']
      | cons c cs =>
        rcases mapM_eq_ok_iff.1 hcs' with _ | ⟨hc, hrest⟩
        exact typeOf_children hrest.length_eq.symm (ih c (by simp) hc) kind attributes p
    split at h
    · rename_i hkind
      subst hkind
      rcases normalizeCall_cases h with rfl | ⟨receiver, args, m, last, rfl, hown, -, -, rfl⟩
      · exact hparts
      · exact (typeOf_gatheredCall hown).trans hparts
    · rw [h]
      exact hparts

/-- Making calls normal again changes nothing. -/
theorem normalizeVarargs_idem (h : t.normalizeVarargs outer n = .ok n') : t.normalizeVarargs outer n' = .ok n' := by
  induction n using Node.induction_children generalizing outer n' with
  | step n ih =>
    have hname := nameBelow_normalizeVarargs h
    obtain ⟨kind, attributes, cs, p⟩ := n
    obtain ⟨below, cs', hbelow, hcs', h⟩ := normalizeVarargs_eq_ok.1 h
    have hagain : ∀ c' ∈ cs', t.normalizeVarargs below c' = .ok c' := fun c' hc' => by
      obtain ⟨c, hc, hcc'⟩ := exists_of_mem_mapM hcs' hc'
      exact ih c hc hcc'
    have hkept {ds : List Node} (hds : ∀ d ∈ ds, t.normalizeVarargs below d = .ok d) :
        ds.mapM (t.normalizeVarargs below) = .ok ds :=
      mapM_eq_ok_iff.2 (List.forall₂_same.2 hds)
    split at h
    · rename_i hkind
      subst hkind
      rcases normalizeCall_cases h with rfl | ⟨receiver, args, m, last, rfl, hown, -, hlength, rfl⟩
      · exact normalizeVarargs_eq_ok.2 ⟨below, cs', hbelow, hkept hagain, h⟩
      · obtain ⟨hreceiver, hargs⟩ := List.forall_mem_cons.1 hagain
        refine normalizeVarargs_eq_ok.2 ⟨below, _, hbelow, hkept ?_, normalizeCall_gatheredCall hown hlength⟩
        rw [List.forall_mem_cons, List.forall_mem_append, List.forall_mem_singleton]
        refine ⟨hreceiver, fun d hd => hargs d (List.mem_of_mem_take hd), ?_⟩
        exact normalizeVarargs_eq_ok.2 ⟨below, _, rfl, hkept fun d hd => hargs d (List.mem_of_mem_drop hd), rfl⟩
    · rename_i hkind
      rw [h] at hname ⊢
      exact normalizeVarargs_eq_ok.2 ⟨below, cs', hbelow, hkept hagain, by rw [if_neg hkind]⟩

/-- A gathered call has the parts of the call: what is gathered is one level down. -/
theorem exists_at_gatheredCall {below : Option String} {receiver : Node} {args : List Node} {m : MethodInfo}
    {last : Symbol} {i : Nat} {c : Node} (hlength : m.params.length - 1 ≤ args.length)
    (hc : (receiver :: args)[i]? = some c) :
    ∃ front, ∀ path n, c.at? path = some n →
      (gatheredCall attributes p receiver args m last).at? (front ++ path) = some n ∧
        Node.nameAt below (gatheredCall attributes p receiver args m last) (front ++ path) n =
          Node.nameAt below c path n := by
  have htake : (args.take (m.params.length - 1)).length = m.params.length - 1 := List.length_take_of_le hlength
  have hbelow {n : Node} (h : n.kind ≠ .methodDecl) : n.nameBelow below = .ok below := if_neg h
  have hdirect {i : Nat} {c : Node} (hi : (gatheredCall attributes p receiver args m last).children[i]? = some c)
      {path : Path} {n : Node} (hat : c.at? path = some n) :
      (gatheredCall attributes p receiver args m last).at? (i :: path) = some n ∧
        Node.nameAt below (gatheredCall attributes p receiver args m last) (i :: path) n = Node.nameAt below c path n :=
    ⟨by simp [Node.at?, hi, hat], Node.nameAt_cons hi (hbelow (by simp [gatheredCall]))⟩
  cases i with
  | zero => exact ⟨[0], fun path n hat => hdirect (by simpa [gatheredCall] using hc) hat⟩
  | succ j =>
    rw [List.getElem?_cons_succ] at hc
    by_cases hj : j < m.params.length - 1
    · refine ⟨[j + 1], fun path n hat => hdirect ?_ hat⟩
      rw [gatheredCall, List.getElem?_cons_succ, List.getElem?_append_left (htake.symm ▸ hj),
        List.getElem?_take_of_lt hj, hc]
    · have hliteral : (gatheredCall attributes p receiver args m last).children[m.params.length - 1 + 1]? = some
          ⟨.arrayLiteral, ⟨[("element_type", .text last.type.name)]⟩, args.drop (m.params.length - 1), p⟩ := by
        rw [gatheredCall, List.getElem?_cons_succ, List.getElem?_append_right (Nat.le_of_eq htake), htake, Nat.sub_self]
        rfl
      have helement : (args.drop (m.params.length - 1))[j - (m.params.length - 1)]? = some c := by
        rw [List.getElem?_drop, Nat.add_sub_of_le (Nat.le_of_not_lt hj), hc]
      refine ⟨[m.params.length - 1 + 1, j - (m.params.length - 1)], fun path n hat => ?_⟩
      have hbelow' : Node.at? ⟨.arrayLiteral, ⟨[("element_type", .text last.type.name)]⟩, args.drop (m.params.length - 1), p⟩
          ((j - (m.params.length - 1)) :: path) = some n := by simp [Node.at?, helement, hat]
      obtain ⟨hplace, hname⟩ := hdirect hliteral hbelow'
      exact ⟨hplace, hname.trans (Node.nameAt_cons helement (hbelow (by simp)))⟩

/-- Every node has a place in the tree with normal calls, in its method. -/
theorem exists_at_normalizeVarargs {root root' : Node} {path : Path}
    (h : t.normalizeVarargs outer root = .ok root') (hat : root.at? path = some n) :
    ∃ method path' n', Node.nameAt outer root path n = .ok method ∧ root'.at? path' = some n' ∧
      Node.nameAt outer root' path' n' = .ok method ∧ t.normalizeVarargs method n = .ok n' := by
  induction path generalizing outer root root' with
  | nil =>
    obtain rfl : root = n := by simpa [Node.at?] using hat
    have hname := nameBelow_normalizeVarargs h
    obtain ⟨kind, attributes, cs, p⟩ := root
    obtain ⟨below, cs', hbelow, hparts⟩ := normalizeVarargs_eq_ok.1 h
    exact ⟨below, [], root', Node.nameAt_nil.trans hbelow, rfl, Node.nameAt_nil.trans (hname.trans hbelow),
      normalizeVarargs_eq_ok.2 ⟨below, cs', Node.nameBelow_self hbelow, hparts⟩⟩
  | cons i path ih =>
    have hname := nameBelow_normalizeVarargs h
    simp only [Node.at?] at hat
    obtain ⟨c, hc, hchild⟩ := Option.bind_eq_some_iff.1 hat
    obtain ⟨kind, attributes, cs, p⟩ := root
    obtain ⟨below, cs', hbelow, hcs', hnormal⟩ := normalizeVarargs_eq_ok.1 h
    rw [hbelow] at hname
    obtain ⟨c', hc', hcc'⟩ := getElem?_of_mapM hcs' hc
    obtain ⟨method, path', n', hmethod, hat', hmethod', hn'⟩ := ih hcc' hchild
    -- what was a child is one still, or is gathered in an array
    obtain ⟨front, hfront⟩ : ∃ front, root'.at? (front ++ path') = some n' ∧
        Node.nameAt outer root' (front ++ path') n' = Node.nameAt below c' path' n' := by
      have hdirect (hroot : root' = ⟨kind, attributes, cs', p⟩) : root'.at? ([i] ++ path') = some n' ∧
          Node.nameAt outer root' ([i] ++ path') n' = Node.nameAt below c' path' n' := by
        have hi : root'.children[i]? = some c' := hroot ▸ hc'
        exact ⟨by simp [Node.at?, hi, hat'], Node.nameAt_cons hi hname⟩
      split at hnormal
      · rename_i hkind
        subst hkind
        rcases normalizeCall_cases hnormal with hsame | ⟨receiver, args, m, last, rfl, -, -, hlength, rfl⟩
        · exact ⟨[i], hdirect hsame⟩
        · obtain rfl : outer = below := Except.ok.inj hbelow
          obtain ⟨front, hfront⟩ := exists_at_gatheredCall hlength hc'
          exact ⟨front, hfront path' n' hat'⟩
      · exact ⟨[i], hdirect hnormal⟩
    exact ⟨method, front ++ path', n', (Node.nameAt_cons hc hbelow).trans hmethod, hfront.1, hfront.2.trans hmethod', hn'⟩

/-! ## Calls without reports -/

variable (t method) in
/-- A call of a method of the class passes one argument of a fitting type for each of its parameters. -/
def HasNormalCall (n : Node) : Prop :=
  ∀ receiver args m, n.kind = .call → n.children = receiver :: args → t.CallsOwn method n.attributes n.position receiver m →
    args.length = m.params.length ∧
      List.Forall₂ (fun p arg => ∃ type, t.typeOf method arg = .ok type ∧ Ty.assignable p.type type = true) m.params args

section
variable {receiver : Node} {args : List Node} {m : MethodInfo} {types : Node → Ty}

theorem hasNormalCall_of (h : ∀ m', t.CallsOwn method attributes p receiver m' → m' = m)
    (htakes : List.Forall₂ (fun p arg => ∃ type, t.typeOf method arg = .ok type ∧ Ty.assignable p.type type = true)
      m.params args) : t.HasNormalCall method ⟨.call, attributes, receiver :: args, p⟩ := by
  intro receiver' args' m' _ hchildren hcall
  obtain ⟨rfl, rfl⟩ := List.cons.inj hchildren
  obtain rfl := h m' hcall
  exact ⟨htakes.length_eq.symm, htakes⟩

theorem CallsOwn.unique {m' : MethodInfo} (h : t.CallsOwn method attributes p receiver m)
    (h' : t.CallsOwn method attributes p receiver m') : m' = m := by
  obtain ⟨name, hname, hm⟩ := h.found
  obtain ⟨name', hname', hm'⟩ := h'.found
  obtain rfl := Except.ok.inj (hname.symm.trans hname')
  exact Option.some.inj (hm'.symm.trans hm)

theorem forall₂_of_takes {params : List Symbol} (htypes : ∀ e ∈ args, t.typeOf method e = .ok (types e))
    (h : MethodInfo.Takes params (args.map types)) :
    List.Forall₂ (fun p arg => ∃ type, t.typeOf method arg = .ok type ∧ Ty.assignable p.type type = true) params args := by
  rw [MethodInfo.Takes, List.forall₂_map_right_iff] at h
  rw [List.forall₂_iff_get] at h ⊢
  exact ⟨h.1, fun i hp ha => ⟨_, htypes _ (List.getElem_mem ha), h.2 i hp ha⟩⟩

/-- A call whose arguments are accepted becomes one that has an argument for each parameter. -/
theorem exists_normal (hcall : t.CallsOwn method attributes p receiver m)
    (htypes : ∀ e ∈ args, t.typeOf method e = .ok (types e)) (haccepts : m.Accepts (args.map types)) :
    ∃ n', t.normalizeCall method ⟨.call, attributes, receiver :: args, p⟩ = .ok n' ∧ t.HasNormalCall method n' := by
  have hcalls (m' : MethodInfo) (h : t.CallsOwn method attributes p receiver m') : m' = m := hcall.unique h
  obtain ⟨gathered, hgathered, hregroups⟩ := exists_gathers htypes haccepts
  rw [normalizeCall_own hcall, hgathered, ok_bind]
  refine ⟨_, rfl, ?_⟩
  cases hregroups with
  | kept htakes hlast => exact hasNormalCall_of hcalls (forall₂_of_takes htypes htakes)
  | @gathered last before after hrest hlast hlength hparams hmore =>
    refine hasNormalCall_of hcalls ?_
    rw [List.take_left' hlength, List.drop_left' hlength, ← MethodInfo.params_of_rest hrest]
    refine List.rel_append (forall₂_of_takes (fun e he => htypes e (by simp [he])) hparams)
      (.cons ⟨last.type, ?_, by simp [Ty.assignable]⟩ .nil)
    obtain ⟨name, type, array⟩ := last
    obtain rfl : array = true := hlast
    exact t.typeOf_gatheredLiteral method type after p

end

end SymbolTable

namespace Check
variable {site : Site}

theorem exists_type_of_fixedArguments {params : List Symbol} {args : List Node} {found : List Report}
    (h : fixedArguments site (params.zip args) = .ok found) :
    ∀ arg ∈ args.take params.length, ∃ type, site.typeOf arg = .ok type := by
  induction params generalizing args found with
  | nil => simp
  | cons p params ih =>
    cases args with
    | nil => simp
    | cons arg args =>
      simp only [List.zip_cons_cons, fixedArguments, bind_eq_ok] at h
      obtain ⟨type, htype, rest, hrest, -⟩ := h
      exact List.forall_mem_cons.2 ⟨⟨type, htype⟩, ih hrest⟩

theorem exists_type_of_gathered {element : Ty} {args : List Node} {found : List Report}
    (h : gathered site element args = .ok found) : ∀ arg ∈ args, ∃ type, site.typeOf arg = .ok type := by
  intro arg harg
  simp only [gathered, bind_eq_ok] at h
  obtain ⟨reports, hreports, -⟩ := h
  obtain ⟨reported, -, hof⟩ := exists_of_mapM hreports harg
  obtain ⟨type, htype, -⟩ := bind_eq_ok.1 hof
  exact ⟨type, htype⟩

theorem exists_type_of_varargsArguments {last : Ty} {args : List Node} {found : List Report}
    (h : varargsArguments site last args = .ok found) : ∀ arg ∈ args, ∃ type, site.typeOf arg = .ok type := by
  unfold varargsArguments at h
  split at h
  · obtain ⟨type, htype, -⟩ := bind_eq_ok.1 h
    simpa using ⟨type, htype⟩
  · obtain ⟨element, -, helements⟩ := bind_eq_ok.1 h
    exact exists_type_of_gathered helements

/-- Arguments without reports have types. -/
theorem exists_type_of_arguments {m : MethodInfo} {args : List Node} (h : arguments site m args = .ok []) :
    ∀ arg ∈ args, ∃ type, site.typeOf arg = .ok type := by
  unfold arguments at h
  rw [← MethodInfo.rest?] at h
  split at h
  · by_cases hlength : args.length = m.params.length
    · simp only [hlength, ne_eq, not_true, if_false] at h
      have htypes := exists_type_of_fixedArguments h
      rwa [← hlength, List.take_length] at htypes
    · simp [hlength] at h
  · rename_i last hrest
    by_cases hlength : args.length < m.params.dropLast.length
    · simp only [hlength, if_true] at h
      cases h
    · simp only [hlength, if_false] at h
      obtain ⟨hfixed, hmore⟩ := append_eq_ok_nil.1 h
      rw [← List.take_append_drop m.params.dropLast.length args, List.forall_mem_append]
      exact ⟨exists_type_of_fixedArguments hfixed, exists_type_of_varargsArguments hmore⟩

/-- A call without reports has a receiver with a type, and arguments that are accepted if it calls a method of the
class. -/
theorem call_of_undefinedMethods {method : Option String} (hmethod : site.methodName = .ok method)
    (hkind : site.node.kind = .call) (h : undefinedMethods.rule site = .ok []) :
    ∃ name receiver args type, site.node.name = .ok name ∧ site.node.children = receiver :: args ∧
      site.table.typeOf method receiver = .ok type ∧ ∀ m, site.table.method? name = some m →
        type = site.table.classType → ∃ types : Node → Ty,
          (∀ arg ∈ args, site.table.typeOf method arg = .ok (types arg)) ∧ m.Accepts (args.map types) := by
  have hsite (e : Node) : site.typeOf e = site.table.typeOf method e := by
    rw [Site.typeOf, hmethod]
    rfl
  simp only [undefinedMethods, hkind, bind_eq_ok, hsite] at h
  obtain ⟨name, hname, receiver, hreceiver, type, htype, h⟩ := h
  obtain ⟨args, hchildren⟩ : ∃ args, site.node.children = receiver :: args := by
    unfold Node.child at hreceiver
    cases hcs : site.node.children with
    | nil =>
      rw [hcs] at hreceiver
      cases hreceiver
    | cons c cs =>
      rw [hcs] at hreceiver
      exact ⟨cs, by rw [Except.ok.inj hreceiver]⟩
  refine ⟨name, receiver, args, type, hname, hchildren, htype, fun m hm hown => ?_⟩
  have hownReceiver : site.table.isOwnReceiver method receiver = .ok true := by
    rw [site.table.isOwnReceiver_eq method htype, hown, decide_eq_true rfl]
  simp only [hm, hmethod, ok_bind, hownReceiver, if_true, hchildren, List.tail_cons] at h
  have htypes : ∀ arg ∈ args, site.typeOf arg = .ok ((site.typeOf arg).toOption.getD .any) := fun arg harg => by
    obtain ⟨type, htype⟩ := exists_type_of_arguments h arg harg
    rw [htype]
    rfl
  exact ⟨_, fun arg harg => (hsite arg).symm.trans (htypes arg harg), accepts_of_arguments htypes h⟩

end Check

namespace SymbolTable
variable {t : SymbolTable} {outer method : Option String} {n root : Node}

variable (t) in
/-- The check of references does not object to a node in a method. -/
def PassesReferences (method : Option String) (n : Node) : Prop :=
  ∃ d, Site.methodName ⟨t, d, n⟩ = .ok method ∧ Check.undefinedMethods.rule ⟨t, d, n⟩ = .ok []

section
variable {attributes : Assoc Attribute} {p : Position} {receiver n' : Node} {args cs : List Node} {name : String} {type : Ty}

theorem hasNormalCall_other (h : t.CallsOther method attributes p receiver) :
    t.HasNormalCall method ⟨.call, attributes, receiver :: args, p⟩ := by
  intro receiver' args' m _ hchildren hcall
  obtain ⟨rfl, rfl⟩ := List.cons.inj hchildren
  obtain ⟨name, hname, hother⟩ := h
  obtain ⟨⟨name', hname', hm⟩, hown⟩ := hcall
  obtain rfl : name = name' := Except.ok.inj (hname.symm.trans hname')
  rw [hother m hm] at hown
  cases hown

/-- The parts of a normalized call are those of the call. -/
theorem allIn_of_normalizeCall {P : Option String → Node → Prop}
    (h : t.normalizeCall method ⟨.call, attributes, cs, p⟩ = .ok n') (here : P method n')
    (hliteral : ∀ n : Node, n.kind = .arrayLiteral → P method n) (hparts : ∀ c ∈ cs, Node.AllIn P method c) :
    Node.AllIn P method n' := by
  rcases normalizeCall_cases h with rfl | ⟨receiver, args, m, last, rfl, -, -, -, rfl⟩
  · exact .intro rfl here hparts
  · obtain ⟨hreceiver, hargs⟩ := List.forall_mem_cons.1 hparts
    refine .intro rfl here ?_
    rw [gatheredCall, List.forall_mem_cons, List.forall_mem_append, List.forall_mem_singleton]
    exact ⟨hreceiver, fun c hc => hargs c (List.mem_of_mem_take hc),
      .intro rfl (hliteral _ rfl) fun c hc => hargs c (List.mem_of_mem_drop hc)⟩
end

/-- Arguments keep their types. -/
theorem typesOf_normalizeVarargs {args args' : List Node} {types : Node → Ty}
    (h : List.Forall₂ (fun c c' => t.normalizeVarargs method c = .ok c') args args')
    (htypes : ∀ c ∈ args, t.typeOf method c = .ok (types c)) :
    (∀ c' ∈ args', t.typeOf method c' = .ok ((t.typeOf method c').toOption.getD .any)) ∧
      args'.map (fun c' => (t.typeOf method c').toOption.getD .any) = args.map types := by
  constructor
  · intro c' hc'
    obtain ⟨c, hc, hcc'⟩ := exists_of_mem_mapM (mapM_eq_ok_iff.2 h) hc'
    rw [typeOf_normalizeVarargs hcc', htypes c hc]
    rfl
  · have hsame : args.map types = args.map fun c => (t.typeOf method c).toOption.getD .any :=
      List.map_congr_left fun c hc => by rw [htypes c hc]; rfl
    rw [hsame, ← List.forall₂_eq_eq_eq, List.forall₂_map_left_iff, List.forall₂_map_right_iff]
    exact h.flip.imp fun c' c hcc' => by rw [typeOf_normalizeVarargs hcc']

/-- A tree without objections to references gets calls that have an argument for each parameter. -/
theorem exists_allIn_hasNormalCall (h : n.AllIn t.PassesReferences outer) :
    ∃ n', t.normalizeVarargs outer n = .ok n' ∧ n'.AllIn t.HasNormalCall outer := by
  induction h with
  | @intro outer below n hbelow here children ih =>
    obtain ⟨kind, attributes, cs, p⟩ := n
    obtain ⟨cs', hcs'⟩ := exists_mapM_eq_ok fun c hc => (ih c hc).imp fun _ h => h.1
    have hall : ∀ c' ∈ cs', c'.AllIn t.HasNormalCall below := fun c' hc' => by
      obtain ⟨c, hc, hcc'⟩ := exists_of_mem_mapM hcs' hc'
      obtain ⟨c'', hcc'', hc''⟩ := ih c hc
      rwa [← Except.ok.inj (hcc'.symm.trans hcc'')] at hc''
    by_cases hkind : kind = .call
    · subst hkind
      obtain ⟨d, hmethod, hrule⟩ := here
      obtain ⟨name, receiver, args, type, hname, rfl, htype, haccepts⟩ :=
        Check.call_of_undefinedMethods hmethod rfl hrule
      obtain rfl : outer = below := Except.ok.inj hbelow
      rcases mapM_eq_ok_iff.1 hcs' with _ | ⟨hreceiver', hargs'⟩
      rename_i receiver' args'
      have htype' : t.typeOf outer receiver' = .ok type := (typeOf_normalizeVarargs hreceiver').trans htype
      obtain ⟨n', hn', hnormal⟩ : ∃ n', t.normalizeCall outer ⟨.call, attributes, receiver' :: args', p⟩ = .ok n' ∧
          t.HasNormalCall outer n' := by
        by_cases hown : ∃ m, t.method? name = some m ∧ type = t.classType
        · obtain ⟨m, hm, rfl⟩ := hown
          obtain ⟨types, htypes, hfit⟩ := haccepts m hm rfl
          have hcall : t.CallsOwn outer attributes p receiver' m :=
            ⟨⟨name, hname, hm⟩, by rw [t.isOwnReceiver_eq outer htype', decide_eq_true rfl]⟩
          obtain ⟨hkept, hgiven⟩ := typesOf_normalizeVarargs hargs' htypes
          exact exists_normal hcall hkept (hgiven ▸ hfit)
        · have hother : t.CallsOther outer attributes p receiver' := by
            refine callsOther_of_typeOf hname htype' fun hfound heq => ?_
            obtain ⟨m, hm⟩ := Option.isSome_iff_exists.1 hfound
            exact hown ⟨m, hm, heq⟩
          exact ⟨_, normalizeCall_other hother, hasNormalCall_other hother⟩
      exact ⟨n', normalizeVarargs_eq_ok.2 ⟨outer, _, hbelow, hcs', hn'⟩,
        allIn_of_normalizeCall hn' hnormal (fun c hliteral _ _ _ hcall => by simp [hliteral] at hcall) hall⟩
    · refine ⟨⟨kind, attributes, cs', p⟩, normalizeVarargs_eq_ok.2 ⟨below, cs', hbelow, hcs', by rw [if_neg hkind]⟩, ?_⟩
      exact .intro hbelow (fun _ _ _ hcall => absurd hcall hkind) hall

/-- Method declarations that no check objects to have names. -/
theorem exists_name_of_validate (h : Check.validate t root = .ok []) {path : Path} (hat : root.at? path = some n)
    (hkind : n.kind = .methodDecl) : ∃ name, n.name? = .ok name := by
  have hrule := Check.passes_of_validate h (Node.mem_preorder hat) Check.varargsDeclarations (by simp [Check.all])
  simp only [Check.varargsDeclarations, hkind, bind_eq_ok] at hrule
  obtain ⟨name, hname, -⟩ := hrule
  unfold Node.name?
  cases hrequired : n.required "name" with
  | error e => simp [Node.name, Node.word, hrequired] at hname
  | ok a =>
    cases a with
    | null => exact ⟨none, rfl⟩
    | _ => exact ⟨some name, by rw [ok_bind, hname]; rfl⟩

/-- Where no check objects, none does to the references of a node. -/
theorem passesReferences_of_validate (h : Check.validate t root = .ok []) : root.AllIn t.PassesReferences none := by
  refine Node.allIn_of_at fun path n hat => ?_
  obtain ⟨below, hbelow⟩ : ∃ below, Node.nameAt none root path n = .ok below :=
    Node.exists_nameAt (fun path n hat hkind => exists_name_of_validate h hat hkind) hat
  exact ⟨below, hbelow, root.methodAt? path n, hbelow,
    Check.passes_of_validate h (Node.mem_preorder hat) Check.undefinedMethods (by simp [Check.all])⟩

/-- Gathering arguments twice is gathering them once, and expressions keep their types. In a tree that is analyzed without
reports arguments are gathered, and then every call of a method of the class has an argument of a fitting type for each
parameter. -/
theorem normalizeVarargs_completes (t : SymbolTable) (root : Node) :
    (∀ root', t.normalizeVarargs none root = .ok root' →
      t.normalizeVarargs none root' = .ok root' ∧
      ∀ v ∈ root.preorder, ∃ method, ∃ v' ∈ root'.preorder,
        Site.methodName ⟨t, root.methodAt? v.1 v.2, v.2⟩ = .ok method ∧
        Site.methodName ⟨t, root'.methodAt? v'.1 v'.2, v'.2⟩ = .ok method ∧
        t.normalizeVarargs method v.2 = .ok v'.2 ∧ t.typeOf method v'.2 = t.typeOf method v.2) ∧
    (root.analyze = .ok { reports := [], table := some t } → ∃ root', t.normalizeVarargs none root = .ok root' ∧
      ∀ v' ∈ root'.preorder, ∃ method, Site.methodName ⟨t, root'.methodAt? v'.1 v'.2, v'.2⟩ = .ok method ∧
        t.HasNormalCall method v'.2) := by
  refine ⟨fun root' h => ⟨normalizeVarargs_idem h, fun v hv => ?_⟩, fun h => ?_⟩
  · obtain ⟨method, path', n', hmethod, hat', hmethod', hn'⟩ :=
      exists_at_normalizeVarargs h (Node.at?_of_mem_preorder hv)
    exact ⟨method, (path', n'), Node.mem_preorder hat', hmethod, hmethod', hn', typeOf_normalizeVarargs hn'⟩
  · obtain ⟨root', hroot', hnormal⟩ :=
      exists_allIn_hasNormalCall (passesReferences_of_validate (Node.validate_of_analyze h).2)
    exact ⟨root', hroot', fun v' hv' => hnormal.at (Node.at?_of_mem_preorder hv')⟩

/-- Calls in calls that gather no argument, one and two. -/
theorem normalizeVarargs_completes_nested :
    ∃ root root' table, Node.parse
        ("class A\x7bint g(int k,int... x)\x7breturn k;\x7d" ++
          "int f(int k)\x7breturn this.g(this.g(k),this.g(1,k),this.g(k,[2]));\x7d\x7d") = .ok root ∧
      root.analyze = .ok { reports := [], table := some table } ∧ table.normalizeVarargs none root = .ok root' ∧
      table.normalizeVarargs none root' = .ok root' ∧ root'.preorder.length = root.preorder.length + 3 ∧
      ∀ v' ∈ root'.preorder, ∃ method, Site.methodName ⟨table, root'.methodAt? v'.1 v'.2, v'.2⟩ = .ok method ∧
        table.HasNormalCall method v'.2 := by
  obtain ⟨root, hroot, hfacts⟩ := exists_of_toOption (show (Node.parse
      ("class A\x7bint g(int k,int... x)\x7breturn k;\x7d" ++
        "int f(int k)\x7breturn this.g(this.g(k),this.g(1,k),this.g(k,[2]));\x7d\x7d")).toOption.map
      (fun root => (root.analyze, (SymbolTable.normalizeVarargs ⟨"A", none, [], [],
          [⟨"g", .int, [⟨"k", .int⟩, ⟨"x", .intArray⟩], [], false, false, true⟩,
            ⟨"f", .int, [⟨"k", .int⟩], [], false, false, false⟩]⟩ none root).toOption.map
              (decide <| ·.preorder.length = root.preorder.length + 3))) =
        some (.ok { reports := [], table := some ⟨"A", none, [], [],
          [⟨"g", .int, [⟨"k", .int⟩, ⟨"x", .intArray⟩], [], false, false, true⟩,
            ⟨"f", .int, [⟨"k", .int⟩], [], false, false, false⟩]⟩ }, some true) by decide +kernel)
  obtain ⟨hanalyze, hchanged⟩ := Prod.mk.inj hfacts
  obtain ⟨hidem, hcomplete⟩ := normalizeVarargs_completes _ root
  obtain ⟨root', hroot', hnormal⟩ := hcomplete hanalyze
  refine ⟨root, root', _, hroot, hanalyze, hroot', (hidem root' hroot').1, ?_, hnormal⟩
  rw [hroot'] at hchanged
  exact of_decide_eq_true (Option.some.inj hchanged)

end SymbolTable
end JmmCompiler

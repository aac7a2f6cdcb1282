import JmmCompiler.Proofs.Labels
import JmmCompiler.Proofs.LoweringCases
import JmmCompiler.Proofs.Returns
/-! Which node each instruction is made for. The instructions of a method, without its labels, stand beside the paths of
the nodes that they are made for, and an instruction that is made for an expression assigns no variable but the
temporary that the expression was given. -/
namespace JmmCompiler

namespace SymbolTable
variable (t : SymbolTable) (method : String)

/-- The paths of nodes below a child. -/
def below (i : Nat) (paths : List Path) : List Path := paths.map (i :: ·)

/-- Whether a call is one of a static method of the class, so that its receiver is not computed. -/
def skipsReceiver (n receiver : Node) : Bool :=
  n.name.toOption.any fun name => t.isStatic name && (t.isOwnCall method name receiver).toOption = some true

/-- Whether a name is read from a field of `this`. -/
def readsField (n : Node) : Bool :=
  n.name.toOption.any fun name => (t.binding? method name).isNone && (t.field? name).isSome

mutual
/-- For each instruction of an expression the path of the node that it is made for. -/
def makers : Node → List Path
  | ⟨kind, attributes, children, position⟩ =>
    let n : Node := ⟨kind, attributes, children, position⟩
    match kind with
    | .varRef => if t.readsField method n then [[]] else []
    | .paren =>
      match children with
      | [] => []
      | inner :: _ => below 0 (makers inner)
    | .binary =>
      match children with
      | left :: right :: _ =>
        if n.op = .ok "&&" then below 0 (makers left) ++ [[]] ++ below 1 (makers right) ++ [[], [], []]
        else below 0 (makers left) ++ below 1 (makers right) ++ [[]]
      | _ => []
    | .arrayAccess =>
      match children with
      | array :: index :: _ => below 0 (makers array) ++ below 1 (makers index) ++ [[]]
      | _ => []
    | .unary | .newArray | .length =>
      match children with
      | [] => []
      | operand :: _ => below 0 (makers operand) ++ [[]]
    | .newObject => [[], []]
    | .arrayLiteral => [[]] ++ makersAll [[]] 0 children
    | .call =>
      match children with
      | [] => []
      | receiver :: args =>
        (if t.skipsReceiver method n receiver then [] else below 0 (makers receiver)) ++ makersAll [] 1 args ++ [[]]
    | _ => []

/-- The same of children one after the other, with what is made for the parent after each of them. -/
def makersAll (after : List Path) (i : Nat) : List Node → List Path
  | [] => []
  | c :: cs => below i (makers c) ++ after ++ makersAll after (i + 1) cs
end

/-- For each instruction that tests a condition, but for the jump, the path of its node. -/
def testMakers (condition : Node) : List Path :=
  if condition.kind = .binary ∧ (condition.op.toOption.bind Comparison.ofSymbol?).isSome then
    match condition.children with
    | left :: right :: _ => below 0 (t.makers method left) ++ below 1 (t.makers method right)
    | _ => []
  else if condition.kind = .unary ∧ condition.op = .ok "!" then
    match condition.children with
    | [] => []
    | operand :: _ => below 0 (t.makers method operand)
  else t.makers method condition

/-- Whether an assignment is an update of a variable by a literal. -/
def isUpdate (target value : Node) : Bool :=
  target.name.toOption.any fun name => (t.binding? method name).any fun s =>
    (selfUpdate? name s.type value).toOption.any Option.isSome

mutual
/-- For each instruction of a statement the path of the node that it is made for. -/
def codeMakers : Node → List Path
  | ⟨kind, _, children, _⟩ =>
    match kind with
    | .block => codeMakersAll 0 children
    | .exprStmt =>
      match children with
      | [] => []
      | e :: _ => below 0 (t.makers method e)
    | .assign =>
      match children with
      | [target, value] =>
        (if target.kind = .arrayAccess then
          match target.children with
          | array :: index :: _ =>
            below 0 (below 0 (t.makers method array) ++ below 1 (t.makers method index)) ++ below 1 (t.makers method value)
          | _ => []
        else if t.isUpdate method target value then [] else below 1 (t.makers method value)) ++ [[]]
      | _ => []
    | .arrayAssign =>
      match children with
      | [array, index, value] =>
        below 0 (t.makers method array) ++ below 1 (t.makers method index) ++ below 2 (t.makers method value) ++ [[]]
      | _ => []
    | .returnStmt =>
      match children with
      | [] => [[]]
      | value :: _ => below 0 (t.makers method value) ++ [[]]
    | .ifStmt =>
      match children with
      | [condition, thenPart, elsePart] =>
        below 0 (t.testMakers method condition) ++ [[]] ++ below 2 (codeMakers elsePart) ++ [[]] ++
          below 1 (codeMakers thenPart)
      | condition :: thenPart :: _ =>
        below 0 (t.testMakers method condition) ++ [[]] ++ [[]] ++ below 1 (codeMakers thenPart)
      | _ => []
    | .whileStmt =>
      match children with
      | condition :: body :: _ =>
        [[]] ++ below 1 (codeMakers body) ++ below 0 (t.testMakers method condition) ++ [[]]
      | _ => []
    | _ => []

/-- The same of statements one after the other. -/
def codeMakersAll (i : Nat) : List Node → List Path
  | [] => []
  | s :: rest => below i (codeMakers s) ++ codeMakersAll (i + 1) rest
end

end SymbolTable

/-! ## Instructions beside their nodes -/

/-- The instructions of a sequence that have a place in a method. -/
def placed (is : List Instruction) : List Instruction := is.filter (!CodeMethod.isLabel ·)

@[simp] theorem placed_append (is js : List Instruction) : placed (is ++ js) = placed is ++ placed js :=
  List.filter_append ..

/-- An instruction that stands beside a path assigns a variable. -/
def AssignsAt (paths : List Path) (is : List Instruction) (path : Path) (x : String) : Prop :=
  ∃ type value, (path, Instruction.assign (.var x type) value) ∈ paths.zip (placed is)

namespace Node

/-- An expression stands at a path. -/
def HasExpression (n : Node) (path : Path) : Prop := ∃ e, n.at? path = some e ∧ e.kind.isExpression = true

theorem hasExpression_cons {n c : Node} {i : Nat} (hc : n.children[i]? = some c) (path : Path) :
    n.HasExpression (i :: path) ↔ c.HasExpression path := by
  simp [HasExpression, at?, hc]

end Node

/-- Between two states of the names, code was made for the nodes at some paths. What it assigns for an expression is a
temporary that was fresh before and is not so any more, one for each node, and what it assigns for a statement is a
parameter or a local variable. The children that were given temporaries are known. -/
structure Made (t : SymbolTable) (method : String) (n : Node) (heads : Set (Option Nat)) (ns : Names)
    (paths : List Path) (is : List Instruction) (ns' : Names) : Prop where
  later : ns.Later ns'
  length : paths.length = (placed is).length
  nodes : ∀ path ∈ paths, ∃ e, n.at? path = some e ∧ (e.kind.isExpression = true ∨ e.kind.isStatement = true)
  assigns : ∀ path x, AssignsAt paths is path x →
    (∃ e, n.at? path = some e ∧ e.kind = .assign ∧ (t.binding? (some method) x).isSome = true) ∨
      n.HasExpression path ∧ path.head? ∈ heads ∧ ns.Fresh x ∧ ¬ns'.Fresh x
  unique : ∀ path x path' x', AssignsAt paths is path x → AssignsAt paths is path' x' →
    n.HasExpression path → n.HasExpression path' → (x = x' ↔ path = path')

namespace Made
variable {t : SymbolTable} {method : String} {n c : Node} {H H' : Set (Option Nat)} {ns ns₁ ns₂ ns' : Names}
  {ps qs : List Path} {is js : List Instruction} {x : String} {path : Path}

theorem notMem_statement {e : Node} (he : n.at? path = some e) (h : n.HasExpression path) : e.kind ≠ .assign := by
  obtain ⟨e', he', hkind⟩ := h
  obtain rfl := Option.some.inj (he.symm.trans he')
  rintro hassign
  simp [hassign, Kind.isExpression] at hkind

/-- What is assigned for an expression was fresh. -/
theorem fresh (h : Made t method n H ns ps is ns') (hassigns : AssignsAt ps is path x) (hpath : n.HasExpression path) :
    path.head? ∈ H ∧ ns.Fresh x ∧ ¬ns'.Fresh x := by
  rcases h.assigns path x hassigns with ⟨e, he, hkind, -⟩ | ⟨-, hfresh⟩
  · exact absurd hkind (notMem_statement he hpath)
  · exact hfresh

theorem assignsAt_append (hlength : ps.length = (placed is).length) :
    AssignsAt (ps ++ qs) (is ++ js) path x ↔ AssignsAt ps is path x ∨ AssignsAt qs js path x := by
  unfold AssignsAt
  rw [placed_append, List.zip_append hlength]
  simp only [List.mem_append, exists_or]

theorem nil (ns : Names) : Made t method n H ns [] [] ns where
  later := .refl ns
  length := rfl
  nodes := by simp
  assigns := by simp [AssignsAt]
  unique := by simp [AssignsAt]

theorem append (h : Made t method n H ns ps is ns₁) (h' : Made t method n H' ns₁ qs js ns')
    (hdisjoint : Disjoint H H') : Made t method n (H ∪ H') ns (ps ++ qs) (is ++ js) ns' where
  later := h.later.trans h'.later
  length := by simp [h.length, h'.length]
  nodes path hpath := (List.mem_append.1 hpath).elim (h.nodes path) (h'.nodes path)
  assigns path x hx := by
    rcases (assignsAt_append h.length).1 hx with hx | hx
    · exact (h.assigns path x hx).imp_right fun ⟨he, hhead, hfresh, hspent⟩ =>
        ⟨he, .inl hhead, hfresh, fun hfresh' => hspent (h'.later.fresh hfresh')⟩
    · exact (h'.assigns path x hx).imp_right fun ⟨he, hhead, hfresh, hspent⟩ =>
        ⟨he, .inr hhead, h.later.fresh hfresh, hspent⟩
  unique path x path' x' hx hx' hpath hpath' := by
    have hapart {p q : Path} {y z : String} (hy : AssignsAt ps is p y) (hz : AssignsAt qs js q z)
        (hp : n.HasExpression p) (hq : n.HasExpression q) : y ≠ z ∧ p ≠ q := by
      obtain ⟨hhead, -, hspent⟩ := h.fresh hy hp
      obtain ⟨hhead', hfresh, -⟩ := h'.fresh hz hq
      exact ⟨fun heq => hspent (heq ▸ hfresh), fun heq => Set.disjoint_left.1 hdisjoint hhead (heq ▸ hhead')⟩
    rcases (assignsAt_append h.length).1 hx with hx | hx
    · rcases (assignsAt_append h.length).1 hx' with hx' | hx'
      · exact h.unique path x path' x' hx hx' hpath hpath'
      · have := hapart hx hx' hpath hpath'
        simp [this.1, this.2]
    · rcases (assignsAt_append h.length).1 hx' with hx' | hx'
      · have := hapart hx' hx hpath' hpath
        simp [this.1.symm, this.2.symm]
      · exact h'.unique path x path' x' hx hx' hpath hpath'

theorem mono (h : Made t method n H ns ps is ns') (hH : H ⊆ H') : Made t method n H' ns ps is ns' :=
  ⟨h.later, h.length, h.nodes, fun path x hx => (h.assigns path x hx).imp_right fun ⟨he, hhead, hrest⟩ =>
    ⟨he, hH hhead, hrest⟩, h.unique⟩

/-- Names that go on without anything being made. -/
theorem of_later (h : Made t method n H ns₁ ps is ns') (hlater : ns.Later ns₁) : Made t method n H ns ps is ns' :=
  ⟨hlater.trans h.later, h.length, h.nodes, fun path x hx => (h.assigns path x hx).imp_right
    fun ⟨he, hhead, hfresh, hspent⟩ => ⟨he, hhead, hlater.fresh hfresh, hspent⟩, h.unique⟩

/-- What is made for a child is made for a part of its parent. -/
theorem below {i : Nat} (h : Made t method c H ns ps is ns') (hc : n.children[i]? = some c) :
    Made t method n {some i} ns (SymbolTable.below i ps) is ns' := by
  have hassigns {p : Path} {y : String} (hy : AssignsAt (SymbolTable.below i ps) is p y) :
      ∃ q, p = i :: q ∧ AssignsAt ps is q y := by
    obtain ⟨type, value, hmem⟩ := hy
    simp only [SymbolTable.below, List.zip_map_left, List.mem_map, Prod.exists, Prod.map_apply, id_eq,
      Prod.mk.injEq] at hmem
    obtain ⟨q, i', hmem, rfl, rfl⟩ := hmem
    exact ⟨q, rfl, type, value, hmem⟩
  refine ⟨h.later, by simp [SymbolTable.below, h.length], fun path hpath => ?_, fun path x hx => ?_, ?_⟩
  · obtain ⟨q, hq, rfl⟩ := List.mem_map.1 hpath
    simpa [Node.at?, hc] using h.nodes q hq
  · obtain ⟨q, rfl, hchild⟩ := hassigns hx
    simp only [Node.hasExpression_cons hc, Node.at?, hc, Option.bind_some, List.head?_cons, Set.mem_singleton_iff,
      true_and]
    exact (h.assigns q x hchild).imp_right fun h => ⟨h.1, h.2.2⟩
  · intro path x path' x' hx hx' hpath hpath'
    obtain ⟨q, rfl, hchild⟩ := hassigns hx
    obtain ⟨q', rfl, hchild'⟩ := hassigns hx'
    rw [Node.hasExpression_cons hc] at hpath hpath'
    simpa using h.unique q x q' x' hchild hchild' hpath hpath'

/-- Instructions that a node is made itself and that assign nothing. -/
theorem own (hkind : n.kind.isExpression = true ∨ n.kind.isStatement = true)
    (hlength : ps.length = (placed is).length) (hps : ∀ p ∈ ps, p = [])
    (his : ∀ x type value, Instruction.assign (.var x type) value ∉ is) (ns : Names) : Made t method n ∅ ns ps is ns := by
  have hnone (path : Path) (x : String) : ¬AssignsAt ps is path x := by
    rintro ⟨type, value, hmem⟩
    exact his x type value (List.mem_of_mem_filter (List.of_mem_zip hmem).2)
  exact ⟨.refl ns, hlength, fun path hpath => ⟨n, by rw [hps path hpath]; rfl, hkind⟩,
    fun path x hx => absurd hx (hnone path x), fun path x _ _ hx => absurd hx (hnone path x)⟩

/-- Instructions that a node is made itself, behind others, and that assign nothing. -/
theorem append_own {q : List Path} {j : List Instruction} (h : Made t method n H ns ps is ns')
    (hkind : n.kind.isExpression = true ∨ n.kind.isStatement = true)
    (hlength : q.length = (placed j).length) (hq : ∀ p ∈ q, p = [])
    (hj : ∀ x type value, Instruction.assign (.var x type) value ∉ j) : Made t method n H ns (ps ++ q) (is ++ j) ns' :=
  (h.append (.own hkind hlength hq hj ns') (Set.disjoint_empty _)).mono (by rw [Set.union_empty])

/-- Instructions that an expression is made itself, and that assign the temporary that it is given. -/
theorem ownTemp (hkind : n.kind.isExpression = true) (hlength : ps.length = (placed is).length) (hps : ∀ p ∈ ps, p = [])
    (his : ∀ y type value, Instruction.assign (.var y type) value ∈ is → y = x)
    (htemp : ns.Later ns' ∧ ns.Fresh x ∧ ¬ns'.Fresh x) : Made t method n {none} ns ps is ns' := by
  have honly {path : Path} {y : String} (hy : AssignsAt ps is path y) : path = [] ∧ y = x := by
    obtain ⟨type, value, hmem⟩ := hy
    have hmem := List.of_mem_zip hmem
    exact ⟨hps _ hmem.1, his y type value (List.mem_of_mem_filter hmem.2)⟩
  refine ⟨htemp.1, hlength, fun path hpath => ⟨n, by rw [hps path hpath]; rfl, .inl hkind⟩, fun path y hy => ?_, ?_⟩
  · obtain ⟨rfl, rfl⟩ := honly hy
    exact .inr ⟨⟨n, rfl, hkind⟩, rfl, htemp.2⟩
  · intro path y path' y' hy hy' _ _
    obtain ⟨rfl, rfl⟩ := honly hy
    obtain ⟨rfl, rfl⟩ := honly hy'
    simp

/-- An instruction that an assignment is made itself, and that assigns a parameter or a local variable. -/
theorem ownAssign {type : Ty} {value : Instruction} (hkind : n.kind = .assign)
    (hbinding : (t.binding? (some method) x).isSome = true) (ns : Names) :
    Made t method n ∅ ns [[]] [.assign (.var x type) value] ns := by
  have honly {path : Path} {y : String} (hy : AssignsAt [[]] [.assign (.var x type) value] path y) :
      path = [] ∧ y = x := by
    obtain ⟨type', value', hmem⟩ := hy
    simp [placed, CodeMethod.isLabel] at hmem
    exact ⟨hmem.1, hmem.2.1.1⟩
  refine ⟨.refl ns, rfl, fun path hpath => ⟨n, by rw [List.mem_singleton.1 hpath]; rfl, .inr (by rw [hkind]; rfl)⟩,
    fun path y hy => ?_, fun path y path' y' hy hy' _ _ => ?_⟩
  · obtain ⟨rfl, rfl⟩ := honly hy
    exact .inl ⟨n, rfl, hkind, hbinding⟩
  · obtain ⟨rfl, rfl⟩ := honly hy
    obtain ⟨rfl, rfl⟩ := honly hy'
    simp

end Made

/-! ## Expressions -/

namespace SymbolTable
variable {t : SymbolTable} {method : String} {n : Node} {H : Set (Option Nat)} {ns ns₁ : Names} {ps : List Path}
  {before : List Instruction}
open Lower

/-- The children from one of them on. -/
def childrenFrom (i : Nat) : Set (Option Nat) := {head | ∃ j, i ≤ j ∧ head = some j}

theorem leaves_made_intoTemp (hkind : n.kind.isExpression = true) (hbefore : Made t method n H ns ps before ns₁)
    (hH : none ∉ H) (type : Ty) (value : Instruction) :
    Leaves ns₁ (intoTemp before type value) fun v ns' => Made t method n .univ ns (ps ++ [[]]) v.computation ns' := by
  refine leaves_temp.bind fun temp ns' htemp => .pure ?_
  have hown : Made t method n {none} ns₁ [[]] [.assign (.var temp type) value] ns' :=
    .ownTemp hkind rfl (by simp) (by grind) htemp
  exact (hbefore.append hown (by simpa using hH)).mono (Set.subset_univ _)

variable (t method) in
/-- The instructions of a lowered expression stand beside the nodes that they are made for. -/
def MakesValue (n : Node) : Prop :=
  ∀ expected ns, Leaves ns (t.lower method expected n) fun v ns' =>
    Made t method n .univ ns (t.makers method n) v.computation ns'

/-- The code of a child. -/
theorem MakesValue.leaves {c : Node} {i : Nat} (h : t.MakesValue method c) (hc : n.children[i]? = some c)
    (expected : Option Ty) (ns : Names) :
    Leaves ns (t.lower method expected c) fun v ns' =>
      Made t method n {some i} ns (below i (t.makers method c)) v.computation ns' :=
  (h expected ns).imp fun _ _ hv => hv.below hc

theorem leaves_made_lowerArguments {args : List Node} {i : Nat} (h : ∀ e ∈ args, t.MakesValue method e)
    (hargs : n.children.drop i = args) (params : List Ty) (ns : Names) :
    Leaves ns (t.lowerArguments method params args) fun r ns' =>
      Made t method n (childrenFrom i) ns (t.makersAll method [] i args) r.1 ns' := by
  induction args generalizing i params ns with
  | nil => exact .pure (by rw [makersAll]; exact .nil ns)
  | cons e es ih =>
    obtain ⟨he, hes⟩ := List.forall_mem_cons.1 h
    have hchild : n.children[i]? = some e := by rw [← Nat.add_zero i, ← List.getElem?_drop, hargs]; rfl
    have hrest : n.children.drop (i + 1) = es := by rw [← List.drop_drop, hargs]; rfl
    rw [lowerArguments, makersAll, List.append_nil]
    refine (he.leaves hchild _ ns).bind fun v ns₁ hv => (ih hes hrest _ ns₁).bind fun r ns' hr => .pure ?_
    refine (hv.append hr ?_).mono ?_
    · rw [Set.disjoint_left]
      rintro _ rfl ⟨j, hj, heq⟩
      have := Option.some.inj heq
      omega
    · rintro head (rfl | ⟨j, hj, rfl⟩)
      · exact ⟨i, Nat.le_refl i, rfl⟩
      · exact ⟨j, by omega, rfl⟩

theorem leaves_made_lowerElements {elements : List Node} {i : Nat} (hkind : n.kind.isExpression = true)
    (h : ∀ e ∈ elements, t.MakesValue method e) (hchildren : n.children.drop i = elements) (array : String) (element : Ty)
    (index : Nat) (ns : Names) :
    Leaves ns (t.lowerElements method array element index elements) fun is ns' =>
      Made t method n (childrenFrom i) ns (t.makersAll method [[]] i elements) is ns' := by
  induction elements generalizing i index ns with
  | nil => exact .pure (by rw [makersAll]; exact .nil ns)
  | cons e es ih =>
    obtain ⟨he, hes⟩ := List.forall_mem_cons.1 h
    have hchild : n.children[i]? = some e := by rw [← Nat.add_zero i, ← List.getElem?_drop, hchildren]; rfl
    have hrest : n.children.drop (i + 1) = es := by rw [← List.drop_drop, hchildren]; rfl
    rw [lowerElements, makersAll]
    refine (he.leaves hchild _ ns).bind fun v ns₁ hv => (ih hes hrest _ ns₁).bind fun is ns' his => .pure ?_
    have hstore : Made t method n ∅ ns₁ [[]]
        [.assign (.item array element (.literal index .int)) (.single v.code)] ns₁ :=
      .own (.inl hkind) rfl (by simp) (by simp) ns₁
    refine ((hv.append hstore (Set.disjoint_empty _)).append his ?_).mono ?_
    · rw [Set.disjoint_left]
      rintro _ (rfl | ⟨⟨⟩⟩) ⟨j, hj, heq⟩
      have := Option.some.inj heq
      omega
    · rintro head ((rfl | ⟨⟨⟩⟩) | ⟨j, hj, rfl⟩)
      · exact ⟨i, Nat.le_refl i, rfl⟩
      · exact ⟨j, by omega, rfl⟩

theorem leaves_made_lowerVariable {name : String} (hkind : n.kind.isExpression = true) (hname : n.name = .ok name)
    (ns : Names) :
    Leaves ns (t.lowerVariable method name) fun v ns' =>
      Made t method n .univ ns (if t.readsField method n then [[]] else []) v.computation ns' := by
  have hreads : t.readsField method n = ((t.binding? method name).isNone && (t.field? name).isSome) := by
    simp [readsField, hname, Except.toOption]
  intro v ns' hrun
  cases leaves_reading name ns v ns' hrun with
  | binding hs => simpa [hreads, hs] using .nil ns
  | field hbinding hf hv =>
    rw [hreads, hbinding, hf]
    exact (leaves_made_intoTemp hkind (.nil ns) (Set.notMem_empty _) _ _).of_run hv
  | imported hbinding hfield himported => simpa [hreads, hbinding, hfield] using .nil ns

theorem makers_and (attributes : Assoc Attribute) (left right : Node) (rest : List Node) (p : Position)
    (hop : Node.op ⟨.binary, attributes, left :: right :: rest, p⟩ = .ok "&&") :
    t.makers method ⟨.binary, attributes, left :: right :: rest, p⟩ =
      below 0 (t.makers method left) ++ [[]] ++ below 1 (t.makers method right) ++ [[], [], []] := by
  rw [makers]
  exact if_pos hop

theorem makers_binary (attributes : Assoc Attribute) (left right : Node) (rest : List Node) (p : Position)
    (hop : Node.op ⟨.binary, attributes, left :: right :: rest, p⟩ ≠ .ok "&&") :
    t.makers method ⟨.binary, attributes, left :: right :: rest, p⟩ =
      below 0 (t.makers method left) ++ below 1 (t.makers method right) ++ [[]] := by
  rw [makers]
  exact if_neg hop

/-- The receiver of a call stands beside its instructions. A class takes none. -/
theorem Targeting.made {own : Bool} {name : String} {receiver : Node} {invocation : Invocation} {target : Lowered}
    (h : t.Targeting method own name receiver ns invocation target ns₁) (hname : n.name = .ok name)
    (hown : t.isOwnCall (some method) name receiver = .ok own) (hchild : n.children[0]? = some receiver)
    (hreceiver : t.MakesValue method receiver) :
    Made t method n {some 0} ns (if t.skipsReceiver method n receiver then [] else below 0 (t.makers method receiver))
      target.computation ns₁ := by
  have hskips : t.skipsReceiver method n receiver = (own && t.isStatic name) := by
    simp [skipsReceiver, hname, hown, Except.toOption, Bool.and_comm]
  rw [hskips]
  cases h with
  | own hstatic =>
    rw [if_pos hstatic]
    exact .nil ns
  | @imported className hother hclass himported =>
    rw [hother, if_neg Bool.false_ne_true]
    -- the name of a class is no field, so that reading it takes no instruction
    obtain ⟨kind, attributes, children, p⟩ := receiver
    simp only [isClassReceiver] at hclass
    split at hclass
    · simp at hclass
    rename_i hkind
    obtain rfl : kind = .varRef := not_not.1 hkind
    simp only [himported, ok_bind, pure_eq_ok, Bool.and_eq_true] at hclass
    have hreads : t.readsField method ⟨.varRef, attributes, children, p⟩ = false := by
      simp [readsField, himported, Except.toOption, Option.isNone_iff_eq_none.1 hclass.1.2]
    have hmakers : t.makers method ⟨.varRef, attributes, children, p⟩ = [] := by
      rw [makers, hreads]
      rfl
    rw [hmakers]
    exact .nil ns
  | object hother hclass hobject =>
    rw [hother, if_neg Bool.false_ne_true]
    exact (hreceiver.leaves hchild none ns).of_run hobject

/-- The arguments of a call stand beside its children but the first, and the call beside itself. -/
theorem made_call {args : List Node} {invocation : Invocation} {target : Lowered} {name? : Option String} {type : Ty}
    {params : List Ty} {before : List Instruction} {codes : List Element} {v : Lowered} {ns₂ ns' : Names}
    (hkind : n.kind.isExpression = true) (hargs : ∀ e ∈ args, t.MakesValue method e) (hdrop : n.children.drop 1 = args)
    (htarget : Made t method n {some 0} ns ps target.computation ns₁)
    (hbefore : (t.lowerArguments method params args).run ns₁ = .ok ((before, codes), ns₂))
    (hv : Calling (target.computation ++ before) (.call invocation target.code name? codes type) type ns₂ v ns') :
    Made t method n .univ ns (ps ++ t.makersAll method [] 1 args ++ [[]]) v.computation ns' := by
  have hdisjoint : Disjoint ({some 0} : Set (Option Nat)) (childrenFrom 1) := by
    rw [Set.disjoint_left]
    rintro _ rfl ⟨j, hj, heq⟩
    have := Option.some.inj heq
    omega
  have hall := htarget.append ((leaves_made_lowerArguments hargs hdrop params ns₁).of_run hbefore) hdisjoint
  cases hv with
  | discarded hvoid =>
    have hcall : Made t method n ∅ ns₂ [[]] [.call invocation target.code name? codes type] ns₂ :=
      .own (.inl hkind) rfl (by simp) (by simp) ns₂
    exact (hall.append hcall (Set.disjoint_empty _)).mono (Set.subset_univ _)
  | kept hvoid hvalue =>
    refine (leaves_made_intoTemp hkind hall ?_ _ _).of_run hvalue
    rintro (hnone | ⟨j, -, hnone⟩)
    · cases hnone
    · cases hnone

/-- The instructions of an expression stand beside the nodes that they are made for. -/
theorem makesValue (n : Node) : t.MakesValue method n := by
  induction n using Node.induction_children with
  | step n ih =>
    intro expected ns v ns' hrun
    obtain ⟨kind, attributes, children, p⟩ := n
    cases leaves_lowering expected _ ns v ns' hrun with
    | intLiteral hkind | boolLiteral hkind | thisRef hkind =>
      obtain rfl : kind = _ := hkind
      exact .nil ns
    | varRef hkind hname hv =>
      obtain rfl : kind = .varRef := hkind
      rw [makers]
      exact (leaves_made_lowerVariable rfl hname ns).of_run hv
    | paren hkind hchildren hv =>
      obtain rfl : kind = .paren := hkind
      obtain rfl : children = _ := hchildren
      rw [makers]
      exact (((ih _ (by simp)).leaves rfl expected ns).of_run hv).mono (Set.subset_univ _)
    | @and left right rest number l r temp ns₁ ns₂ ns₃ _ hkind hop hchildren hlabel hl hr htemp =>
      obtain rfl : kind = .binary := hkind
      obtain rfl : children = _ := hchildren
      rw [makers_and _ _ _ _ _ hop]
      let n : Node := ⟨.binary, attributes, left :: right :: rest, p⟩
      have hl := ((ih left (by simp)).leaves (n := n) (i := 0) rfl _ _).of_run hl
      have hr := ((ih right (by simp)).leaves (n := n) (i := 1) rfl _ _).of_run hr
      have hbranch : Made t method n ∅ ns₂ [[]]
          [.branch (.unary "!" l.code .boolean) ("and_false_" ++ toString number)] ns₂ :=
        .own (.inl rfl) rfl (by simp) (by simp) ns₂
      have hown : Made t method n {none} ns₃ [[], [], []]
          [.assign (.var temp .boolean) (.single r.code), .goto ("and_end_" ++ toString number),
            .label ("and_false_" ++ toString number), .assign (.var temp .boolean) (.single (.literal 0 .boolean)),
            .label ("and_end_" ++ toString number)] ns' :=
        .ownTemp rfl rfl (by simp) (by grind) (leaves_temp.of_run htemp)
      exact ((((hl.append hbranch (by simp)).append hr (by simp)).append hown (by simp)).mono
        (Set.subset_univ _)).of_later (leaves_label.of_run hlabel)
    | @binary op o left right rest wanted wanted' l r _ ns₁ ns₂ _ hkind hop hand ho hchildren hl hr hv =>
      obtain rfl : kind = .binary := hkind
      obtain rfl : children = _ := hchildren
      rw [makers_binary _ _ _ _ _ (by rw [hop]; exact fun heq => hand (Except.ok.inj heq))]
      let n : Node := ⟨.binary, attributes, left :: right :: rest, p⟩
      have hl := ((ih left (by simp)).leaves (n := n) (i := 0) rfl _ _).of_run hl
      have hr := ((ih right (by simp)).leaves (n := n) (i := 1) rfl _ _).of_run hr
      exact (leaves_made_intoTemp rfl (hl.append hr (by simp)) (by simp) _ _).of_run hv
    | unary hkind hop hchildren hu hv =>
      obtain rfl : kind = .unary := hkind
      obtain rfl : children = _ := hchildren
      rw [makers]
      exact (leaves_made_intoTemp rfl (((ih _ (by simp)).leaves rfl _ ns).of_run hu) (by simp) _ _).of_run hv
    | newObject hkind hname htemp =>
      obtain rfl : kind = .newObject := hkind
      rw [makers]
      exact (Made.ownTemp rfl rfl (by simp) (by grind) (leaves_temp.of_run htemp)).mono (Set.subset_univ _)
    | newArray hkind hname hchildren hu hv =>
      obtain rfl : kind = .newArray := hkind
      obtain rfl : children = _ := hchildren
      rw [makers]
      exact (leaves_made_intoTemp rfl (((ih _ (by simp)).leaves rfl _ ns).of_run hu) (by simp) _ _).of_run hv
    | @arrayLiteral type array name stores ns₁ _ hkind htype harray hname hstores =>
      obtain rfl : kind = .arrayLiteral := hkind
      rw [makers]
      let n : Node := ⟨.arrayLiteral, attributes, children, p⟩
      have hnew : Leaves ns (lowerNewArray type.base.name ⟨.literal children.length .int, []⟩) fun v ns' =>
          Made t method n {none} ns [[]] v.computation ns' :=
        leaves_temp.bind fun temp ns' htemp => .pure (.ownTemp rfl rfl (by simp) (by grind) htemp)
      have hstores := (leaves_made_lowerElements (n := n) (i := 0) rfl ih rfl _ _ _ ns₁).of_run hstores
      refine ((hnew.of_run harray).append hstores ?_).mono (Set.subset_univ _)
      rw [Set.disjoint_left]
      rintro _ rfl ⟨j, -, heq⟩
      cases heq
    | @arrayAccess array index rest a i _ type name ns₁ ns₂ _ hkind hchildren ha hi htype hname hv =>
      obtain rfl : kind = .arrayAccess := hkind
      obtain rfl : children = _ := hchildren
      rw [makers]
      let n : Node := ⟨.arrayAccess, attributes, array :: index :: rest, p⟩
      have ha := ((ih array (by simp)).leaves (n := n) (i := 0) rfl _ ns).of_run ha
      have hi := ((ih index (by simp)).leaves (n := n) (i := 1) rfl _ ns₁).of_run hi
      exact (leaves_made_intoTemp rfl (ha.append hi (by simp)) (by simp) _ _).of_run hv
    | length hkind hchildren ha hv =>
      obtain rfl : kind = .length := hkind
      obtain rfl : children = _ := hchildren
      rw [makers]
      exact (leaves_made_intoTemp rfl (((ih _ (by simp)).leaves rfl _ ns).of_run ha) (by simp) _ _).of_run hv
    | @lengthCall receiver type a _ ns₁ _ hkind hname hchildren hown htype harray ha hv =>
      obtain rfl : kind = .call := hkind
      obtain rfl : children = _ := hchildren
      have hskips : t.skipsReceiver method ⟨.call, attributes, [receiver], p⟩ receiver = false := by
        simp [skipsReceiver, hname, hown, Except.toOption]
      rw [makers, hskips, if_neg Bool.false_ne_true, makersAll, List.append_nil]
      exact (leaves_made_intoTemp rfl (((ih _ (by simp)).leaves rfl _ ns).of_run ha) (by simp) _ _).of_run hv
    | call hkind hname hname? hchildren hown hlength htarget hsignature hargs hv =>
      obtain rfl : kind = .call := hkind
      obtain rfl : children = _ := hchildren
      rw [makers]
      exact made_call rfl (fun e he => ih e (List.mem_cons_of_mem _ he)) rfl
        (htarget.made hname hown rfl (ih _ (by simp))) hargs hv

/-! ## Statements -/

variable (t method) in
/-- The instructions of a statement stand beside the nodes that they are made for. -/
def MakesCode (returnType : Ty) (n : Node) : Prop :=
  ∀ ns, Leaves ns (t.lowerStatement method returnType n) fun is ns' =>
    Made t method n .univ ns (t.codeMakers method n) is ns'

/-- A store, where the array and the index stand in one node and the value in another. -/
theorem leaves_made_lowerStore {k array index value : Node} {i j l : Nat} {f : List Path → List Path}
    (hkind : n.kind.isStatement = true) (harray : k.children[i]? = some array) (hindex : k.children[j]? = some index)
    (hij : i ≠ j) (hvalue : n.children[l]? = some value) (hl : some l ∉ H)
    (hf : ∀ {ns ps is ns'}, Made t method k ({some i} ∪ {some j}) ns ps is ns' → Made t method n H ns (f ps) is ns')
    (ns : Names) :
    Leaves ns (t.lowerStore method array index value) fun is ns' => Made t method n .univ ns
      (f (below i (t.makers method array) ++ below j (t.makers method index)) ++ below l (t.makers method value) ++ [[]])
      is ns' := by
  intro is ns' hrun
  cases leaves_storing array index value ns is ns' hrun with
  | @intro _ i v type name _ _ _ ha hi htype hv hname =>
    have ha := ((makesValue array).leaves harray _ _).of_run ha
    have hi := ((makesValue index).leaves hindex _ _).of_run hi
    have hv := ((makesValue value).leaves hvalue _ _).of_run hv
    have hoperands := hf (ha.append hi (by simpa using hij))
    have hstore : Made t method n ∅ ns' [[]] [.assign (.item name type.base i.code) (.single v.code)] ns' :=
      .own (.inr hkind) rfl (by simp) (by simp) ns'
    exact ((hoperands.append hv (by simpa using hl)).append hstore (Set.disjoint_empty _)).mono (Set.subset_univ _)

theorem leaves_made_lowerAssign {target value : Node} {name : String} (hkind : n.kind = .assign)
    (hname : target.name = .ok name) (hvalue : n.children[1]? = some value) (ns : Names) :
    Leaves ns (t.lowerAssign method name value) fun is ns' => Made t method n .univ ns
      ((if t.isUpdate method target value then [] else below 1 (t.makers method value)) ++ [[]]) is ns' := by
  intro is ns' hrun
  have hvalue {wanted : Option Ty} {v : Lowered} {ns ns' : Names} (hv : (t.lower method wanted value).run ns = .ok (v, ns')) :
      Made t method n {some 1} ns (below 1 (t.makers method value)) v.computation ns' :=
    ((makesValue value).leaves hvalue _ _).of_run hv
  cases leaves_assigning name value ns is ns' hrun with
  | update hs hupdate =>
    have hisUpdate : t.isUpdate method target value = true := by simp [isUpdate, hname, hs, hupdate, Except.toOption]
    rw [if_pos hisUpdate]
    exact (Made.ownAssign hkind (by simp [hs]) ns).mono (Set.subset_univ _)
  | binding hs hupdate hv =>
    have hisUpdate : t.isUpdate method target value = false := by simp [isUpdate, hname, hs, hupdate, Except.toOption]
    rw [hisUpdate]
    exact ((hvalue hv).append (.ownAssign hkind (by simp [hs]) ns') (Set.disjoint_empty _)).mono (Set.subset_univ _)
  | @field f v _ hbinding hf hv =>
    have hisUpdate : t.isUpdate method target value = false := by simp [isUpdate, hname, hbinding, Except.toOption]
    rw [hisUpdate]
    have hput : Made t method n ∅ ns' [[]] [.putField t.thisElement (.var name f.type) v.code] ns' :=
      .own (.inr (by rw [hkind]; rfl)) rfl (by simp) (by simp) ns'
    exact ((hvalue hv).append hput (Set.disjoint_empty _)).mono (Set.subset_univ _)

theorem getElem?_of_child {c : Node} {i : Nat} (h : n.child i = .ok c) : n.children[i]? = some c := by
  unfold Node.child at h
  split at h
  · rename_i hget
    rw [hget, Except.ok.inj h]
  · cases h

theorem children_eq_of_child {a b : Node} (ha : n.child 0 = .ok a) (hb : n.child 1 = .ok b) :
    ∃ rest, n.children = a :: b :: rest := by
  have hfirst := getElem?_of_child ha
  have hsecond := getElem?_of_child hb
  rcases hcs : n.children with _ | ⟨a', _ | ⟨b', rest⟩⟩
  · simp [hcs] at hfirst
  · simp [hcs] at hsecond
  · simp only [hcs, List.getElem?_cons_zero, List.getElem?_cons_succ, Option.some.injEq] at hfirst hsecond
    exact ⟨rest, by rw [hfirst, hsecond]⟩

/-- The instructions of a condition stand beside the nodes that they are made for, and the jump comes behind them. -/
theorem leaves_made_lowerBranch (condition : Node) (label : String) (ns : Names) :
    Leaves ns (t.lowerBranch method condition label) fun is ns' => ∃ before test, is = before ++ [.branch test label] ∧
      Made t method condition .univ ns (t.testMakers method condition) before ns' := by
  intro is ns' hrun
  unfold testMakers
  cases leaves_testing condition label ns is ns' hrun with
  | comparison hkind hop hcompares hleft hright hl hr =>
    refine ⟨_, _, rfl, ?_⟩
    obtain ⟨rest, hchildren⟩ := children_eq_of_child hleft hright
    rw [if_pos ⟨hkind, by simpa [hop, Except.toOption] using hcompares⟩, hchildren]
    have hl := ((makesValue _).leaves (getElem?_of_child hleft) _ ns).of_run hl
    have hr := ((makesValue _).leaves (getElem?_of_child hright) _ _).of_run hr
    exact (hl.append hr (by simp)).mono (Set.subset_univ _)
  | @negation operand v _ hkind hop hoperand hv =>
    refine ⟨_, _, rfl, ?_⟩
    rw [if_neg (by simp [hkind]), if_pos ⟨hkind, hop⟩]
    have hfirst := getElem?_of_child hoperand
    rcases hchildren : condition.children with _ | ⟨first, rest⟩
    · simp [hchildren] at hfirst
    · obtain rfl : first = operand := by simpa [hchildren] using hfirst
      exact (((makesValue first).leaves hfirst _ ns).of_run hv).mono (Set.subset_univ _)
  | value hbinary hunary hv =>
    refine ⟨_, _, rfl, ?_⟩
    rw [if_neg, if_neg]
    · exact (makesValue condition _ ns).of_run hv
    · rintro ⟨hkind, hnot⟩
      obtain ⟨op, hop, hne⟩ := hunary hkind
      exact hne (Except.ok.inj (hop.symm.trans hnot))
    · rintro ⟨hkind, hcompares⟩
      obtain ⟨op, hop, hnone⟩ := hbinary hkind
      simp [hop, Except.toOption, hnone] at hcompares

/-- Statements among the children of a node, where those that are left out have no instructions. -/
theorem leaves_made_lowerSequence {returnType : Ty} {children : List Node} {i : Nat} {f : Node → Bool}
    (hskips : ∀ c, f c = false → t.codeMakers method c = []) (h : ∀ c ∈ children, t.MakesCode method returnType c)
    (hchildren : n.children.drop i = children) (ns : Names) :
    Leaves ns (t.lowerSequence method returnType (children.filter f)) fun is ns' =>
      Made t method n (childrenFrom i) ns (t.codeMakersAll method i children) is ns' := by
  induction children generalizing i ns with
  | nil => exact .pure (by rw [codeMakersAll]; exact .nil ns)
  | cons c cs ih =>
    obtain ⟨hc, hcs⟩ := List.forall_mem_cons.1 h
    have hchild : n.children[i]? = some c := by rw [← Nat.add_zero i, ← List.getElem?_drop, hchildren]; rfl
    have hrest : n.children.drop (i + 1) = cs := by rw [← List.drop_drop, hchildren]; rfl
    have hheads : childrenFrom (i + 1) ⊆ childrenFrom i := by
      rintro _ ⟨j, hj, rfl⟩
      exact ⟨j, by omega, rfl⟩
    rw [codeMakersAll]
    cases hkeeps : f c with
    | true =>
      rw [List.filter_cons_of_pos hkeeps, lowerSequence]
      refine (hc ns).bind fun first ns₁ hfirst => (ih hcs hrest ns₁).bind fun rest ns' hmade => .pure ?_
      refine ((hfirst.below hchild).append hmade ?_).mono (Set.union_subset ?_ hheads)
      · rw [Set.disjoint_left]
        rintro _ rfl ⟨j, hj, heq⟩
        have := Option.some.inj heq
        omega
      · rintro _ rfl
        exact ⟨i, Nat.le_refl i, rfl⟩
    | false =>
      rw [List.filter_cons_of_neg (by simp [hkeeps]), hskips c hkeeps]
      exact (ih hcs hrest ns).imp fun _ _ hmade => hmade.mono hheads

/-- The condition of a statement, with the jump that tests it. -/
theorem leaves_made_test {condition : Node} {i : Nat} (hkind : n.kind.isStatement = true)
    (hchild : n.children[i]? = some condition) (label : String) (ns : Names) :
    Leaves ns (t.lowerBranch method condition label) fun is ns' =>
      Made t method n {some i} ns (below i (t.testMakers method condition) ++ [[]]) is ns' := by
  refine (leaves_made_lowerBranch condition label ns).imp ?_
  rintro is ns' ⟨before, test, rfl, hbefore⟩
  exact (hbefore.below hchild).append_own (.inr hkind) rfl (by simp) (by simp)

section
variable {condition thenPart elsePart body : Node} {test first second : List Instruction} {ns₂ ns' : Names}

theorem made_ifThen (hkind : n.kind.isStatement = true) (hthenPart : n.children[1]? = some thenPart) (number : String)
    (htest : Made t method n {some 0} ns (below 0 (t.testMakers method condition) ++ [[]]) test ns₁)
    (hsecond : Made t method thenPart .univ ns₁ (t.codeMakers method thenPart) second ns') :
    Made t method n .univ ns
      (below 0 (t.testMakers method condition) ++ [[]] ++ [[]] ++ below 1 (t.codeMakers method thenPart))
      (test ++ [.goto ("if_end_" ++ number), .label ("if_then_" ++ number)] ++ second ++ [.label ("if_end_" ++ number)])
      ns' := by
  have hjump := htest.append_own (q := [[]]) (j := [.goto ("if_end_" ++ number), .label ("if_then_" ++ number)])
    (.inr hkind) rfl (by simp) (by simp)
  have hend := (hjump.append (hsecond.below hthenPart) (by simp)).append_own (q := []) (j := [.label ("if_end_" ++ number)])
    (.inr hkind) rfl (by simp) (by simp)
  rw [List.append_nil] at hend
  exact hend.mono (Set.subset_univ _)

theorem made_ifElse (hkind : n.kind.isStatement = true) (hthenPart : n.children[1]? = some thenPart)
    (helsePart : n.children[2]? = some elsePart) (number : String)
    (htest : Made t method n {some 0} ns (below 0 (t.testMakers method condition) ++ [[]]) test ns₁)
    (hfirst : Made t method elsePart .univ ns₁ (t.codeMakers method elsePart) first ns₂)
    (hsecond : Made t method thenPart .univ ns₂ (t.codeMakers method thenPart) second ns') :
    Made t method n .univ ns
      (below 0 (t.testMakers method condition) ++ [[]] ++ below 2 (t.codeMakers method elsePart) ++ [[]] ++
        below 1 (t.codeMakers method thenPart))
      (test ++ [.label ("if_else_" ++ number)] ++ first ++ [.goto ("if_end_" ++ number), .label ("if_then_" ++ number)] ++
        second ++ [.label ("if_end_" ++ number)]) ns' := by
  have hlabel := htest.append_own (q := []) (j := [.label ("if_else_" ++ number)]) (.inr hkind) rfl (by simp) (by simp)
  rw [List.append_nil] at hlabel
  have hjump := (hlabel.append (hfirst.below helsePart) (by simp)).append_own (q := [[]])
    (j := [.goto ("if_end_" ++ number), .label ("if_then_" ++ number)]) (.inr hkind) rfl (by simp) (by simp)
  have hend := (hjump.append (hsecond.below hthenPart) (by simp)).append_own (q := []) (j := [.label ("if_end_" ++ number)])
    (.inr hkind) rfl (by simp) (by simp)
  rw [List.append_nil] at hend
  exact hend.mono (Set.subset_univ _)

theorem made_while (hkind : n.kind.isStatement = true) (hbody : n.children[1]? = some body) (number : String)
    (hfirst : Made t method body .univ ns (t.codeMakers method body) first ns₁)
    (htest : Made t method n {some 0} ns₁ (below 0 (t.testMakers method condition) ++ [[]]) test ns') :
    Made t method n .univ ns
      ([[]] ++ below 1 (t.codeMakers method body) ++ below 0 (t.testMakers method condition) ++ [[]])
      ([.goto ("while_cond_" ++ number), .label ("while_body_" ++ number)] ++ first ++ [.label ("while_cond_" ++ number)] ++
        test ++ [.label ("while_end_" ++ number)]) ns' := by
  have hjump : Made t method n ∅ ns [[]] [.goto ("while_cond_" ++ number), .label ("while_body_" ++ number)] ns :=
    .own (.inr hkind) rfl (by simp) (by simp) ns
  have hlabel := (hjump.append (hfirst.below hbody) (Set.empty_disjoint _)).append_own (q := [])
    (j := [.label ("while_cond_" ++ number)]) (.inr hkind) rfl (by simp) (by simp)
  rw [List.append_nil] at hlabel
  have hend := (hlabel.append htest (by simp)).append_own (q := []) (j := [.label ("while_end_" ++ number)])
    (.inr hkind) rfl (by simp) (by simp)
  rw [List.append_nil, ← List.append_assoc] at hend
  exact hend.mono (Set.subset_univ _)

end

/-- The instructions of a statement stand beside the nodes that they are made for. -/
theorem makesCode (returnType : Ty) (n : Node) : t.MakesCode method returnType n := by
  induction n using Node.induction_children with
  | step n ih =>
    intro ns is ns' hrun
    obtain ⟨kind, attributes, children, p⟩ := n
    cases leaves_loweringCode returnType _ ns is ns' hrun with
    | block hkind his =>
      obtain rfl : kind = .block := hkind
      rw [codeMakers]
      have hall := leaves_made_lowerSequence (n := ⟨.block, attributes, children, p⟩) (i := 0) (f := fun _ => true)
        (by simp) ih rfl ns
      rw [List.filter_true] at hall
      exact (hall.of_run his).mono (Set.subset_univ _)
    | exprStmt hkind hchildren hv =>
      obtain rfl : kind = .exprStmt := hkind
      obtain rfl : children = _ := hchildren
      rw [codeMakers]
      exact (((makesValue _).leaves rfl _ ns).of_run hv).mono (Set.subset_univ _)
    | @assignElement target array index value _ _ hkind hchildren htarget harray hindex his =>
      obtain rfl : kind = .assign := hkind
      obtain rfl : children = _ := hchildren
      obtain ⟨rest, hparts⟩ := children_eq_of_child harray hindex
      rw [codeMakers, if_pos htarget, hparts]
      let n : Node := ⟨.assign, attributes, [target, value], p⟩
      exact (leaves_made_lowerStore (n := n) (k := target) (i := 0) (j := 1) (l := 1) (f := below 0) rfl
        (by rw [hparts]; rfl) (by rw [hparts]; rfl) (by decide) rfl (by simp) (fun h => h.below rfl) ns).of_run his
    | assign hkind hchildren htarget hname his =>
      obtain rfl : kind = .assign := hkind
      obtain rfl : children = _ := hchildren
      rw [codeMakers, if_neg htarget]
      exact (leaves_made_lowerAssign rfl hname rfl ns).of_run his
    | @arrayAssign array index value _ _ hkind hchildren his =>
      obtain rfl : kind = .arrayAssign := hkind
      obtain rfl : children = _ := hchildren
      rw [codeMakers]
      let n : Node := ⟨.arrayAssign, attributes, [array, index, value], p⟩
      exact (leaves_made_lowerStore (n := n) (k := n) (i := 0) (j := 1) (l := 2) (f := id) rfl rfl rfl (by decide) rfl
        (by simp) id ns).of_run his
    | returnNothing hkind hchildren =>
      obtain rfl : kind = .returnStmt := hkind
      obtain rfl : children = _ := hchildren
      rw [codeMakers]
      exact (Made.own (.inr rfl) rfl (by simp) (by simp) ns).mono (Set.subset_univ _)
    | @returnValue value rest v _ hkind hchildren hv =>
      obtain rfl : kind = .returnStmt := hkind
      obtain rfl : children = _ := hchildren
      rw [codeMakers]
      let n : Node := ⟨.returnStmt, attributes, value :: rest, p⟩
      have hv := ((makesValue value).leaves (n := n) (i := 0) rfl _ ns).of_run hv
      exact (hv.append_own (.inr rfl) rfl (by simp) (by simp)).mono (Set.subset_univ _)
    | @ifElse condition thenPart elsePart number _ _ _ ns₁ _ _ _ hkind hchildren hlabel htest hfirst hsecond =>
      obtain rfl : kind = .ifStmt := hkind
      obtain rfl : children = _ := hchildren
      rw [codeMakers.eq_def]
      have htest := (leaves_made_test (n := ⟨.ifStmt, attributes, [condition, thenPart, elsePart], p⟩) (i := 0) rfl rfl _
        ns₁).of_run htest
      exact (made_ifElse rfl rfl rfl _ htest ((ih elsePart (by simp) _).of_run hfirst)
        ((ih thenPart (by simp) _).of_run hsecond)).of_later (leaves_label.of_run hlabel)
    | @ifThen condition thenPart rest number _ _ ns₁ _ _ hkind hchildren hrest hlabel htest hsecond =>
      obtain rfl : kind = .ifStmt := hkind
      obtain rfl : children = _ := hchildren
      have hmakers : t.codeMakers method ⟨.ifStmt, attributes, condition :: thenPart :: rest, p⟩ =
          below 0 (t.testMakers method condition) ++ [[]] ++ [[]] ++ below 1 (t.codeMakers method thenPart) := by
        rcases rest with _ | ⟨_, _ | ⟨_, _⟩⟩
        · rw [codeMakers.eq_def]
        · exact absurd rfl hrest
        · rw [codeMakers.eq_def]
      rw [hmakers]
      have htest := (leaves_made_test (n := ⟨.ifStmt, attributes, condition :: thenPart :: rest, p⟩) (i := 0) rfl rfl _
        ns₁).of_run htest
      exact (made_ifThen rfl rfl _ htest ((ih thenPart (by simp) _).of_run hsecond)).of_later (leaves_label.of_run hlabel)
    | @whileLoop condition body rest number _ _ _ ns₂ _ hkind hchildren hlabel hfirst htest =>
      obtain rfl : kind = .whileStmt := hkind
      obtain rfl : children = _ := hchildren
      rw [codeMakers]
      have htest := (leaves_made_test (n := ⟨.whileStmt, attributes, condition :: body :: rest, p⟩) (i := 0) rfl rfl _
        ns₂).of_run htest
      exact (made_while rfl rfl _ ((ih body (by simp) _).of_run hfirst) htest).of_later (leaves_label.of_run hlabel)

end SymbolTable
end JmmCompiler

import JmmCompiler.Proofs.DocumentedShape
import JmmCompiler.Proofs.WrittenProgram
/-! Hoisting. A tree is made from what is written part by part, from the inside out and from left to right.
One list holds the declarations that have been met; the end of a method takes them all and leaves the list
empty. So the declarations of a method are those that are written in it, in the order of the text. -/
namespace JmmCompiler

/-! ## The transformation -/

/-- A step of the transformation. The state holds the declarations that no method has taken yet. -/
abbrev Hoist := StateM (List Node)

/-- The declaration that an item is, as the method lists it. -/
def Item.declared? : Item → Option Node
  | .declaration type name _ => some (Node.named .varDecl name.text [type] type.position)
  | .statement _ => none

mutual
def Statement.transform : Statement → Hoist Node
  | .block p items => do
    let nodes ← Item.transformAll items
    return Node.plain .block nodes p
  | .ifThen p c t => do
    let t ← t.transform
    return Node.plain .ifStmt [c, t] p
  | .ifElse p c t e => do
    let t ← t.transform
    let e ← e.transform
    return Node.plain .ifStmt [c, t, e] p
  | .whileLoop p c b => do
    let b ← b.transform
    return Node.plain .whileStmt [c, b] p
  | .simple n => return n

/-- A declaration joins those that wait, and its initial value is assigned in its place. -/
def Item.transform : Item → Hoist (Option Node)
  | .declaration type name initial => do
    modify (· ++ [Node.named .varDecl name.text [type] type.position])
    return initial.map fun value => Node.plain .assign [Node.reference name, value] type.position
  | .statement s => do
    let s ← s.transform
    return some s

/-- What is left of the items of a block. -/
def Item.transformAll : List Item → Hoist (List Node)
  | [] => return []
  | i :: is => do
    let node ← i.transform
    let nodes ← Item.transformAll is
    return node.toList ++ nodes
end

/-- A method takes the declarations that wait. -/
def Member.transform : Member → Hoist Node
  | .field modifiers type name => return Node.named .varDecl name.text [type] (start modifiers type)
  | .method modifiers type name params body => do
    let statements ← Item.transformAll body
    let locals ← getModify fun _ => []
    let has (kind : TokenKind) : Attribute := .bool (modifiers.any (·.kind = kind))
    return ⟨.methodDecl,
      ⟨[("name", .text name.text), ("is_public", has .publicWord), ("is_static", has .staticWord)]⟩,
      type :: params ++ locals ++ statements, start modifiers type⟩

def Written.transform (w : Written) : Hoist Node := do
  let members ← w.members.mapM Member.transform
  return w.tree members

/-! What one step does to the list: a part adds the declarations in it at the end. -/

theorem Hoist.run_bind {α β : Type} {x : Hoist α} {f : α → Hoist β} {waiting after : List Node} {a : α}
    (h : x.run waiting = (a, after)) : (x >>= f).run waiting = (f a).run after := by
  rw [StateT.run_bind, h]
  rfl

mutual
theorem Statement.run_transform : ∀ (s : Statement) (waiting : List Node),
    s.transform.run waiting = (s.node, waiting ++ s.locals)
  | .block p items, waiting => by
    rw [Statement.transform, Hoist.run_bind (Item.run_transformAll items waiting), Statement.node,
      Statement.locals]
    rfl
  | .ifThen p c t, waiting => by
    rw [Statement.transform, Hoist.run_bind (t.run_transform waiting), Statement.node, Statement.locals]
    rfl
  | .ifElse p c t e, waiting => by
    rw [Statement.transform, Hoist.run_bind (t.run_transform waiting),
      Hoist.run_bind (e.run_transform (waiting ++ t.locals)), Statement.node, Statement.locals,
      ← List.append_assoc]
    rfl
  | .whileLoop p c b, waiting => by
    rw [Statement.transform, Hoist.run_bind (b.run_transform waiting), Statement.node, Statement.locals]
    rfl
  | .simple n, waiting => by
    rw [Statement.transform, Statement.node, Statement.locals, List.append_nil]
    rfl

theorem Item.run_transform : ∀ (i : Item) (waiting : List Node),
    i.transform.run waiting = (i.node?, waiting ++ i.locals)
  | .declaration type name initial, waiting => by
    rw [Item.transform, Item.node?, Item.locals]
    rfl
  | .statement s, waiting => by
    rw [Item.transform, Hoist.run_bind (s.run_transform waiting), Item.node?, Item.locals]
    rfl

theorem Item.run_transformAll : ∀ (is : List Item) (waiting : List Node),
    (Item.transformAll is).run waiting = (Item.allNodes is, waiting ++ Item.allLocals is)
  | [], waiting => by
    rw [Item.transformAll, Item.allNodes, Item.allLocals, List.append_nil]
    rfl
  | i :: is, waiting => by
    rw [Item.transformAll, Hoist.run_bind (i.run_transform waiting),
      Hoist.run_bind (Item.run_transformAll is (waiting ++ i.locals)), Item.allNodes, Item.allLocals,
      ← List.append_assoc]
    rfl
end

/-- Where no declaration waits before a member, none waits after it. -/
theorem Member.run_transform (m : Member) : m.transform.run [] = (m.node, []) := by
  cases m with
  | field modifiers type name => rfl
  | method modifiers type name params body =>
    rw [Member.transform, Hoist.run_bind (Item.run_transformAll body [])]
    rfl

theorem Member.run_transformAll (ms : List Member) :
    (ms.mapM Member.transform).run [] = (ms.map Member.node, []) := by
  induction ms with
  | nil => rfl
  | cons m ms ih =>
    rw [List.mapM_cons, Hoist.run_bind m.run_transform, Hoist.run_bind ih]
    rfl

theorem Written.run_transform (w : Written) : w.transform.run [] = (w.node, []) := by
  rw [Written.transform, Hoist.run_bind (Member.run_transformAll w.members)]
  rfl

/-! ## What is written in a method -/

mutual
/-- The declarations and the simple statements in a statement, at any depth, in the order of the text. -/
def Statement.parts : Statement → List Item
  | .block _ items => Item.allParts items
  | .ifThen _ _ t => t.parts
  | .ifElse _ _ t e => t.parts ++ e.parts
  | .whileLoop _ _ b => b.parts
  | .simple n => [.statement (.simple n)]

def Item.parts : Item → List Item
  | .declaration type name initial => [.declaration type name initial]
  | .statement s => s.parts

def Item.allParts : List Item → List Item
  | [] => []
  | i :: is => i.parts ++ Item.allParts is
end

mutual
theorem Statement.locals_eq : ∀ s : Statement, s.locals = s.parts.filterMap Item.declared?
  | .block _ items => by simp [Statement.locals, Statement.parts, Item.allLocals_eq items]
  | .ifThen _ _ t => by simp [Statement.locals, Statement.parts, t.locals_eq]
  | .ifElse _ _ t e => by simp [Statement.locals, Statement.parts, t.locals_eq, e.locals_eq]
  | .whileLoop _ _ b => by simp [Statement.locals, Statement.parts, b.locals_eq]
  | .simple _ => by simp [Statement.locals, Statement.parts, Item.declared?]

theorem Item.locals_eq : ∀ i : Item, i.locals = i.parts.filterMap Item.declared?
  | .declaration _ _ _ => by simp [Item.locals, Item.parts, Item.declared?]
  | .statement s => by simp [Item.locals, Item.parts, s.locals_eq]

theorem Item.allLocals_eq : ∀ is : List Item, Item.allLocals is = (Item.allParts is).filterMap Item.declared?
  | [] => by simp [Item.allLocals, Item.allParts]
  | i :: is => by simp [Item.allLocals, Item.allParts, i.locals_eq, Item.allLocals_eq is]
end

/-! ## The nodes of a tree in the order of the text -/

namespace Node
variable {n : Node}

/-- All nodes of a tree, each before its children. -/
def listing (n : Node) : List Node := n.preorder.map (·.2)

theorem map_located (path : Path) (n : Node) : (located path n).map (·.2) = n.children := by
  simp [located, Function.comp_def, List.zipIdx_map_fst]

theorem visit_append (a b : List (Path × Node)) : visit (a ++ b) = visit a ++ visit b := by
  induction a using visit.induct with
  | case1 => rw [visit, List.nil_append, List.nil_append]
  | case2 path n pending ih => rw [List.cons_append, visit, visit, ← List.append_assoc, ih, List.cons_append]

/-- The nodes that are visited do not depend on the paths. -/
theorem map_visit_congr {a b : List (Path × Node)} (h : a.map (·.2) = b.map (·.2)) :
    (visit a).map (·.2) = (visit b).map (·.2) := by
  induction a using visit.induct generalizing b with
  | case1 =>
    obtain rfl : b = [] := by simpa using h.symm
    rfl
  | case2 path n pending ih =>
    obtain ⟨⟨q, d⟩, rest, rfl, hd, hrest⟩ := List.map_eq_cons_iff.1 h.symm
    obtain rfl : d = n := hd
    rw [visit, visit, List.map_cons, List.map_cons]
    refine congrArg (d :: ·) (ih ?_)
    rw [List.map_append, List.map_append, map_located, map_located, hrest]

theorem map_visit (pending : List (Path × Node)) :
    (visit pending).map (·.2) = (pending.map (·.2)).flatMap listing := by
  induction pending with
  | nil => simp [visit]
  | cons v pending ih =>
    have hfirst : (visit [v]).map (·.2) = v.2.listing := map_visit_congr (by simp)
    rw [← List.singleton_append, visit_append, List.map_append, hfirst, ih]
    simp

theorem listing_eq (n : Node) : n.listing = n :: n.children.flatMap listing := by
  rw [listing, preorder, visit, List.map_cons, List.append_nil, map_visit, map_located]

/-- The nodes of some kinds among those of a tree. -/
def ofKinds (kinds : List Kind) (n : Node) : List Node := n.listing.filter (kinds.contains ·.kind)

theorem ofKinds_eq (kinds : List Kind) (n : Node) :
    n.ofKinds kinds = (if n.kind ∈ kinds then [n] else []) ++ n.children.flatMap (ofKinds kinds) := by
  have hbelow : (n.children.flatMap listing).filter (kinds.contains ·.kind) =
      n.children.flatMap (ofKinds kinds) := List.filter_flatMap
  rw [ofKinds, listing_eq, List.filter_cons, hbelow]
  by_cases h : n.kind ∈ kinds <;> simp [h]

theorem map_descendants {kinds : List Kind} (hkinds : kinds ≠ []) (n : Node) :
    (n.descendants kinds).map (·.2) = n.children.flatMap (ofKinds kinds) := by
  have hfilter : n.descendants kinds =
      (visit (located [] n)).filter ((fun c : Node => kinds.contains c.kind) ∘ (·.2)) := by
    rw [descendants, List.isEmpty_eq_false_iff.2 hkinds]
    rfl
  rw [hfilter, ← List.filter_map, map_visit, map_located, List.filter_flatMap]
  rfl

/-- In a tree whose nodes are of other kinds there are none. -/
theorem ofKinds_eq_nil {Q : Node → Prop} {kinds : List Kind} (hstep : ∀ n c, Q n → c ∈ n.children → Q c)
    (hne : ∀ n, Q n → n.kind ∉ kinds) (h : Q n) : n.ofKinds kinds = [] := by
  induction n using induction_children with
  | step n ih =>
    rw [ofKinds_eq, if_neg (hne n h), List.nil_append, List.flatMap_eq_nil_iff]
    exact fun c hc => ih c hc (hstep n c h hc)

theorem IsExpression.child {e c : Node} (h : e.IsExpression) (hc : c ∈ e.children) : c.IsExpression :=
  (h.everywhere.child hc (IsPart.kind_child (.inl h) c hc)).here

/-- The kinds of the statements without statements in them. -/
def simpleKinds : List Kind := [.assign, .arrayAssign, .exprStmt, .returnStmt]

theorem IsExpression.simples {e : Node} (h : e.IsExpression) : e.ofKinds simpleKinds = [] := by
  refine ofKinds_eq_nil (Q := IsExpression) (fun n c hn hc => hn.child hc) (fun n hn hmem => ?_) h
  have hkind := hn.isExpression_kind
  simp only [simpleKinds, List.mem_cons, List.not_mem_nil, or_false] at hmem
  rcases hmem with hmem | hmem | hmem | hmem <;> simp [hmem, Kind.isExpression] at hkind

theorem IsSimple.simples {s : Node} (h : s.IsSimple) : s.ofKinds simpleKinds = [s] := by
  have hkind : s.kind ∈ simpleKinds := by cases h <;> simp [simpleKinds]
  have hchildren : ∀ c ∈ s.children, c.IsExpression := by
    cases h with
    | assign hname hvalue p q => simpa using ⟨.varRef hname p, hvalue⟩
    | arrayAssign hname hindex hvalue p q => simpa using ⟨.varRef hname p, hindex, hvalue⟩
    | exprStmt he p => simpa using he
    | returnNothing p => simp
    | returnValue hvalue p => simpa using hvalue
  have hnone : s.children.flatMap (ofKinds simpleKinds) = [] :=
    List.flatMap_eq_nil_iff.2 fun c hc => (hchildren c hc).simples
  rw [ofKinds_eq, if_pos hkind, hnone, List.append_nil]

theorem simples_plain {kind : Kind} (hkind : kind ∉ simpleKinds) (children : List Node) (p : Position) :
    (plain kind children p).ofKinds simpleKinds = children.flatMap (ofKinds simpleKinds) := by
  rw [ofKinds_eq]
  exact congrArg (· ++ _) (if_neg hkind)

/-- No declaration is left under a statement. -/
theorem IsStatement.declarations {s : Node} (h : s.IsStatement) : s.ofKinds [.varDecl] = [] := by
  refine ofKinds_eq_nil (Q := IsPart) (fun n c hn hc => hn.child hc) (fun n hn hmem => ?_) (.inr h)
  have hkind := List.mem_singleton.1 hmem
  rcases hn with hn | hn
  · simpa [hkind, Kind.isExpression] using hn.isExpression_kind
  · simpa [hkind, Kind.isStatement] using hn.isStatement_kind

theorem IsType.ofKinds_eq_nil {type : Node} (h : type.IsType) {kinds : List Kind} (hkinds : .typeRef ∉ kinds) :
    type.ofKinds kinds = [] := by
  obtain ⟨hname, harray, p⟩ := h
  rw [Node.ofKinds_eq, if_neg hkinds]
  rfl

theorem IsParam.ofKinds_eq_nil {q : Node} (h : q.IsParam) {kinds : List Kind} (hparam : .param ∉ kinds)
    (hkinds : .typeRef ∉ kinds) : q.ofKinds kinds = [] := by
  obtain ⟨hname, htype, p⟩ := h
  rw [Node.ofKinds_eq, if_neg hparam, List.flatMap_singleton, htype.ofKinds_eq_nil hkinds, List.nil_append]

theorem IsVarDecl.ofKinds {d : Node} (h : d.IsVarDecl) {kinds : List Kind} (hkinds : .typeRef ∉ kinds) :
    d.ofKinds kinds = if .varDecl ∈ kinds then [d] else [] := by
  obtain ⟨hname, htype, p⟩ := h
  rw [Node.ofKinds_eq, List.flatMap_singleton, htype.ofKinds_eq_nil hkinds, List.append_nil]

end Node

namespace Item
open Node

theorem simples_allNodes {items : List Item}
    (h : ∀ i ∈ items, i.node?.toList.flatMap (ofKinds simpleKinds) = i.parts.filterMap node?) :
    (allNodes items).flatMap (ofKinds simpleKinds) = (allParts items).filterMap node? := by
  induction items with
  | nil => rfl
  | cons i is ih =>
    obtain ⟨hi, his⟩ := List.forall_mem_cons.1 h
    rw [allNodes, allParts, List.flatMap_append, List.filterMap_append, hi, ih his]

/-- The simple statements that are left of an item are those of its parts. -/
theorem Readable.simples {i : Item} (h : i.Readable) :
    i.node?.toList.flatMap (ofKinds simpleKinds) = i.parts.filterMap node? := by
  let Keeps (s : Statement) : Prop := s.node.ofKinds simpleKinds = s.parts.filterMap node?
  refine @Item.Readable.rec
    (fun s _ => (∀ h ∈ s.headers, h.condition.IsExpression) ∧ Keeps s.body)
    (fun i _ => i.node?.toList.flatMap (ofKinds simpleKinds) = i.parts.filterMap node?)
    ?block ?simple ?declaration ?statement i h
  case block =>
    intro headers items p hheaders _ ih
    refine ⟨hheaders, ?_⟩
    simp only [Keeps, Statement.node, Statement.parts]
    rw [simples_plain (by decide), simples_allNodes ih]
  case simple =>
    intro headers n hheaders hn
    exact ⟨hheaders, by simp [Keeps, Statement.node, Statement.parts, hn.simples, node?]⟩
  case declaration =>
    intro type name initial htype hname hinitial
    cases initial with
    | none => simp [node?, Item.parts]
    | some value =>
      have hassign : (plain .assign [reference name, value] type.position).IsSimple :=
        .assign hname (hinitial value rfl) _ _
      simp [node?, Item.parts, hassign.simples]
  case statement =>
    intro first rest _ _ ih
    have hkeeps : Keeps (Segment.resolve first rest) := by
      refine Segment.resolve_induction (C := IsExpression) ?_ ?_ ?_ ih
      · intro p c b hc hb
        simp only [Keeps, Statement.node, Statement.parts]
        rw [simples_plain (by decide), ← hb]
        simp [hc.simples]
      · intro p c t hc ht
        simp only [Keeps, Statement.node, Statement.parts]
        rw [simples_plain (by decide), ← ht]
        simp [hc.simples]
      · intro p c t e hc ht he
        simp only [Keeps, Statement.node, Statement.parts]
        rw [simples_plain (by decide), List.filterMap_append, ← ht, ← he]
        simp [hc.simples]
    simpa [node?, Item.parts, Statement.node] using hkeeps

end Item

/-! ## What a member leaves in the tree -/

/-- What is made of a member. The children of a method are its return type, its parameters, the declarations
that are written in it and statements; nowhere else in it is a declaration, and its simple statements are
those that are written, with an assignment in the place of each declaration that has an initial value. -/
def Member.Leaves (n : Node) : Member → Prop
  | .field _ type name =>
    n.kind = .varDecl ∧ n.attributes = ⟨[("name", .text name.text)]⟩ ∧ n.children = [type]
  | .method _ type name params body =>
    let declared := (Item.allParts body).filterMap Item.declared?
    n.kind = .methodDecl ∧ n.name = .ok name.text ∧
      (∃ statements, n.children = type :: params ++ declared ++ statements ∧
        type.kind = .typeRef ∧ (∀ q ∈ params, q.kind = .param) ∧ (∀ d ∈ declared, d.kind = .varDecl) ∧
        ∀ s ∈ statements, s.kind.isStatement) ∧
      (n.descendants [.varDecl]).map (·.2) = declared ∧
      (n.descendants Node.simpleKinds).map (·.2) = (Item.allParts body).filterMap Item.node?

theorem Member.Readable.leaves {m : Member} (h : m.Readable) : m.Leaves m.node := by
  cases m with
  | field modifiers type name => exact ⟨rfl, rfl, rfl⟩
  | method modifiers type name params body =>
    obtain ⟨htype, hparams, hbody⟩ := h
    have hlocals := Item.isVarDecl_of_mem_allLocals hbody
    have hstatements := Item.isStatement_of_mem_allNodes hbody
    have hbelow (kinds : List Kind) (hkinds : kinds ≠ []) (hparam : .param ∉ kinds) (href : .typeRef ∉ kinds) :
        ((node (.method modifiers type name params body)).descendants kinds).map (·.2) =
          (Item.allLocals body).flatMap (Node.ofKinds kinds) ++
            (Item.allNodes body).flatMap (Node.ofKinds kinds) := by
      have hnone : params.flatMap (Node.ofKinds kinds) = [] :=
        List.flatMap_eq_nil_iff.2 fun q hq => (hparams q hq).ofKinds_eq_nil hparam href
      rw [Node.map_descendants hkinds]
      simp [node, Reader.methodNode, htype.ofKinds_eq_nil href, hnone]
    refine ⟨rfl, rfl, ⟨Item.allNodes body, ?_, htype.kind_eq, ?_, ?_, ?_⟩, ?_, ?_⟩
    · rw [← Item.allLocals_eq]
      rfl
    · intro q hq
      cases hparams q hq
      rfl
    · intro d hd
      rw [← Item.allLocals_eq] at hd
      cases hlocals d hd
      rfl
    · exact fun s hs => (hstatements s hs).isStatement_kind
    · have hself : (Item.allLocals body).flatMap (Node.ofKinds [.varDecl]) =
          (Item.allLocals body).flatMap fun d => [d] := List.flatMap_congr fun d hd => by
        simp [(hlocals d hd).ofKinds]
      have hnone : (Item.allNodes body).flatMap (Node.ofKinds [.varDecl]) = [] :=
        List.flatMap_eq_nil_iff.2 fun s hs => (hstatements s hs).declarations
      rw [hbelow [.varDecl] (by simp) (by decide) (by decide), hself, hnone, List.flatMap_singleton',
        List.append_nil, Item.allLocals_eq]
    · have hnone : (Item.allLocals body).flatMap (Node.ofKinds Node.simpleKinds) = [] :=
        List.flatMap_eq_nil_iff.2 fun d hd => by simp [(hlocals d hd).ofKinds, Node.simpleKinds]
      rw [hbelow Node.simpleKinds (by simp [Node.simpleKinds]) (by decide) (by decide), hnone,
        List.nil_append, Item.simples_allNodes fun i hi => (hbody i hi).simples]

theorem Written.classDecl_node (w : Written) (h : w.node.IsProgram) :
    w.node.classDecl = .ok (w.classTree (w.members.map Member.node)) := by
  have hnone : w.imports.find? (·.kind = .classDecl) = none := by
    rw [node, tree, Node.plain] at h
    generalize hchildren : w.imports ++ [w.classTree (w.members.map Member.node)] = children at h
    obtain ⟨himports, -, -⟩ := h
    obtain ⟨himportsEq, -⟩ := List.append_inj' hchildren rfl
    refine List.find?_eq_none.2 fun i hi => ?_
    cases himports i (himportsEq ▸ hi)
    simp
  simp [node, tree, Node.plain, Node.classDecl, List.find?_append, hnone, classTree]

/-- The tree of a text has the documented shape, and hoisting loses nothing. The text is that of a written
program; the transformation makes the tree from it, starting and ending with no declaration that waits; and
each member of the class holds the declarations and the statements that are written in it. -/
theorem Node.parse_hoists {source : String} {root : Node} (h : Node.parse source = .ok root) :
    (∀ v ∈ root.preorder, v.2.HasShape) ∧
      ∃ w : Written, (Lexer.tokens source).map Token.normal = w.lexemes ∧ w.transform.run [] = (root, []) ∧
        ∃ decl, root.classDecl = .ok decl ∧ List.Forall₂ (fun m n => m.Leaves n) w.members decl.children := by
  have hprogram := isProgram_of_parse h
  refine ⟨fun v hv => (hprogram.isPiece_of_mem v hv).hasShape, ?_⟩
  obtain ⟨w, rfl, hreadable, htokens⟩ := exists_written_of_parse h
  refine ⟨w, htokens, w.run_transform, _, w.classDecl_node hprogram, ?_⟩
  exact List.forall₂_map_right_iff.2 (List.forall₂_same.2 fun m hm => (hreadable m hm).leaves)

/-- Declarations in a loop, in a block and under a branch, and one in another method. -/
theorem Node.parse_hoists_nested :
    ∃ root,
      Node.parse
        ("class A\x7bint x;int f(int n)\x7bint i=07;while(i<n)\x7bboolean b;\x7bint m=i;x=m;\x7di=i+1;\x7d" ++
          "if(n<3)\x7bint k;\x7delse return 1;return i;\x7dstatic void g()\x7bint n;\x7d\x7d") = .ok root ∧
      (root.descendants [.methodDecl]).map (fun v => (v.2.childrenOf [.varDecl]).map (·.spelled "name")) =
        [["i", "b", "m", "k"], ["n"]] ∧
      (root.descendants simpleKinds).map (·.2.kind) =
        [.assign, .assign, .assign, .assign, .returnStmt, .returnStmt] ∧
      ∃ w : Written, w.transform.run [] = (root, []) := by
  have hparsed :
      (Node.parse
        ("class A\x7bint x;int f(int n)\x7bint i=07;while(i<n)\x7bboolean b;\x7bint m=i;x=m;\x7di=i+1;\x7d" ++
          "if(n<3)\x7bint k;\x7delse return 1;return i;\x7dstatic void g()\x7bint n;\x7d\x7d")).toOption.map
        (fun root =>
          ((root.descendants [.methodDecl]).map fun v => (v.2.childrenOf [.varDecl]).map (·.spelled "name"),
            (root.descendants simpleKinds).map (·.2.kind))) =
        some ([["i", "b", "m", "k"], ["n"]],
          [.assign, .assign, .assign, .assign, .returnStmt, .returnStmt]) := by decide +kernel
  obtain ⟨root, hroot, hvalues⟩ := exists_of_toOption hparsed
  obtain ⟨hlocals, hsimples⟩ := Prod.mk.inj hvalues
  obtain ⟨-, w, -, hw, -⟩ := parse_hoists hroot
  exact ⟨root, hroot, hlocals, hsimples, w, hw⟩

end JmmCompiler

import JmmCompiler.Checks
import JmmCompiler.Proofs.Results
import JmmCompiler.Proofs.Subtrees
import JmmCompiler.Source.Reader
import Mathlib.Data.List.Nodup
/-! The walk over a tree. The walk keeps a list of the trees that are still to be visited; what it visits is the
listing of a tree by recursion, in which every node comes once and before its children. A check calls its rules in
that order, and the method that it knows of at a node is the closest one on the way from the root. -/
namespace JmmCompiler

namespace Node

mutual
/-- The nodes below a node with their paths, each before its children, from left to right. -/
def inside (path : Path) : Node → List (Path × Node)
  | ⟨_, _, children, _⟩ => insideAll path 0 children

/-- The same for the children from an index on, and for what is below them. -/
def insideAll (path : Path) (index : Nat) : List Node → List (Path × Node)
  | [] => []
  | c :: cs => (path ++ [index], c) :: (c.inside (path ++ [index]) ++ insideAll path (index + 1) cs)
end

/-- A node and the nodes below it. -/
def visits (v : Path × Node) : List (Path × Node) := v :: v.2.inside v.1

variable {root n d : Node} {path q : Path}

theorem insideAll_eq (path : Path) (index : Nat) (cs : List Node) :
    insideAll path index cs = ((cs.zipIdx index).map fun c => (path ++ [c.2], c.1)).flatMap visits := by
  induction cs generalizing index with
  | nil => rfl
  | cons c cs ih => simp [insideAll, visits, ih]

theorem inside_eq (path : Path) (n : Node) : n.inside path = (located path n).flatMap visits := by
  cases n
  rw [inside, insideAll_eq]
  rfl

/-! ## The walk -/

/-- What the walk visits are the pending trees, one after the other. -/
theorem visit_eq (pending : List (Path × Node)) : visit pending = pending.flatMap visits := by
  induction pending using visit.induct with
  | case1 => simp [visit]
  | case2 path n pending ih =>
    rw [visit, ih, List.flatMap_append, ← inside_eq]
    rfl

theorem visit_located (path : Path) (n : Node) : visit (located path n) = n.inside path := by
  rw [visit_eq, inside_eq]

theorem preorder_eq (root : Node) : root.preorder = ([], root) :: root.inside [] := by
  rw [preorder, visit_eq, List.flatMap_singleton]
  rfl

/-! ## Each node once -/

theorem exists_of_mem_inside (h : (q, d) ∈ n.inside path) : ∃ i r, q = path ++ i :: r ∧ n.at? (i :: r) = some d := by
  induction n using induction_children generalizing path q with
  | step n ih =>
    rw [inside_eq, List.mem_flatMap] at h
    obtain ⟨v, hv, hd⟩ := h
    obtain ⟨⟨c, i⟩, hc, rfl⟩ := List.mem_map.1 hv
    have hchild : n.children[i]? = some c := List.mem_zipIdx_iff_getElem?.1 hc
    rcases List.mem_cons.1 hd with hd | hd
    · obtain ⟨rfl, rfl⟩ := Prod.mk.inj hd
      exact ⟨i, [], rfl, by simp [at?, hchild]⟩
    · obtain ⟨j, r, rfl, hat⟩ := ih c (List.mem_of_getElem? hchild) hd
      exact ⟨i, j :: r, by simp, by rw [at?, hchild, Option.bind_some, hat]⟩

/-- The nodes that are visited are those at the paths of the tree. -/
theorem mem_preorder_iff : (q, d) ∈ root.preorder ↔ root.at? q = some d := by
  refine ⟨fun h => ?_, mem_preorder⟩
  rw [preorder_eq] at h
  rcases List.mem_cons.1 h with h | h
  · obtain ⟨rfl, rfl⟩ := Prod.mk.inj h
    rfl
  · obtain ⟨i, r, rfl, hat⟩ := exists_of_mem_inside h
    exact hat

/-- Below different children there are different paths. -/
theorem nodup_inside (n : Node) (path : Path) : ((n.inside path).map (·.1)).Nodup := by
  induction n using induction_children generalizing path with
  | step n ih =>
    rw [inside_eq, List.map_flatMap, List.nodup_flatMap]
    refine ⟨fun v hv => ?_, ?_⟩
    · obtain ⟨⟨c, i⟩, hc, rfl⟩ := List.mem_map.1 hv
      have hchild : c ∈ n.children := List.mem_of_getElem? (List.mem_zipIdx_iff_getElem?.1 hc)
      refine List.nodup_cons.2 ⟨fun hmem => ?_, ih c hchild _⟩
      obtain ⟨⟨p, d⟩, hd, hp⟩ := List.mem_map.1 hmem
      obtain ⟨j, r, hq, -⟩ := exists_of_mem_inside hd
      simp [hq] at hp
    · have hhead {v : Path × Node} {i : Nat} {c : Node} (hv : v = (path ++ [i], c)) {p : Path}
          (hp : p ∈ (visits v).map (·.1)) : ∃ r, p = path ++ i :: r := by
        subst hv
        obtain ⟨⟨p, d⟩, hd, rfl⟩ := List.mem_map.1 hp
        rcases List.mem_cons.1 hd with hd | hd
        · obtain ⟨rfl, rfl⟩ := Prod.mk.inj hd
          exact ⟨[], rfl⟩
        · obtain ⟨j, r, rfl, -⟩ := exists_of_mem_inside hd
          exact ⟨j :: r, by simp⟩
      rw [located, List.pairwise_map]
      refine List.Pairwise.imp_of_mem (R := fun a b => a.2 < b.2) (fun {a b} _ _ hlt p hpa hpb => ?_) ?_
      · obtain ⟨r, rfl⟩ := hhead rfl hpa
        obtain ⟨r', heq⟩ := hhead rfl hpb
        obtain ⟨hi, -⟩ := List.cons.inj (List.append_cancel_left heq)
        exact absurd hi (Nat.ne_of_lt hlt)
      · have hsorted := List.pairwise_lt_range' (s := 0) (n := n.children.length) 1
        rwa [← List.zipIdx_map_snd, List.pairwise_map] at hsorted

theorem nodup_preorder (root : Node) : (root.preorder.map (·.1)).Nodup := by
  rw [preorder_eq, List.map_cons]
  refine List.nodup_cons.2 ⟨fun hmem => ?_, nodup_inside root []⟩
  obtain ⟨⟨p, d⟩, hd, hp⟩ := List.mem_map.1 hmem
  obtain ⟨i, r, rfl, -⟩ := exists_of_mem_inside hd
  cases hp

/-! ## The method of a node -/

/-- The closest node of a kind above a path: no other node of the kind stands between them. -/
def IsNearest (root : Node) (kind : Kind) (path : Path) (d : Node) : Prop :=
  ∃ q, q <+: path ∧ q ≠ path ∧ root.at? q = some d ∧ d.kind = kind ∧
    ∀ r e, r <+: path → r ≠ path → q.length < r.length → root.at? r = some e → e.kind ≠ kind

/-- The nodes on the way to a path are those at its proper prefixes. -/
theorem getElem?_above (h : root.at? path = some n) (i : Nat) :
    (root.above path)[i]? = if i < path.length then root.at? (path.take i) else none := by
  induction path generalizing root i with
  | nil => simp [above]
  | cons j path ih =>
    obtain ⟨c, hc, hrest⟩ := Option.bind_eq_some_iff.1 (show root.children[j]?.bind (·.at? path) = some n from h)
    cases i with
    | zero => simp [above, at?]
    | succ i => simp [above, at?, hc, ih hrest i]

theorem ancestor?_eq_some_iff {kind : Kind} (h : root.at? path = some n) :
    (root.ancestor? path kind).map (·.2) = some d ↔ root.IsNearest kind path d := by
  have habove := getElem?_above h
  rw [ancestor?_map, List.find?_eq_some_iff_append]
  constructor
  · rintro ⟨hd, later, earlier, heq, hlater⟩
    have hsplit : root.above path = earlier.reverse ++ d :: later.reverse := by
      simpa using congrArg List.reverse heq
    have hlength : earlier.length < path.length := by
      by_contra hle
      have hnone := habove earlier.length
      rw [if_neg hle, hsplit] at hnone
      simp at hnone
    have hat : root.at? (path.take earlier.length) = some d := by
      have hget := habove earlier.length
      rw [if_pos hlength, hsplit] at hget
      simpa using hget.symm
    have hproper : (path.take earlier.length).length = earlier.length := by simp; omega
    refine ⟨path.take earlier.length, List.take_prefix _ _, fun heq => ?_, hat, by simpa using hd, ?_⟩
    · rw [heq] at hproper
      omega
    · intro r e hr hne hlt he hkind
      have hrlength : r.length < path.length :=
        Nat.lt_of_le_of_ne hr.length_le fun heq => hne (hr.eq_of_length heq)
      have hget := habove r.length
      rw [if_pos hrlength, ← List.prefix_iff_eq_take.1 hr, he, hsplit,
        List.getElem?_append_right (by simp; omega)] at hget
      obtain ⟨k, hk⟩ : ∃ k, r.length - earlier.reverse.length = k + 1 := ⟨r.length - earlier.length - 1, by simp; omega⟩
      rw [hk, List.getElem?_cons_succ] at hget
      simpa [hkind] using hlater e (by simpa using List.mem_of_getElem? hget)
  · rintro ⟨q, hq, hne, hat, hkind, hbetween⟩
    have hqlength : q.length < path.length :=
      Nat.lt_of_le_of_ne hq.length_le fun heq => hne (hq.eq_of_length heq)
    have hget := habove q.length
    rw [if_pos hqlength, ← List.prefix_iff_eq_take.1 hq, hat] at hget
    obtain ⟨hlt, hget⟩ := List.getElem?_eq_some_iff.1 hget
    refine ⟨by simpa using hkind, ((root.above path).drop (q.length + 1)).reverse,
      ((root.above path).take q.length).reverse, ?_, fun e he => ?_⟩
    · have hsplit : root.above path = (root.above path).take q.length ++ d :: (root.above path).drop (q.length + 1) := by
        rw [← hget, ← List.drop_eq_getElem_cons hlt, List.take_append_drop]
      simpa using congrArg List.reverse hsplit
    · obtain ⟨k, hk⟩ := List.getElem?_of_mem (List.mem_reverse.1 he)
      rw [List.getElem?_drop, habove] at hk
      split at hk
      · rename_i hklength
        have hrlength : (path.take (q.length + 1 + k)).length = q.length + 1 + k := by simp; omega
        have hother := hbetween (path.take (q.length + 1 + k)) e (List.take_prefix _ _)
          (fun heq => by rw [heq] at hrlength; omega) (by omega) hk
        simpa using hother
      · cases hk

end Node

/-! ## Checks -/

namespace Check
variable {c : Check} {kinds : List Kind} {root : Node} {table : SymbolTable}

/-- A check has rules for nodes of some kinds only, and has nothing to say about others. -/
def IsAbout (c : Check) (kinds : List Kind) : Prop := ∀ s : Site, s.node.kind ∉ kinds → c.rule s = .ok []

/-- The checks of a program with the kinds that they have rules for. -/
def handlers : List (Check × List Kind) :=
  [(duplicateDeclarations, [.program, .classDecl, .methodDecl]),
   (varargsDeclarations, [.classDecl, .methodDecl]),
   (undeclaredVariables, [.varRef, .thisRef]),
   (undefinedMethods, [.call]),
   (typeChecks, [.ifStmt, .whileStmt, .binary, .unary, .arrayAccess, .arrayLiteral, .newArray, .length, .assign,
     .arrayAssign]),
   (controlFlow, [.classDecl, .methodDecl, .block, .returnStmt])]

theorem map_handlers : handlers.map (·.1) = all := rfl

theorem isAbout_handlers : ∀ h ∈ handlers, h.1.IsAbout h.2 := by
  intro h hmem s hkind
  simp only [handlers, List.mem_cons, List.not_mem_nil, or_false] at hmem
  rcases hmem with rfl | rfl | rfl | rfl | rfl | rfl <;>
    simp only [List.mem_cons, List.not_mem_nil, or_false, not_or] at hkind
  · dsimp only [duplicateDeclarations]
    split <;> simp_all [pure, Except.pure]
  · dsimp only [varargsDeclarations]
    split <;> simp_all [pure, Except.pure]
  · dsimp only [undeclaredVariables]
    split <;> simp_all [pure, Except.pure]
  · dsimp only [undefinedMethods]
    split <;> simp_all [pure, Except.pure]
  · dsimp only [typeChecks]
    split <;> simp_all [pure, Except.pure]
  · dsimp only [controlFlow]
    split <;> simp_all [pure, Except.pure]

/-- Results that are empty outside of a list need not be asked for. -/
theorem mapM_filter {α β : Type} {f : α → Except Failure (List β)} {p : α → Bool} {xs : List α}
    (h : ∀ x ∈ xs, p x = false → f x = .ok []) :
    (do return (← xs.mapM f).flatten) = (do return (← (xs.filter p).mapM f).flatten : Except Failure (List β)) := by
  induction xs with
  | nil => rfl
  | cons x xs ih =>
    have hrest := ih fun y hy => h y (List.mem_cons_of_mem _ hy)
    cases hx : p x with
    | true =>
      rw [List.filter_cons_of_pos hx, List.mapM_cons, List.mapM_cons]
      cases f x with
      | error e => rfl
      | ok y =>
        simp only [ok_bind, bind_assoc, pure_bind, List.flatten_cons]
        have happend := congrArg (fun r : Except Failure (List β) => (y ++ ·) <$> r) hrest
        simpa only [map_bind, map_pure] using happend
    | false =>
      rw [List.filter_cons_of_neg (by simp [hx]), List.mapM_cons, h x List.mem_cons_self hx, ← hrest]
      simp [ok_bind]

/-- The walk lists the nodes of a tree once each, a node before its children and the root first, and what is below the
root is listed by kinds if any are given. A check calls its rule in that order for the nodes of its kinds. There a
method declaration belongs to itself, and any other node to the closest method declaration above it, if there is one.
All checks of a program have kinds that they are about. -/
theorem run_walks (root : Node) (c : Check) (kinds : List Kind) (hc : c.IsAbout kinds) (table : SymbolTable) :
    (∀ kinds, root.descendants kinds = (root.inside []).filter fun v => decide (kinds = [] ∨ v.2.kind ∈ kinds)) ∧
      ((Node.visits ([], root)).map (·.1)).Nodup ∧
      (∀ path n, (path, n) ∈ Node.visits ([], root) ↔ root.at? path = some n) ∧
      (∀ path n, (path, n) ∈ Node.visits ([], root) →
        (n.kind = .methodDecl → root.methodAt? path n = some n) ∧
        (n.kind ≠ .methodDecl → ∀ d, root.methodAt? path n = some d ↔ root.IsNearest .methodDecl path d)) ∧
      (handlers.map (·.1) = all ∧ ∀ h ∈ handlers, h.1.IsAbout h.2) ∧
      c.run table root = (do
        let found ← ((Node.visits ([], root)).filter fun v => decide (v.2.kind ∈ kinds)).mapM fun v =>
          c.rule ⟨table, root.methodAt? v.1 v.2, v.2⟩
        return found.flatten) := by
  have hlist : Node.visits ([], root) = root.preorder := (Node.preorder_eq root).symm
  rw [hlist]
  refine ⟨fun kinds => ?_, Node.nodup_preorder root, fun path n => Node.mem_preorder_iff, fun path n hn => ⟨fun hkind => ?_,
    fun hkind d => ?_⟩, ⟨map_handlers, isAbout_handlers⟩, ?_⟩
  · rw [Node.descendants, Node.visit_located]
    exact List.filter_congr fun v _ => by cases kinds <;> simp
  · exact if_pos hkind
  · rw [Node.methodAt?, if_neg hkind]
    exact Node.ancestor?_eq_some_iff (Node.mem_preorder_iff.1 hn)
  · exact mapM_filter fun v _ hv => hc _ (by simpa using hv)

/-- The check of returns in two methods, in one of them inside another statement. -/
theorem run_walks_returns :
    ∃ root, Node.parse "class T\x7bint x;int f()\x7bif(true)\x7breturn 1;\x7dreturn 2;\x7dstatic int g()\x7breturn 3;\x7d\x7d" =
        .ok root ∧
      ((Node.visits ([], root)).filter fun v => decide (v.2.kind ∈ [.classDecl, .methodDecl, .block, .returnStmt])).map
          (fun v => (v.2.kind, (root.methodAt? v.1 v.2).bind (·.name.toOption))) =
        [(.classDecl, none), (.methodDecl, some "f"), (.block, some "f"), (.returnStmt, some "f"), (.returnStmt, some "f"),
          (.methodDecl, some "g"), (.returnStmt, some "g")] ∧
      controlFlow.IsAbout [.classDecl, .methodDecl, .block, .returnStmt] ∧
      ∀ table, controlFlow.run table root = (do
        let found ← ((Node.visits ([], root)).filter fun v =>
          decide (v.2.kind ∈ [.classDecl, .methodDecl, .block, .returnStmt])).mapM fun v =>
            controlFlow.rule ⟨table, root.methodAt? v.1 v.2, v.2⟩
        return found.flatten) := by
  obtain ⟨root, hroot, hsites⟩ := exists_of_toOption (show (Node.parse
      "class T\x7bint x;int f()\x7bif(true)\x7breturn 1;\x7dreturn 2;\x7dstatic int g()\x7breturn 3;\x7d\x7d").toOption.map
      (fun root => ((Node.visits ([], root)).filter fun v =>
          decide (v.2.kind ∈ [.classDecl, .methodDecl, .block, .returnStmt])).map
          (fun v => (v.2.kind, (root.methodAt? v.1 v.2).bind (·.name.toOption)))) =
      some [(.classDecl, none), (.methodDecl, some "f"), (.block, some "f"), (.returnStmt, some "f"), (.returnStmt, some "f"),
        (.methodDecl, some "g"), (.returnStmt, some "g")] by decide +kernel)
  have habout : controlFlow.IsAbout [.classDecl, .methodDecl, .block, .returnStmt] :=
    isAbout_handlers (controlFlow, _) (by simp [handlers])
  exact ⟨root, hroot, hsites, habout, fun table => (run_walks root controlFlow _ habout table).2.2.2.2.2⟩

end Check
end JmmCompiler

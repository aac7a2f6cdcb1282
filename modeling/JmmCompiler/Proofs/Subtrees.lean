import JmmCompiler.Tree.Walk
/-! Properties of all nodes of a tree, and the walk that visits them. -/
namespace JmmCompiler.Node

theorem count_lt_of_mem {n c : Node} (h : c ∈ n.children) : c.count < n.count := by
  have hle : ∀ cs : List Node, c ∈ cs → c.count ≤ countAll cs := by
    intro cs hc
    induction cs with
    | nil => simp at hc
    | cons d ds ih =>
      rw [countAll]
      rcases List.mem_cons.1 hc with rfl | hc
      · omega
      · have := ih hc
        omega
  have hsum := hle _ h
  rw [count_eq n]
  omega

/-- What holds of a node when it holds of its children holds of all nodes. -/
theorem induction_children {motive : Node → Prop} (step : ∀ n, (∀ c ∈ n.children, motive c) → motive n)
    (n : Node) : motive n :=
  step n fun c _ => induction_children step c
termination_by n.count
decreasing_by exact count_lt_of_mem ‹_›

/-- A property of all nodes of a tree, the method declarations below its root and what is in them left
out. -/
inductive Everywhere (P : Node → Prop) : Node → Prop
  | intro {n : Node} (here : P n)
      (below : ∀ c ∈ n.children, c.kind ≠ .methodDecl → Everywhere P c) : Everywhere P n

variable {P Q : Node → Prop} {root n c decl : Node} {path : Path} {i : Nat}

theorem Everywhere.here (h : n.Everywhere P) : P n := by
  cases h with
  | intro here _ => exact here

theorem Everywhere.child (h : n.Everywhere P) (hc : c ∈ n.children) (hkind : c.kind ≠ .methodDecl) :
    c.Everywhere P := by
  cases h with
  | intro _ below => exact below c hc hkind

theorem Everywhere.imp (hPQ : ∀ n, P n → Q n) (h : n.Everywhere P) : n.Everywhere Q := by
  induction h with
  | intro here _ ih => exact .intro (hPQ _ here) ih

theorem Everywhere.of_forall (h : ∀ n, P n) (n : Node) : n.Everywhere P := by
  induction n using induction_children with
  | step n ih => exact .intro (h n) fun c hc _ => ih c hc

theorem Everywhere.and (hP : n.Everywhere P) (hQ : n.Everywhere Q) :
    n.Everywhere fun n => P n ∧ Q n := by
  induction hP with
  | intro here _ ih => exact .intro ⟨here, hQ.here⟩ fun c hc hkind => ih c hc hkind (hQ.child hc hkind)

/-- What holds everywhere in a tree holds everywhere below each of its nodes. -/
theorem Everywhere.everywhere (h : n.Everywhere P) : n.Everywhere fun n => n.Everywhere P := by
  induction h with
  | intro here below ih => exact .intro (.intro here below) ih

/-! ## Paths -/

theorem at?_append_singleton (h : root.at? path = some n) (hc : n.children[i]? = some c) :
    root.at? (path ++ [i]) = some c := by
  induction path generalizing root with
  | nil =>
    obtain rfl : root = n := by simpa [at?] using h
    simp [at?, hc]
  | cons j path ih =>
    simp only [at?] at h
    obtain ⟨d, hd, hrest⟩ := Option.bind_eq_some_iff.1 h
    simp only [List.cons_append, at?, hd, Option.bind_some]
    exact ih hrest

theorem above_append_singleton (h : root.at? path = some n) :
    root.above (path ++ [i]) = root.above path ++ [n] := by
  induction path generalizing root with
  | nil =>
    obtain rfl : root = n := by simpa [at?] using h
    cases hc : root.children[i]? <;> simp [above, hc]
  | cons j path ih =>
    simp only [at?] at h
    obtain ⟨d, hd, hrest⟩ := Option.bind_eq_some_iff.1 h
    simp only [List.cons_append, above, hd]
    rw [ih hrest]

/-- What holds of all pending nodes and goes from a node to its children holds of all nodes that are visited. -/
theorem forall_mem_visit {Q : Path → Node → Prop}
    (hstep : ∀ path n i c, Q path n → n.children[i]? = some c → Q (path ++ [i]) c) {pending : List (Path × Node)}
    (h : ∀ v ∈ pending, Q v.1 v.2) : ∀ v ∈ visit pending, Q v.1 v.2 := by
  induction pending using visit.induct with
  | case1 => simp [visit]
  | case2 path n pending ih =>
    rw [visit, List.forall_mem_cons]
    have hn : Q path n := h _ List.mem_cons_self
    refine ⟨hn, ih fun w hw => ?_⟩
    rcases List.mem_append.1 hw with hw | hw
    · obtain ⟨c, hc, rfl⟩ := List.mem_map.1 hw
      exact hstep path n c.2 c.1 hn (List.mem_zipIdx_iff_getElem?.1 hc)
    · exact h w (List.mem_cons_of_mem _ hw)

theorem mem_visit {pending : List (Path × Node)} {p : Path} {d : Node} (hd : (p, d) ∈ pending)
    (h : d.at? path = some n) : (p ++ path, n) ∈ visit pending := by
  induction pending using visit.induct generalizing p d path with
  | case1 => simp at hd
  | case2 q e pending ih =>
    rw [visit]
    rcases List.mem_cons.1 hd with heq | hd
    · obtain ⟨rfl, rfl⟩ := Prod.mk.inj heq
      cases path with
      | nil =>
        obtain rfl : d = n := by simpa [at?] using h
        simp
      | cons j path =>
        simp only [at?] at h
        obtain ⟨c, hc, hrest⟩ := Option.bind_eq_some_iff.1 h
        have hmem : (p ++ [j], c) ∈ located p d := by
          refine List.mem_map.2 ⟨(c, j), ?_, rfl⟩
          simpa [List.mem_zipIdx_iff_getElem?] using hc
        have hvisited := ih (List.mem_append_left _ hmem) hrest
        exact List.mem_cons_of_mem _ (by simpa using hvisited)
    · exact List.mem_cons_of_mem _ (ih (List.mem_append_right _ hd) h)

theorem mem_preorder (h : root.at? path = some n) : (path, n) ∈ root.preorder := by
  have hmem : (([] : Path), root) ∈ [(([] : Path), root)] := by simp
  simpa [preorder] using mem_visit hmem h

/-- What holds of all nodes of a tree holds everywhere below each of them. -/
theorem everywhere_at (h : ∀ v ∈ root.preorder, P v.2) (hn : root.at? path = some n) : n.Everywhere P := by
  induction n using induction_children generalizing path with
  | step n ih =>
    refine .intro (h _ (mem_preorder hn)) fun c hc _ => ?_
    obtain ⟨i, hi⟩ := List.getElem?_of_mem hc
    exact ih c hc (at?_append_singleton hn hi)

/-- The closest method declaration above a path is the last one on the way to it. -/
theorem ancestor?_map (path : Path) (kind : Kind) :
    (root.ancestor? path kind).map (·.2) = (root.above path).reverse.find? (·.kind = kind) := by
  have hzip : ∀ (ns : List Node) (k : Nat),
      ((ns.zipIdx k).reverse.find? (·.1.kind = kind)).map (·.1) = ns.reverse.find? (·.kind = kind) := by
    intro ns
    induction ns with
    | nil => simp
    | cons n ns ih =>
      intro k
      simp only [List.zipIdx_cons, List.reverse_cons, List.find?_append, Option.map_or, ih]
      congr 1
      by_cases hn : n.kind = kind <;> simp [hn]
  unfold ancestor?
  rw [Option.map_map, ← hzip _ 0]
  rfl

/-- A node that is no method declaration belongs to the method that its parent belongs to. -/
theorem methodAt?_child (h : root.at? path = some n) (hc : c.kind ≠ .methodDecl) :
    root.methodAt? (path ++ [i]) c = root.methodAt? path n := by
  unfold methodAt?
  rw [if_neg hc, ancestor?_map, above_append_singleton h, List.reverse_append, List.find?_append]
  by_cases hn : n.kind = .methodDecl
  · simp [hn]
  · rw [if_neg hn, ancestor?_map]
    simp [hn]

/-- All nodes of a method are visited, as nodes of that method. -/
theorem everywhere_visited (h : root.at? path = some decl) (hdecl : decl.kind = .methodDecl) :
    decl.Everywhere fun n => ∃ p, (p, n) ∈ root.preorder ∧ root.methodAt? p n = some decl := by
  have hall : ∀ n path, root.at? path = some n → root.methodAt? path n = some decl →
      n.Everywhere fun n => ∃ p, (p, n) ∈ root.preorder ∧ root.methodAt? p n = some decl := by
    intro n
    induction n using induction_children with
    | step n ih =>
      intro path hpath hmethod
      refine .intro ⟨path, mem_preorder hpath, hmethod⟩ fun c hc hkind => ?_
      obtain ⟨i, hi, hget⟩ := List.getElem_of_mem hc
      have hci : n.children[i]? = some c := by rw [List.getElem?_eq_getElem hi, hget]
      exact ih c hc (path ++ [i]) (at?_append_singleton hpath hci)
        ((methodAt?_child hpath hkind).trans hmethod)
  exact hall decl path h (if_pos hdecl)

end JmmCompiler.Node

import JmmCompiler.Proofs.CalledMethods
import JmmCompiler.Proofs.ObjectStorage
import JmmCompiler.Proofs.Soundness
import JmmCompiler.Proofs.StackLimits
/-! Lowering preserves what programs mean. The code of a program that no check objects to runs as the program does: it ends
as the program ends, with the same calls and the same fields and arrays, and goes on where the program does. -/
namespace JmmCompiler

/-! ## Methods and their code -/

/-- What is found in a list is found in one that corresponds to it. -/
theorem find?_of_forall₂ {α β : Type} {R : α → β → Prop} {p : α → Bool} {q : β → Bool} {as : List α}
    {bs : List β} (h : List.Forall₂ R as bs) (hpq : ∀ a b, R a b → p a = q b) {a : α} (ha : as.find? p = some a) :
    ∃ b, bs.find? q = some b ∧ R a b := by
  induction h with
  | nil => cases ha
  | @cons c d cs ds hcd _ ih =>
    cases hc : p c with
    | true =>
      rw [List.find?_cons_of_pos hc] at ha
      obtain rfl := Option.some.inj ha
      exact ⟨d, List.find?_cons_of_pos (hpq c d hcd ▸ hc), hcd⟩
    | false =>
      rw [List.find?_cons_of_neg (by simp [hc])] at ha
      obtain ⟨b, hb, hab⟩ := ih ha
      exact ⟨b, by rw [List.find?_cons_of_neg (by simp [← hpq c d hcd, hc]), hb], hab⟩

namespace Node
variable {root tree c : Node} {table : SymbolTable} {code : CodeProgram}

/-- The methods of a program and those of the program with normal calls. -/
theorem forall₂_normalized (hkind : root.kind = .program) (htree : table.normalizeVarargs none root = .ok tree)
    (hc : root.classDecl = .ok c) : ∃ c', tree.classDecl = .ok c' ∧
      List.Forall₂ (fun d d' => table.normalizeVarargs none d = .ok d') (c.childrenOf [.methodDecl])
        (c'.childrenOf [.methodDecl]) := by
  have hkeeps := keeps_normalizeVarargs table
  have hkind' := hkeeps.program htree hkind
  have hsame {n n' : Node} (h : table.normalizeVarargs none n = .ok n') : n.kind = n'.kind :=
    (SymbolTable.kind_normalizeVarargs h).1.symm
  rw [classDecl, if_neg (by simp [hkind])] at hc
  split at hc
  case h_2 => cases hc
  case h_1 found hfound =>
    obtain rfl : found = c := Except.ok.inj hc
    obtain ⟨c', hfound', hnormal⟩ := find?_of_forall₂ (mapM_eq_ok_iff.1 (hkeeps.children htree (.inl hkind')))
      (fun n n' h => by rw [hsame h]) hfound
    have hclass : c'.kind = .classDecl := by simpa using List.find?_some hfound'
    refine ⟨c', by rw [classDecl, if_neg (by simp [hkind']), hfound'], ?_⟩
    refine List.rel_filter (fun d d' h => ?_) (mapM_eq_ok_iff.1 (hkeeps.children hnormal (.inr hclass)))
    simp only [hsame h]

namespace Accepted

/-- The declarations of methods, and their code. -/
theorem forall₂_hasCode (h : root.Accepted table) (htree : table.normalizeVarargs none root = .ok tree)
    (hcode : table.generate tree = .ok code) (hc : root.classDecl = .ok c) :
    List.Forall₂ (fun d m => ∃ info, table.HasCode info d m) (c.childrenOf [.methodDecl]) code.methods := by
  have hkind : root.kind = .program := by
    obtain ⟨_, _, _, rfl, -⟩ := h.exists_hasClass
    rfl
  obtain ⟨c', hc', hnormals⟩ := forall₂_normalized hkind htree hc
  obtain ⟨c'', states, hc'', hlength, hstart, hstates⟩ := SymbolTable.exists_states_of_generate hcode
  obtain rfl : c' = c'' := Except.ok.inj (hc'.symm.trans hc'')
  refine List.forall₂_iff_get.2 ⟨hnormals.length_eq.trans hlength, fun j hj hj' => ?_⟩
  have hj'' : j < (c'.childrenOf [.methodDecl]).length := hlength ▸ hj'
  have hnormal := (List.forall₂_iff_get.1 hnormals).2 j hj hj''
  have hstem := SymbolTable.onward_states hlength hstates (Nat.zero_le j) (Nat.le_of_lt hj'')
  have hlowered := hstates j _ _ (List.getElem?_eq_getElem hj'') (List.getElem?_eq_getElem hj')
  obtain ⟨info, hinfo, hmade⟩ := exists_of_mapM (h.table_eq hc).2 (List.get_mem _ ⟨j, hj⟩)
  rw [hstart] at hstem
  exact ⟨info, h.declares hc (List.get_mem _ _) hmade, (mem_childrenOf (List.get_mem _ _)).2,
    fun v hv => h.variable_ne_this hinfo hv, _, _, _, hnormal, hstem.stem, hlowered⟩

/-- What a declaration of a method says of calls. -/
def signature (d : Node) : Except Failure Signature := (MethodInfo.ofNode d).map (·.signature)

/-- What the code of a program declares is what the program declares. -/
theorem outline_eq (h : root.Accepted table) (htree : table.normalizeVarargs none root = .ok tree)
    (hcode : table.generate tree = .ok code) : code.outline = table.outline := by
  obtain ⟨i, c, hc, -, -⟩ := h.shape.exists_class
  -- both are computed from the declarations
  have hinfos : (c.childrenOf [.methodDecl]).mapM signature = .ok (table.methods.map (·.signature)) :=
    mapM_eq_ok_map (h.table_eq hc).2 fun d info hinfo => congrArg (Except.map MethodInfo.signature) hinfo
  have hcodes : (c.childrenOf [.methodDecl]).mapM signature = .ok (code.methods.map (·.signature)) := by
    rw [mapM_eq_ok_iff, List.forall₂_map_right_iff]
    refine (h.forall₂_hasCode htree hcode hc).imp fun d m hm => ?_
    obtain ⟨info, hm⟩ := hm
    have hsame : info.signature = m.signature := by
      simp only [MethodInfo.signature, CodeMethod.signature, hm.isFor.name, hm.isFor.isStatic, hm.isFor.params]
    exact hsame ▸ congrArg (Except.map MethodInfo.signature) hm.declares.made
  have hmethods : code.methods.map (·.signature) = table.methods.map (·.signature) := Except.ok.inj (hcodes.symm.trans hinfos)
  rw [SymbolTable.eq_of_generate hcode]
  simp only [CodeProgram.outline, SymbolTable.outline, hmethods]

/-- A method of a program is declared where its code comes from. -/
theorem exists_hasCode (h : root.Accepted table) (htree : table.normalizeVarargs none root = .ok tree)
    (hcode : table.generate tree = .ok code) {name : String} {info : MethodInfo} (hinfo : table.method? name = some info) :
    info.name = name ∧
      ∃ decl m, root.declaration? name = some decl ∧ code.method name = .ok m ∧ table.HasCode info decl m := by
  obtain ⟨hname, -, decl, hdecl, -, -, hdeclares⟩ := h.exists_declaration? hinfo
  obtain ⟨i, c, hc, -, -⟩ := h.shape.exists_class
  have hfound : (c.childrenOf [.methodDecl]).find? (fun d => d.name.toOption = some name) = some decl := by
    rwa [declaration?, hc] at hdecl
  obtain ⟨m, hm, info', hcode'⟩ := find?_of_forall₂ (q := fun m => decide (m.name = name)) (h.forall₂_hasCode htree hcode hc)
    (fun d m hm => by
      obtain ⟨info, hm⟩ := hm
      rw [hm.declares.name, hm.isFor.name]
      simp [Except.toOption]) hfound
  obtain rfl : info' = info := by
    have hnames : info'.name = name := by
      have hsame : decl.name = .ok info'.name := hcode'.declares.name
      rw [hdeclares.name] at hsame
      exact (Except.ok.inj hsame).symm.trans hname
    have hfound' := hcode'.declares.found
    rw [hnames, hinfo] at hfound'
    exact (Option.some.inj hfound').symm
  exact ⟨hname, decl, m, hdecl, by rw [CodeProgram.method, hm], hcode'⟩

end Accepted

/-! ## Orderly programs -/

variable (root table) in
/-- Whatever method is called, its statements are orderly, however many calls within each other there may be. -/
def IsOrderly {H : Type} (S : Surroundings H) : Prop :=
  ∀ (call : OwnCall) (info : MethodInfo) (decl : Node), table.method? call.method = some info → call.Suits info →
    root.declaration? call.method = some decl →
    ∀ n, ∀ s ∈ decl.statements, s.Everywhere (table.Orderly info.name (S.ask (root.perform table S n)) call.object?)

end Node

namespace SymbolTable
variable {t : SymbolTable} {info : MethodInfo} {o : Outline} {external : Oracle Query Storage}
  {perform : OwnCall → Act (World Query Storage) (Option Value)} {call : OwnCall}

variable (t info) in
/-- `this`, a variable or a field, perhaps in parentheses. -/
def isQuiet : Node → Bool
  | ⟨.thisRef, _, _, _⟩ => !info.isStatic
  | ⟨.varRef, attributes, _, position⟩ =>
    match (⟨.varRef, attributes, [], position⟩ : Node).name with
    | .ok name => (t.binding? info.name name).isSome || !info.isStatic && (t.field? name).isSome
    | .error _ => false
  | ⟨.paren, _, inner :: _, _⟩ => isQuiet inner
  | _ => false

theorem quiet_of_isQuiet (hcall : call.Suits info) {e : Node} (h : t.isQuiet info e = true) :
    t.Quiet info.name ((o.surroundings external).ask perform) call.object? e := by
  have hobject (hstatic : (!info.isStatic) = true) : ∃ address, call.object? = some (.ref address) := by
    obtain ⟨address, haddress⟩ := Option.isSome_iff_exists.1 (hcall.self.trans hstatic)
    exact ⟨address, by rw [OwnCall.object?, haddress]; rfl⟩
  intro store hstore w
  fun_induction isQuiet t info e with
  | case1 attributes children p =>
    obtain ⟨address, haddress⟩ := hobject h
    refine ⟨.ref address, ?_⟩
    rw [eval_eq]
    simp only [valueOf, hstore, haddress, runOn_pure]
  | case2 attributes children p name hname =>
    have hmeans : t.eval info.name ((o.surroundings external).ask perform) store ⟨.varRef, attributes, children, p⟩ =
        t.readVariable info.name ((o.surroundings external).ask perform) store name := by
      have hname : Node.name ⟨.varRef, attributes, children, p⟩ = .ok name := hname
      rw [eval_eq]
      simp only [valueOf, hname, Act.ofExcept_ok, pure_bind]
    rw [hmeans, readVariable]
    cases hbound : (t.binding? info.name name).isSome with
    | true => exact ⟨store.vars name, rfl⟩
    | false =>
      rw [hbound, Bool.false_or, Bool.and_eq_true] at h
      obtain ⟨address, haddress⟩ := hobject h.1
      simp only [h.2, hstore, haddress, Bool.false_eq_true, if_false, if_true]
      exact ⟨_, Outline.ask_getField name address w⟩
  | case3 => cases h
  | case4 attributes inner rest p ih =>
    rw [eval_eq]
    exact ih h
  | case5 => cases h

variable (t info) in
def isOrderly (n : Node) : Bool :=
  (if n.kind = .call then n.children.tail else n.children).all (!t.isClassName info.name ·) &&
    (n.kind = .exprStmt || n.kind = .paren || n.children.all (!t.isVoidCall info.name ·)) &&
    match t.callee info.name n with
    | .ok (.ofClass _ true) => n.children.head?.all (t.isQuiet info)
    | _ => true

theorem orderly_of_isOrderly (hcall : call.Suits info) {n : Node} (h : t.isOrderly info n = true) :
    t.Orderly info.name ((o.surroundings external).ask perform) call.object? n := by
  simp only [isOrderly, Bool.and_eq_true, List.all_eq_true, Bool.not_eq_true', Bool.or_eq_true, decide_eq_true_eq] at h
  obtain ⟨⟨hclasses, hvoids⟩, hreceivers⟩ := h
  refine ⟨hclasses, fun hstmt hparen => hvoids.resolve_left (by simp [hstmt, hparen]), ?_⟩
  intro className hcallee receiver hreceiver
  rw [hcallee] at hreceivers
  exact quiet_of_isQuiet hcall ((Option.all_eq_true _ _).1 hreceivers receiver hreceiver)

end SymbolTable

namespace Node
variable {root tree : Node} {table : SymbolTable} {code : CodeProgram} {external : Oracle Query Storage}

variable (root table) in
/-- Whether all statements of the methods are orderly, with plain receivers of calls of static methods. -/
def isOrderly : Bool :=
  table.methods.all fun info => (root.declaration? info.name).all fun decl => decl.statements.all fun s =>
    s.preorder.all fun v => table.isOrderly info v.2

theorem isOrderly_surroundings (h : root.isOrderly table = true) :
    root.IsOrderly table (table.outline.surroundings external) := by
  intro call info decl hinfo hcall hdecl n s hs
  have hname : info.name = call.method := by simpa using List.find?_some hinfo
  have hmethod := List.all_eq_true.1 h info (List.mem_of_find?_eq_some hinfo)
  rw [hname, hdecl] at hmethod
  have hnodes := List.all_eq_true.1 (List.all_eq_true.1 hmethod s hs)
  exact everywhere_at (fun v hv => SymbolTable.orderly_of_isOrderly hcall (hnodes v hv)) (show s.at? [] = some s from rfl)

theorem Accepted.implements (h : root.Accepted table) (htree : table.normalizeVarargs none root = .ok tree)
    (hcode : table.generate tree = .ok code) {external : Oracle Query Storage}
    (horderly : root.IsOrderly table (table.outline.surroundings external)) :
    code.Implements root table (table.outline.surroundings external) where
  own _ _ _ hcall := SymbolTable.receives_of_own hcall
  bodies n call hcall := by
    obtain ⟨info, hinfo, hsuits⟩ := hcall
    obtain ⟨hname, decl, m, hdecl, hm, hhas⟩ := h.exists_hasCode htree hcode hinfo
    exact ⟨m, info, decl, hm, hinfo, hdecl, hhas.advances hsuits (horderly call info decl hinfo hsuits hdecl n) (n + 1)⟩

end Node

/-! ## Programs and their code -/

/-- Code does for a call what a program does, whatever is outside of the class. Where the program ends, the code ends with
the same outcome and leaves the same calls, fields and arrays behind. Where the program goes on, the code goes on, and no call
is made before the program makes it. -/
structure CodeProgram.Preserves (code : CodeProgram) (root : Node) (t : SymbolTable) (external : Oracle Query Storage)
    (call : OwnCall) : Prop where
  ended : ∀ w outcome w', (∃ n result, runOn (root.perform t (t.outline.surroundings external) n call) w = (result, w') ∧
      Outcome.of? result = some outcome) ↔
    ∃ k, (code.next (code.outline.surroundings external))^[k] (code.enter call [] w) = .ended outcome w'
  goesOn : ∀ n w w' result, runOn (root.perform t (t.outline.surroundings external) n call) w = (result, w') →
    Outcome.of? result = none → ∃ k, n ≤ k ∧ ((code.next (code.outline.surroundings external))^[k] (code.enter call [] w)).GoesOn w' ∧
      ∀ j ≤ k, ((code.next (code.outline.surroundings external))^[j] (code.enter call [] w)).world.trace <+: w'.trace

theorem CodeProgram.Implements.preserves {code : CodeProgram} {root : Node} {t : SymbolTable} {external : Oracle Query Storage}
    (h : code.Implements root t (t.outline.surroundings external)) (houtline : code.outline = t.outline) {call : OwnCall}
    (hcall : t.Receives call) : code.Preserves root t external call where
  ended w outcome w' := houtline ▸ h.ended_iff hcall w outcome w'
  goesOn n w w' result hrun houtcome := by
    obtain ⟨s, ⟨k, hk, rfl⟩, hgoes⟩ := h.goesOn hcall hrun houtcome
    rw [houtline]
    exact ⟨k, hk, hgoes, fun j hj => hgoes.world ▸ code.trace_iterate _ hj _⟩

/-- Lowering preserves meaning. Take a program that no check objects to, in which the names of imports are receivers of calls
only, void methods of the class are called by statements only, and receivers of calls of static methods of the class have no
effects. Its calls can be made normal, and then its code does for every call of a method, whatever the arguments, the fields and
arrays and what is outside of the class, what the program does from left to right. -/
theorem SymbolTable.generate_preserves {source : String} {root : Node} {table : SymbolTable} {external : Oracle Query Storage}
    (hparse : Node.parse source = .ok root) (hanalyze : root.analyze = .ok { reports := [], table := some table })
    (horderly : root.IsOrderly table (table.outline.surroundings external)) :
    ∃ tree, table.normalizeVarargs none root = .ok tree ∧ ∀ code, table.generate tree = .ok code →
      ∀ call, table.Receives call → code.Preserves root table external call := by
  have h := Node.accepted_of_analyze hparse hanalyze
  obtain ⟨tree, htree, -⟩ := exists_allIn_hasNormalCall (passesReferences_of_validate h.valid)
  exact ⟨tree, htree, fun code hcode call hcall => (h.implements htree hcode horderly).preserves (h.outline_eq htree hcode) hcall⟩

/-- What a class declares that sums up numbers. -/
def SymbolTable.summing : SymbolTable where
  className := "A"
  imports := ["Io"]
  fields := [⟨"a", .int⟩]
  methods := [⟨"s", .int, [⟨"n", .int⟩], [⟨"i", .int⟩], true, false, false⟩,
    ⟨"sum", .int, [⟨"x", .intArray⟩], [⟨"t", .int⟩], false, false, true⟩,
    ⟨"set", .void, [⟨"v", .int⟩], [], false, false, false⟩,
    ⟨"f", .int, [⟨"k", .int⟩], [⟨"b", .boolean⟩], false, false, false⟩]

-- What is compared below are long tuples.
set_option synthInstance.maxSize 4000 in
/-- Calls of a method from outside, of a static method and of one with gathered arguments, in a loop, in a conjunction and in
both parts of an `if`. The code of the program does what the program does, and computes a sum. -/
theorem SymbolTable.generate_preserves_sum :
    ∃ root table tree code, Node.parse
        ("import Io;class A\x7bint a;static int s(int n)\x7bint i;i=0;while(i<n)i=i+1;return i;\x7d" ++
          "int sum(int... x)\x7bint t;if(0<x.length)\x7bt=x[0]+x[1];\x7delse\x7bt=1;\x7dreturn t;\x7dvoid set(int v)\x7ba=v;\x7d" ++
          "int f(int k)\x7bboolean b;b=Io.t(k)&&this.s(k)<3;this.set(k);if(b)k=this.sum(k,a,2);else a=this.s(4);return a+k;\x7d\x7d") =
          .ok root ∧
      root.analyze = .ok { reports := [], table := some table } ∧ table.normalizeVarargs none root = .ok tree ∧
      table.generate tree = .ok code ∧ (∀ external call, table.Receives call → code.Preserves root table external call) ∧
      ∃ k w', (code.next (code.outline.surroundings fun _ s => (.ok (.int 1), s)))^[k]
          (code.enter ⟨"f", some 0, [.int 2]⟩ [] ⟨⟨[.object "A"], fun _ _ => .int 0⟩, []⟩) =
            .ended (.returned (some (.int 6))) w' ∧
        w'.trace = [.invokeStatic "Io" (some "t") [.int 2], .invokeStatic "A" (some "s") [.int 2], .invoke (some "set") (.ref 0) [.int 2],
          .invoke (some "sum") (.ref 0) [.ref 1]] := by
  obtain ⟨root, hroot, hfacts⟩ := exists_of_toOption (show (Node.parse
      ("import Io;class A\x7bint a;static int s(int n)\x7bint i;i=0;while(i<n)i=i+1;return i;\x7d" ++
          "int sum(int... x)\x7bint t;if(0<x.length)\x7bt=x[0]+x[1];\x7delse\x7bt=1;\x7dreturn t;\x7dvoid set(int v)\x7ba=v;\x7d" ++
          "int f(int k)\x7bboolean b;b=Io.t(k)&&this.s(k)<3;this.set(k);if(b)k=this.sum(k,a,2);else a=this.s(4);return a+k;\x7d\x7d")
      ).toOption.map (fun root => (root.analyze, root.isOrderly summing,
        (do summing.generate (← summing.normalizeVarargs none root)).toOption.isSome,
        (fun r => (r.1.toOption, r.2.trace)) (runOn (root.perform summing (summing.outline.surroundings fun _ s => (.ok (.int 1), s)) 5
          ⟨"f", some 0, [.int 2]⟩) ⟨⟨[.object "A"], fun _ _ => .int 0⟩, []⟩))) =
      some (.ok { reports := [], table := some summing }, true, true, some (some (.int 6)),
        [.invokeStatic "Io" (some "t") [.int 2], .invokeStatic "A" (some "s") [.int 2], .invoke (some "set") (.ref 0) [.int 2],
          .invoke (some "sum") (.ref 0) [.ref 1]]) by decide +kernel)
  simp only [Prod.mk.injEq] at hfacts
  obtain ⟨hanalyze, horderly, hgenerates, houtcome, htrace⟩ := hfacts
  obtain ⟨code, hcode⟩ := Option.isSome_iff_exists.1 hgenerates
  obtain ⟨tree, htree, hcode⟩ := bind_eq_ok.1 (eq_ok_of_toOption hcode)
  have hpreserves (external : Oracle Query Storage) (call : OwnCall) (hcall : summing.Receives call) :
      code.Preserves root summing external call := by
    obtain ⟨tree', htree', hpreserves⟩ := generate_preserves hroot hanalyze (Node.isOrderly_surroundings horderly)
    obtain rfl : tree = tree' := Except.ok.inj (htree.symm.trans htree')
    exact hpreserves code hcode call hcall
  have hreceives : summing.Receives ⟨"f", some 0, [.int 2]⟩ := ⟨_, rfl, rfl, rfl⟩
  obtain ⟨k, hk⟩ := ((hpreserves _ _ hreceives).ended _ (.returned (some (.int 6))) _).1
    ⟨5, _, Prod.mk.eta.symm, by rw [eq_ok_of_toOption houtcome]; rfl⟩
  exact ⟨root, summing, tree, code, hroot, hanalyze, htree, hcode, hpreserves, k, _, hk, htrace⟩

end JmmCompiler

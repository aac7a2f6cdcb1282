import Mathlib
import JmmCompiler.Pipeline
import JmmCompiler.Proofs.EmittedReturns
import JmmCompiler.Proofs.LabelLines
import JmmCompiler.Source.Reader
/-! Compiled methods return: from a text that is accepted to its code and to the lines of its methods. -/
namespace JmmCompiler

/-- A text that is read, that no check objects to, and that is lowered: its tree and its symbol table, the tree that is
lowered and the code. -/
structure Lowers (config : Config) (source : String) (root : Node) (table : SymbolTable) (tree : Node)
    (code : CodeProgram) : Prop where
  parsed : Node.parse source = .ok root
  analyzed : root.analyze = .ok { reports := [], table := some table }
  prepared : (Compile.prepare config table root).events.1 = .ok tree
  generated : table.generate tree = .ok code

/-- What a text is lowered to, if no check objects to it. -/
def lowered? (config : Config) (source : String) : Option (Node × SymbolTable × Node × CodeProgram) := do
  let root ← (Node.parse source).toOption
  let analyzed ← root.analyze.toOption
  let table ← analyzed.table
  if analyzed.reports ≠ [] ∨ analyzed.code ≠ none ∨ analyzed.assembly ≠ none then none
  let tree ← (Compile.prepare config table root).events.1.toOption
  let code ← (table.generate tree).toOption
  return (root, table, tree, code)

theorem exists_lowers {config : Config} {source : String} {β : Type} {f : Node × SymbolTable × Node × CodeProgram → β}
    {b : β} (h : (lowered? config source).map f = some b) :
    ∃ root table tree code, Lowers config source root table tree code ∧ f (root, table, tree, code) = b := by
  obtain ⟨⟨root, table, tree, code⟩, hlowered, hb⟩ := Option.map_eq_some_iff.1 h
  simp only [lowered?, Option.bind_eq_bind, Option.bind_eq_some_iff] at hlowered
  obtain ⟨root', hparse, analyzed, hanalyze, table', htable, hlowered⟩ := hlowered
  split at hlowered
  · cases hlowered
  rename_i hnothing
  simp only [not_or, not_not] at hnothing
  obtain ⟨hreports, hcode, hassembly⟩ := hnothing
  simp only [Option.bind_eq_some_iff, Option.pure_def, Option.some.injEq, Prod.mk.injEq] at hlowered
  obtain ⟨tree', htree, code', hgenerate, rfl, rfl, rfl, rfl⟩ := hlowered
  refine ⟨root', table', tree', code', ⟨eq_ok_of_toOption hparse, ?_, eq_ok_of_toOption htree,
    eq_ok_of_toOption hgenerate⟩, hb⟩
  rw [eq_ok_of_toOption hanalyze]
  obtain ⟨reports, table, code, assembly⟩ := analyzed
  obtain rfl : reports = [] := hreports
  obtain rfl : table = some table' := htable
  obtain rfl : code = none := hcode
  obtain rfl : assembly = none := hassembly
  rfl

namespace Compile
variable {config : Config} {code final : CodeProgram} {reports : List Report}

theorem forall₂_of_allocateMethods {ms ms' : List CodeMethod} {events events' : List Event}
    (h : runOn (allocateMethods ms) events = (.ok ms', events')) :
    List.Forall₂ (fun m m' => ∃ g, m.allocate = .ok (m', g)) ms ms' := by
  induction ms generalizing ms' events events' with
  | nil =>
    obtain ⟨rfl, -⟩ : [] = ms' ∧ events = events' := by simpa [allocateMethods] using h
    exact .nil
  | cons m ms ih =>
    simp only [allocateMethods, runOn_bind_eq_ok, runOn_ofExcept, runOn_pure, Prod.mk.injEq, Except.ok.injEq] at h
    obtain ⟨⟨m', g⟩, _, ⟨hfirst, -⟩, _, _, -, rest, _, hrest, rfl, -⟩ := h
    exact .cons ⟨g, hfirst⟩ (ih hrest)

/-- Allocation changes nothing but methods, and each of them stays or is given slots. -/
theorem forall₂_of_allocate (h : (allocate config code).events.1 = .ok (final, reports)) :
    final = { code with methods := final.methods } ∧
      List.Forall₂ (fun m m' => m' = m ∨ ∃ g, m.allocate = .ok (m', g)) code.methods final.methods := by
  obtain ⟨events, hrun⟩ : ∃ events, runOn (allocate config code) [] = (.ok (final, reports), events) :=
    ⟨_, Prod.ext h rfl⟩
  unfold allocate at hrun
  split at hrun
  · simp only [runOn_bind_eq_ok, runOn_pure, Prod.mk.injEq, Except.ok.injEq] at hrun
    obtain ⟨_, _, -, methods, _, hmethods, ⟨rfl, -⟩, -⟩ := hrun
    exact ⟨rfl, (forall₂_of_allocateMethods hmethods).imp fun _ _ => .inr⟩
  · simp only [runOn_pure, Prod.mk.injEq, Except.ok.injEq] at hrun
    obtain ⟨⟨rfl, -⟩, -⟩ := hrun
    exact ⟨rfl, List.forall₂_same.2 fun _ _ => .inl rfl⟩

theorem exists_withSlots {m m' : CodeMethod} (h : m' = m ∨ ∃ g, m.allocate = .ok (m', g)) :
    ∃ slots, m' = m.withSlots slots := by
  rcases h with rfl | ⟨g, h⟩
  · exact ⟨m'.slots, rfl⟩
  · simp only [CodeMethod.allocate, bind_eq_ok, pure_eq_ok, Prod.mk.injEq] at h
    obtain ⟨l, -, rfl, -⟩ := h
    exact ⟨_, rfl⟩

/-- Allocation changes nothing but slots. -/
theorem exists_of_mem_allocate (h : (allocate config code).events.1 = .ok (final, reports)) {m : CodeMethod}
    (hm : m ∈ final.methods) : ∃ m₀ ∈ code.methods, ∃ slots, m = m₀.withSlots slots := by
  obtain ⟨m₀, hm₀, hkept⟩ := exists_of_mem_forall₂ (forall₂_of_allocate h).2 hm
  exact ⟨m₀, hm₀, exists_withSlots hkept⟩

/-- Every method stays when slots are given to variables. -/
theorem exists_mem_allocate (h : (allocate config code).events.1 = .ok (final, reports)) {m : CodeMethod}
    (hm : m ∈ code.methods) : ∃ slots, m.withSlots slots ∈ final.methods := by
  obtain ⟨m', hm', hkept⟩ := exists_of_mem_forall₂ (forall₂_of_allocate h).2.flip hm
  obtain ⟨slots, rfl⟩ := exists_withSlots hkept
  exact ⟨slots, hm'⟩

end Compile

namespace CodeMethod
variable {m : CodeMethod}

theorem Closed.withSlots (h : m.Closed) (slots : Slots) : (m.withSlots slots).Closed :=
  ⟨⟨h.labels.nodup, h.labels.jumps, h.labels.inside⟩, h.stays, h.returning⟩

end CodeMethod

namespace Lowers

-- What is compared below are long tuples.
set_option synthInstance.maxSize 4000

variable {config : Config} {source : String} {root tree : Node} {table : SymbolTable} {code : CodeProgram}

/-- Control does not fall off the end, if no method gives what is not known and, where constants are folded, they are
not taken for objects of the class. A run of a method with a return type has something to run, and where it has nowhere
to go it returns a value; void methods return none. In the emitted lines of a method, with or without allocated
registers, a run goes on until it gets to the return of the return type. -/
theorem control_returns (h : Lowers config source root table tree code) (hany : ∀ m ∈ table.methods, m.returnType ≠ .any)
    (hclass : config.optimize = true → table.className ≠ "any") :
    (∀ m ∈ code.methods,
      (m.returnType ≠ .void → m.code ≠ [] ∧ ∀ k, m.Visits k → ∃ i ks, m.code[k]? = some i ∧ m.successors k = .ok ks ∧
        (ks = [] → ∃ e type, i = .ret e type ∧ e ≠ .absent)) ∧
      (m.returnType = .void → ∀ e type, .ret e type ∈ m.code → e = .absent)) ∧
    ∀ final reports, (Compile.allocate config code).events.1 = .ok (final, reports) →
      ∀ m ∈ final.methods, ∀ lines, (Jasmin.Scope.mk final m).bodyLines = .ok lines →
        ∀ pc, Jasmin.Visits lines pc → ∃ l, lines[pc]? = some l ∧
          (∀ name, l.target? = some name → ∃ pc', Jasmin.target lines name = some pc') ∧
          (l.isReturn = true → l = .plain (Jasmin.returnOf m.returnType)) := by
  have haccepted := Node.accepted_of_analyze h.parsed h.analyzed
  have hclosed := haccepted.closed hany hclass h.prepared h.generated
  obtain ⟨k, hlabels⟩ := (table.labels_generate tree).2 code h.generated
  refine ⟨fun m hm => ⟨fun htype => ⟨(hclosed m hm).code_ne_nil htype, fun k hk => (hclosed m hm).ends htype hk⟩,
    fun htype e type hmem => ((hclosed m hm).returning e type hmem).1 htype⟩, fun final reports hfinal m hm lines hlines => ?_⟩
  obtain ⟨m₀, hm₀, slots, rfl⟩ := Compile.exists_of_mem_allocate hfinal hm
  have hfit : (Jasmin.Scope.mk final (m₀.withSlots slots)).LabelsFit :=
    ⟨(hlabels.labelsFit hm₀).nodup, (hlabels.labelsFit hm₀).apart⟩
  exact fun pc hpc => Jasmin.Scope.returns_of_visits hfit ((hclosed m₀ hm₀).withSlots slots) hlines hpc

/-- A loop that is left by a return, in a class whose constants are folded. -/
theorem control_returns_countUp :
    ∃ root table tree code, Lowers { optimize := true }
        "class A\x7bvoid g()\x7b\x7dint f(int n)\x7bwhile(n<9)\x7bif(n<3)return n;else n=n+1;\x7dreturn n;\x7d\x7d" root table
        tree code ∧
      (∀ m ∈ table.methods, m.returnType ≠ .any) ∧ table.className ≠ "any" ∧ code.methods.length = 2 ∧
      ∀ m ∈ code.methods, m.returnType ≠ .void → ∀ k, m.Visits k → ∃ i ks, m.code[k]? = some i ∧
        m.successors k = .ok ks ∧ (ks = [] → ∃ e type, i = .ret e type ∧ e ≠ .absent) := by
  obtain ⟨root, table, tree, code, h, hfacts⟩ := exists_lowers (show (lowered? { optimize := true }
      "class A\x7bvoid g()\x7b\x7dint f(int n)\x7bwhile(n<9)\x7bif(n<3)return n;else n=n+1;\x7dreturn n;\x7d\x7d").map
      (fun r => (r.2.1.methods.map (·.returnType), r.2.1.className, r.2.2.2.methods.length)) =
        some ([.void, .int], "A", 2) by decide +kernel)
  obtain ⟨htypes, hname, hlength⟩ : table.methods.map (·.returnType) = [.void, .int] ∧ table.className = "A" ∧
      code.methods.length = 2 := by simpa using hfacts
  have hany : ∀ m ∈ table.methods, m.returnType ≠ .any := by
    intro m hm heq
    have hmem : m.returnType ∈ [Ty.void, Ty.int] := htypes ▸ List.mem_map_of_mem hm
    rw [heq] at hmem
    exact absurd hmem (by decide)
  have hclass : table.className ≠ "any" := by simp [hname]
  exact ⟨root, table, tree, code, h, hany, hclass, hlength,
    fun m hm htype => (((h.control_returns hany fun _ => hclass).1 m hm).1 htype).2⟩

/-- A method that gives what is not known returns without a value, and so does one that takes a constant for an object
of a class that is named like the unknown type. -/
theorem returns_nothing :
    (∃ root table tree code, Lowers {} "class A\x7bvoid g()\x7b\x7dany f()\x7breturn this.g();\x7d\x7d" root table tree code ∧
      ∃ m ∈ code.methods, m.returnType = .any ∧ m.Visits 1 ∧ m.successors 1 = .ok [] ∧
        m.code[1]? = some (.ret .absent .any)) ∧
    ∃ root table tree code, Lowers { optimize := true }
        ("import Io;class any\x7bvoid g()\x7b\x7dIo h()\x7bIo r;r=Io.make();return r;\x7d" ++
          "int f()\x7bany x;x=1;return x.h().g();\x7d\x7d") root table tree code ∧
      ∃ m ∈ code.methods, m.returnType = .int ∧ m.Visits 3 ∧ m.successors 3 = .ok [] ∧
        m.code[3]? = some (.ret .absent .int) := by
  constructor
  · obtain ⟨root, table, tree, code, h, hfacts⟩ := exists_lowers (show (lowered? {}
        "class A\x7bvoid g()\x7b\x7dany f()\x7breturn this.g();\x7d\x7d").map
        (fun r => r.2.2.2.methods.getLast?.map fun m => (m.returnType, m.successors 0, m.successors 1, m.code[1]?)) =
          some (some (.any, .ok [1], .ok [], some (.ret .absent .any))) by decide +kernel)
    obtain ⟨m, hm, hfacts⟩ := Option.map_eq_some_iff.1 hfacts
    simp only [Prod.mk.injEq] at hfacts
    obtain ⟨htype, hstart, hend, hret⟩ := hfacts
    exact ⟨root, table, tree, code, h, m, List.mem_of_getLast? hm, htype, .next .start hstart (by simp), hend, hret⟩
  · obtain ⟨root, table, tree, code, h, hfacts⟩ := exists_lowers (show (lowered? { optimize := true }
        ("import Io;class any\x7bvoid g()\x7b\x7dIo h()\x7bIo r;r=Io.make();return r;\x7d" ++
          "int f()\x7bany x;x=1;return x.h().g();\x7d\x7d")).map
        (fun r => r.2.2.2.methods.getLast?.map fun m =>
          (m.returnType, m.successors 0, m.successors 1, m.successors 2, m.successors 3, m.code[3]?)) =
          some (some (.int, .ok [1], .ok [2], .ok [3], .ok [], some (.ret .absent .int))) by decide +kernel)
    obtain ⟨m, hm, hfacts⟩ := Option.map_eq_some_iff.1 hfacts
    simp only [Prod.mk.injEq] at hfacts
    obtain ⟨htype, hfirst, hsecond, hthird, hend, hret⟩ := hfacts
    have hvisits : m.Visits 3 := .next (.next (.next .start hfirst (by simp)) hsecond (by simp)) hthird (by simp)
    exact ⟨root, table, tree, code, h, m, List.mem_of_getLast? hm, htype, hvisits, hend, hret⟩

end Lowers
end JmmCompiler

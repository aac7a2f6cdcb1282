import Mathlib
import JmmCompiler.Pipeline
import JmmCompiler.Proofs.EmittedJumps
import JmmCompiler.Source.Reader
/-! Labels from the tree to the assembly: those of a program are distinct, and so are those of every body, the
made-up ones included. -/
namespace JmmCompiler

/-- The labels of lowered code are not made up by the emission. -/
theorem not_mem_madeUp_of_mem_numbered {label : String} {i : Nat} (h : label ∈ numbered i) (j : Nat) :
    label ∉ Jasmin.madeUp j := by
  refine Jasmin.Scope.not_mem_madeUp ?_ j
  obtain ⟨stem, hstem, rfl⟩ := List.mem_map.1 h
  have hfirst : ∀ stem ∈ labelStems, stem.toList.head? ≠ some 'j' ∧ stem.toList ≠ [] := by decide
  obtain ⟨hj, hne⟩ := hfirst stem hstem
  rwa [String.toList_append, List.head?_append_of_ne_nil _ hne]

namespace SymbolTable
variable {t : SymbolTable}

theorem LabelsMethods.labelsFit {k k' : Nat} {p : CodeProgram} (h : LabelsMethods k p.methods k') {m : CodeMethod}
    (hm : m ∈ p.methods) : (Jasmin.Scope.mk p m).LabelsFit where
  nodup := (h.sound m hm).nodup
  apart l hl i := by
    obtain ⟨j, -, -, hmem⟩ := h.mem l (List.mem_flatMap.2 ⟨m, hm, hl⟩)
    exact not_mem_madeUp_of_mem_numbered hmem i

/-- Every body of an assembly text. -/
theorem exists_bodyLines_of_assembly {p : CodeProgram} {text : String} (h : p.assembly = .ok text) {m : CodeMethod}
    (hm : m ∈ p.methods) : ∃ lines, (Jasmin.Scope.mk p m).bodyLines = .ok lines := by
  simp only [CodeProgram.assembly, bind_eq_ok] at h
  obtain ⟨methods, hmethods, -⟩ := h
  obtain ⟨_, -, htext⟩ := exists_of_mapM hmethods hm
  simp only [Jasmin.Scope.methodLines, bind_eq_ok] at htext
  obtain ⟨_, ⟨lines, hlines, -⟩, -⟩ := htext
  exact ⟨lines, hlines⟩

/-- Labels are sound. No label is added twice, whatever the tree. Where a tree is generated, the labels of the
whole program are distinct and the jumps of a method go to labels on its instructions; and where the program is
emitted, each body has its labels on one line each, and its jumps go to labels in it. -/
theorem labels_sound (t : SymbolTable) (root : Node) :
    (∀ l, t.generate root ≠ .error (.duplicateLabel l)) ∧
      ∀ p, t.generate root = .ok p →
        (p.methods.flatMap (·.labels.keys)).Nodup ∧
        (∀ m ∈ p.methods, ∀ i ∈ m.code, ∀ l, i.target? = some l →
          ∃ index < m.code.length, m.labels.find? l = some index) ∧
        ∀ text, p.assembly = .ok text → ∀ m ∈ p.methods, ∃ lines,
          (Jasmin.Scope.mk p m).bodyLines = .ok lines ∧ (Jasmin.labelNames lines).Nodup ∧
          (∀ l ∈ m.labels.keys, l ∈ Jasmin.labelNames lines) ∧
          ∀ line ∈ lines, ∀ l, line.target? = some l → l ∈ Jasmin.labelNames lines := by
  refine ⟨(t.labels_generate root).1, fun p hp => ?_⟩
  obtain ⟨k, hlabels⟩ := (t.labels_generate root).2 p hp
  refine ⟨hlabels.nodup, fun m hm => (hlabels.sound m hm).jumps, fun text htext m hm => ?_⟩
  obtain ⟨lines, hlines⟩ := exists_bodyLines_of_assembly htext hm
  obtain ⟨b, hbody, rfl⟩ := Jasmin.Scope.runOn_body_of_bodyLines hlines
  have hfit := hlabels.labelsFit hm
  have htargets : (Jasmin.Scope.mk p m).TargetsFit := (hlabels.sound m hm).jumps
  refine ⟨_, hlines, Jasmin.Scope.nodup_labels hfit hbody, fun l hl => ?_,
    Jasmin.Scope.jumps_body hfit htargets hbody⟩
  obtain ⟨index, hindex⟩ := Option.ne_none_iff_exists'.1 (Assoc.mem_keys_iff.1 hl)
  exact Jasmin.Scope.mem_labelNames_of_find? hfit hbody
    ((hlabels.sound m hm).inside _ (Assoc.mem_of_findEntry hindex)) hindex

/-- A loop, and a comparison that is stored. -/
def countUp : CodeProgram where
  className := "A"
  methods := [{
    name := "f"
    returnType := .boolean
    params := [⟨"n", .int⟩]
    isPublic := false
    code := [.goto "while_cond_0", .assign (.var "n" .int) (.binary "+" (.var "n" .int) (.literal 1 .int) .int),
      .branch (.binary "<" (.var "n" .int) (.literal 9 .int) .boolean) "while_body_0",
      .assign (.var "tmp0" .boolean) (.binary "<" (.var "n" .int) (.literal 1 .int) .boolean),
      .ret (.var "tmp0" .boolean) .boolean]
    labels := ⟨[("while_body_0", 1), ("while_cond_0", 2), ("while_end_0", 3)]⟩
    slots := ⟨[("this", 0), ("n", 1), ("tmp0", 2)]⟩ }]

theorem labels_sound_countUp :
    ∃ root t text, Node.parse "class A\x7bboolean f(int n)\x7bwhile(n<9)n=n+1;return n<1;\x7d\x7d" = .ok root ∧
      build root = .ok t ∧ t.generate root = .ok countUp ∧ countUp.assembly = .ok text ∧
      (countUp.methods.flatMap (·.labels.keys)).Nodup ∧ ∀ m ∈ countUp.methods, ∃ lines,
        (Jasmin.Scope.mk countUp m).bodyLines = .ok lines ∧ (Jasmin.labelNames lines).Nodup ∧
        (∀ l ∈ m.labels.keys, l ∈ Jasmin.labelNames lines) ∧
        ∀ line ∈ lines, ∀ l, line.target? = some l → l ∈ Jasmin.labelNames lines := by
  obtain ⟨root, hroot, hfacts⟩ := exists_of_toOption (show (Node.parse
      "class A\x7bboolean f(int n)\x7bwhile(n<9)n=n+1;return n<1;\x7d\x7d").toOption.map
      (fun root => (build root).toOption.bind fun t => (t.generate root).toOption) = some (some countUp) by decide +kernel)
  obtain ⟨t, ht, hgenerate⟩ := Option.bind_eq_some_iff.1 hfacts
  obtain ⟨text, htext, -⟩ := exists_of_toOption (show countUp.assembly.toOption.map (fun _ => ()) = some () from rfl)
  obtain ⟨-, hsound⟩ := labels_sound t root
  obtain ⟨hnodup, -, hbodies⟩ := hsound countUp (eq_ok_of_toOption hgenerate)
  exact ⟨root, t, text, hroot, eq_ok_of_toOption ht, eq_ok_of_toOption hgenerate, htext, hnodup, hbodies text htext⟩

end SymbolTable
end JmmCompiler

import JmmCompiler.Proofs.Encoding
import JmmCompiler.Proofs.LinkedCalls
import JmmCompiler.Proofs.LoweredLiterals
import JmmCompiler.Proofs.NormalCalls
/-! Constants of 32 bits. Folding makes no other integers, and the lines of a program give only integers that its source has as
literals or as numbers of elements, besides those. -/
namespace JmmCompiler

/-- Constants that are no integers, or integers of a set. -/
def Constant.IntIn (N : Int → Prop) (c : Constant) : Prop := ∀ i, c = .int i → N i

section
variable {N : Int → Prop}

theorem HasTruth.of_word (hN : ∀ i, Jasmin.fitsWord i = true → N i) : HasTruth N := ⟨hN 0 rfl, hN 1 rfl⟩

theorem fitsWord_wrap (n : Int) : Jasmin.fitsWord (wrap n) = true := by
  have h := wrap_range n
  simp only [Jasmin.fitsWord, Bool.and_eq_true, decide_eq_true_eq]
  omega

/-- The value of an operator wraps around. -/
theorem Arithmetic.fitsWord_of_evaluate? {op : Arithmetic} {a b i : Int} (h : op.evaluate? a b = some i) :
    Jasmin.fitsWord i = true := by
  cases op with
  | div =>
    simp only [evaluate?] at h
    split at h
    · cases h
    · exact Option.some.inj h ▸ fitsWord_wrap _
  | _ => exact Option.some.inj h ▸ fitsWord_wrap _

theorem Constant.closed_intIn (hN : ∀ i, Jasmin.fitsWord i = true → N i) : Closed (IntIn N) where
  bool b i h := by cases h
  evaluate op a b c _ _ h := by
    obtain ⟨o, -, h⟩ := Option.bind_eq_some_iff.1 h
    rintro i rfl
    refine hN i ?_
    unfold Operator.evaluate? at h
    split at h <;> simp only [Option.some.injEq, Constant.int.injEq, reduceCtorEq, Option.map_eq_some_iff] at h
    obtain ⟨j, hj, rfl⟩ := h
    exact Arithmetic.fitsWord_of_evaluate? hj

end

/-! ## Trees -/

/-- The kinds of nodes whose children become the elements of an array. -/
def Kind.gathers : List Kind := [.arrayLiteral, .call]

namespace Node
variable {N : Int → Prop} {n n' d d' root : Node}

theorem kept_brings : Kept (Constant.IntIn N) (Brings N Kind.gathers) where
  holds n h c hc := by
    rintro i rfl
    exact h.literal i hc
  constant c p hc := by
    refine ⟨fun i hi => ?_, fun hkind => ?_⟩
    · exact hc i (by simpa [constant?_node] using hi)
    · cases c <;> simp [Constant.node, Kind.gathers] at hkind
  children kind attributes cs cs' p hcs h := ⟨h.literal, fun hkind k hk => h.length hkind k (hk.trans hcs.length_le)⟩

end Node

namespace SymbolTable
variable {N : Int → Prop} {t : SymbolTable} {outer : Option String} {n n' d : Node} {m : CodeMethod} {ns ns' : Names}

/-- Where arguments are gathered, the array has no more elements than the call had children. -/
theorem brings_normalizeVarargs (h : t.normalizeVarargs outer n = .ok n') (hn : n.Everywhere (Node.Brings N Kind.gathers)) :
    n'.Everywhere (Node.Brings N [.arrayLiteral]) := by
  induction n using Node.induction_children generalizing outer n' with
  | step n ih =>
    obtain ⟨kind, attributes, cs, p⟩ := n
    obtain ⟨below, cs', -, hcs, h⟩ := normalizeVarargs_eq_ok.1 h
    have hparts (c' : Node) (hc' : c' ∈ cs') (hkind : c'.kind ≠ .methodDecl) :
        c'.Everywhere (Node.Brings N [.arrayLiteral]) := by
      obtain ⟨c, hc, hcc'⟩ := exists_of_mem_mapM hcs hc'
      exact ih c hc hcc' (hn.child hc ((kind_normalizeVarargs hcc').1 ▸ hkind))
    have hlength := length_of_mapM hcs
    have hsame : Node.Brings N [.arrayLiteral] ⟨kind, attributes, cs', p⟩ := by
      refine ⟨hn.here.literal, fun hkind k hk => hn.here.length ?_ k (hk.trans hlength.le)⟩
      obtain rfl : kind = .arrayLiteral := List.mem_singleton.1 hkind
      exact List.mem_cons_self
    split at h
    · rename_i hkind
      subst hkind
      rcases normalizeCall_cases h with rfl | ⟨receiver, args, m, last, rfl, -, -, -, rfl⟩
      · exact .intro hsame hparts
      · refine .intro ⟨by simp [gatheredCall, Node.constant?], by simp [gatheredCall]⟩ fun c hc hnested => ?_
        rw [gatheredCall, List.mem_cons, List.mem_append, List.mem_singleton] at hc
        rcases hc with rfl | hc | rfl
        · exact hparts _ List.mem_cons_self hnested
        · exact hparts c (List.mem_cons_of_mem _ (List.mem_of_mem_take hc)) hnested
        · refine .intro ⟨by simp [Node.constant?], fun _ k hk => hn.here.length (by simp [Kind.gathers]) k ?_⟩
            fun e he hnested => ?_
          · simp only [List.length_drop, List.length_cons] at hk hlength ⊢
            omega
          · exact hparts e (List.mem_cons_of_mem _ (List.mem_of_mem_drop he)) hnested
    · subst h
      exact .intro hsame hparts

/-- The code of a method has the integers only that its nodes bring into it. -/
theorem within_lowerMethod (hN : HasTruth N) (h : (t.lowerMethod d).run ns = .ok (m, ns'))
    (hd : d.Everywhere (Node.Brings N [.arrayLiteral])) : Within N m.code := by
  obtain ⟨name, info, is, -, -, his, hcode, -⟩ := lowerMethod_code h
  have hwithin : Within N is := by
    refine yields_within_lowerSequence (fun n hn => yields_within_lowerStatement hN _ ?_) _ _ _ his
    obtain ⟨hchild, hstatement⟩ := List.mem_filter.1 hn
    refine hd.child hchild fun hkind => ?_
    simp [hkind, Kind.isStatement] at hstatement
  have hfilter : Within N (is.filter (!CodeMethod.isLabel ·)) := fun i hi => hwithin i (List.mem_filter.1 hi).1
  rcases hcode with hcode | hcode
  · rwa [hcode]
  · rw [hcode]
    exact hfilter.snoc (List.forall_mem_nil _)

end SymbolTable

/-! ## Lines -/

namespace Jasmin

/-- Lines that give integers of a set only, and increase variables by what an increment can hold. -/
def Line.Gives (N : Int → Prop) : Line → Prop
  | const n => N n
  | increment _ amount => fitsByte amount = true
  | _ => True

/-- The lines of code with integers of a set. -/
theorem Scope.gives_bodyLines {N : Int → Prop} (hN : HasTruth N) {s : Scope} {lines : List Line}
    (h : Within N s.method.code) (hlines : s.bodyLines = .ok lines) : ∀ l ∈ lines, l.Gives N := by
  have hother {l : Line} (hslot : l.slot? = none) (hconst : l.const? = none) : l.Gives N := by
    cases l with
    | const n => cases hconst
    | increment n amount => cases hslot
    | _ => trivial
  have hallows : s.Allows (·.Gives N) .univ {n | N n} :=
    ⟨fun _ hslot hconst _ => hother hslot hconst, fun _ _ _ _ _ => trivial, fun _ _ _ _ _ hamount => hamount, fun _ hn => hn,
      hN.zero, hN.one⟩
  have hwrites : Emit.Writes (·.Gives N) s.body :=
    writes_body (fun _ => trivial) trivial fun i hi => hallows.writes_instruction ⟨fun _ _ => trivial, h i hi⟩
      (fun _ _ _ _ => trivial) (fun _ => trivial) fun _ _ _ _ _ => trivial
  obtain ⟨b, hbody, rfl⟩ := runOn_body_of_bodyLines hlines
  obtain ⟨added, hadded, hall⟩ := hwrites _ _ _ hbody
  rw [hadded]
  exact hall

end Jasmin

/-! ## Programs -/

namespace Node
variable {n : Node}

/-- A node that is no integer of more than 32 bits, and does not have more children than such an integer says if they are
elements or arguments. -/
def fitsWord (n : Node) : Bool :=
  (match n.constant? with
    | .ok (some (.int i)) => Jasmin.fitsWord i
    | _ => true) &&
  (!Kind.gathers.contains n.kind || decide (n.children.length ≤ 2147483647))

theorem brings_of_fitsWord (h : n.fitsWord = true) : n.Brings (Jasmin.fitsWord · = true) Kind.gathers := by
  simp only [fitsWord, Bool.and_eq_true, Bool.or_eq_true, Bool.not_eq_true', decide_eq_true_eq] at h
  obtain ⟨hliteral, hlength⟩ := h
  refine ⟨fun i hi => ?_, fun hkind k hk => ?_⟩
  · rw [hi] at hliteral
    exact hliteral
  · have hcontains : Kind.gathers.contains n.kind = true := by simpa using hkind
    rw [hcontains] at hlength
    have hle := hlength.resolve_left (by simp)
    simp only [Jasmin.fitsWord, Bool.and_eq_true, decide_eq_true_eq]
    omega

end Node

namespace Lowers

-- What is compared below are long tuples.
set_option synthInstance.maxSize 4000

variable {config : Config} {source : String} {root tree : Node} {table : SymbolTable} {code final : CodeProgram}
  {N : Int → Prop}

/-- The code of a program has the integers that its tree brings, besides those of 32 bits. -/
theorem within (h : Lowers config source root table tree code) (hN : ∀ i, Jasmin.fitsWord i = true → N i)
    (hroot : ∀ v ∈ root.preorder, v.2.Brings N Kind.gathers) {m : CodeMethod} (hm : m ∈ code.methods) : Within N m.code := by
  have haccepted := Node.accepted_of_analyze h.parsed h.analyzed
  have hmethods : root.HasMethods (·.Everywhere (Node.Brings N Kind.gathers)) := by
    refine ⟨haccepted.hasMethods.kind, fun c hc _ d hd _ => ?_⟩
    obtain ⟨i, hi⟩ := List.getElem?_of_mem hc
    obtain ⟨j, hj⟩ := List.getElem?_of_mem hd
    have hc : root.at? [i] = some c := by simp [Node.at?, hi]
    exact Node.everywhere_at hroot (Node.at?_append_singleton hc hj)
  have hclosed := Constant.closed_intIn hN
  have hprepared : tree.HasMethods (·.Everywhere (Node.Brings N [.arrayLiteral])) := by
    refine hmethods.prepare ?_ ?_ ?_ h.prepared
    · rintro - d d' - hd hdd'
      obtain ⟨cs, rfl, hcs⟩ := Node.simplified_propagateMethod hclosed (hd.imp Node.kept_brings.holds) hdd'
      exact (Node.Simplified.withChildren hcs).everywhere hclosed Node.kept_brings hd
    · rintro - d d' - hd hdd'
      exact (Node.simplified_fold hdd').everywhere hclosed Node.kept_brings hd
    · rintro d d' - hd hdd'
      exact SymbolTable.brings_normalizeVarargs hdd' hd
  obtain ⟨d, -, hd, ns, ns', hrun⟩ := SymbolTable.exists_lowered hprepared h.generated hm
  exact SymbolTable.within_lowerMethod (.of_word hN) hrun hd

/-- Every integer in the lines of a program is one of 32 bits or one that its tree brings, and no increment is too large. -/
theorem lines_give (h : Lowers config source root table tree code) (hN : ∀ i, Jasmin.fitsWord i = true → N i)
    (hroot : ∀ v ∈ root.preorder, v.2.Brings N Kind.gathers) {reports : List Report}
    (hfinal : (Compile.allocate config code).events.1 = .ok (final, reports)) {m : CodeMethod} (hm : m ∈ final.methods)
    {lines : List Jasmin.Line} (hlines : (Jasmin.Scope.mk final m).bodyLines = .ok lines) : ∀ l ∈ lines, l.Gives N := by
  obtain ⟨m₀, hm₀, slots, rfl⟩ := Compile.exists_of_mem_allocate hfinal hm
  have hwithin : Within N m₀.code := h.within hN hroot hm₀
  exact Jasmin.Scope.gives_bodyLines (.of_word hN) hwithin hlines

/-- Every integer that is written is one of 32 bits, in an encoding that can hold it. In a program that no check objects to,
with or without folded constants and allocated registers, where the literals of the source have 32 bits and no array gets more
elements than such an integer can say, all constants in the lines have 32 bits and are read back as what they are, and all
increments are those of a byte. -/
theorem integers_fit (h : Lowers config source root table tree code) (hroot : ∀ v ∈ root.preorder, v.2.fitsWord = true)
    {reports : List Report} (hfinal : (Compile.allocate config code).events.1 = .ok (final, reports)) :
    ∀ m ∈ final.methods, ∀ lines, (Jasmin.Scope.mk final m).bodyLines = .ok lines → ∀ l ∈ lines,
      (∀ n, l = .const n → Jasmin.fitsWord n = true ∧ Jasmin.readConst l.body = some n) ∧
      ∀ slot amount, l = .increment slot amount → Jasmin.fitsByte amount = true := by
  intro m hm lines hlines l hl
  have hgives := h.lines_give (fun _ hi => hi) (fun v hv => Node.brings_of_fitsWord (hroot v hv)) hfinal hm hlines l hl
  refine ⟨?_, ?_⟩
  · rintro n rfl
    exact ⟨hgives, Jasmin.readConst_body hgives⟩
  · rintro slot amount rfl
    exact hgives

/-- A constant that is folded and stored in an array, and a variable that is counted down. -/
theorem integers_fit_folded :
    ∃ root table tree code final reports, Lowers { optimize := true }
        "class A\x7bint f(int n)\x7bint[] a;a=[2147483647+1];n=n-100;return n;\x7d\x7d" root table tree code ∧
      (∀ v ∈ root.preorder, v.2.fitsWord = true) ∧
      (Compile.allocate { optimize := true } code).events.1 = .ok (final, reports) ∧
      ∃ m ∈ final.methods, ∃ lines, (Jasmin.Scope.mk final m).bodyLines = .ok lines ∧
        lines = [.const 1, .newArray "int", .slot .astore 2, .slot .aload 2, .const 0, .const (-2147483648), .plain .iastore,
          .slot .aload 2, .slot .astore 3, .increment 1 (-100), .slot .iload 1, .plain .iret] ∧
        ∀ l ∈ lines, (∀ n, l = .const n → Jasmin.fitsWord n = true ∧ Jasmin.readConst l.body = some n) ∧
          ∀ slot amount, l = .increment slot amount → Jasmin.fitsByte amount = true := by
  obtain ⟨root, table, tree, code, h, hfacts⟩ := exists_lowers (show (lowered? { optimize := true }
      "class A\x7bint f(int n)\x7bint[] a;a=[2147483647+1];n=n-100;return n;\x7d\x7d").map
      (fun r => (r.1.preorder.all (·.2.fitsWord), (Compile.allocate { optimize := true } r.2.2.2).events.1.toOption.map fun f =>
        f.1.methods.head?.map fun m => (Jasmin.Scope.mk f.1 m).bodyLines.toOption)) =
        some (true, some (some (some [.const 1, .newArray "int", .slot .astore 2, .slot .aload 2, .const 0, .const (-2147483648),
          .plain .iastore, .slot .aload 2, .slot .astore 3, .increment 1 (-100), .slot .iload 1, .plain .iret]))) by decide +kernel)
  simp only [Prod.mk.injEq] at hfacts
  obtain ⟨hroot, hfinal⟩ := hfacts
  obtain ⟨⟨final, reports⟩, hfinal, hhead⟩ := exists_of_toOption hfinal
  obtain ⟨m, hm, hlines⟩ := Option.map_eq_some_iff.1 hhead
  have hlines := eq_ok_of_toOption hlines
  have hroot : ∀ v ∈ root.preorder, v.2.fitsWord = true := List.all_eq_true.1 hroot
  exact ⟨root, table, tree, code, final, reports, h, hroot, hfinal, m, List.mem_of_head? hm, _, hlines, rfl,
    h.integers_fit hroot hfinal m (List.mem_of_head? hm) _ hlines⟩

/-- A literal of the source that has more than 32 bits is written as it is, in an instruction that cannot hold it. -/
theorem large_literal_is_written :
    ∃ root table tree code final reports, Lowers {} "class A\x7bint f()\x7breturn 2147483648;\x7d\x7d" root table tree code ∧
      (Compile.allocate {} code).events.1 = .ok (final, reports) ∧
      ∃ m ∈ final.methods, (Jasmin.Scope.mk final m).bodyLines = .ok [.const 2147483648, .plain .iret] ∧
        ¬(2147483648 : Int) ≤ 2147483647 ∧ (Jasmin.Line.const 2147483648).body = "ldc 2147483648" ∧
        Jasmin.readConst (Jasmin.Line.const 2147483648).body = none := by
  obtain ⟨root, table, tree, code, h, hfacts⟩ := exists_lowers (show (lowered? {}
      "class A\x7bint f()\x7breturn 2147483648;\x7d\x7d").map
      (fun r => (Compile.allocate {} r.2.2.2).events.1.toOption.map fun f =>
        f.1.methods.head?.map fun m => (Jasmin.Scope.mk f.1 m).bodyLines.toOption) =
        some (some (some (some [.const 2147483648, .plain .iret]))) by decide +kernel)
  obtain ⟨⟨final, reports⟩, hfinal, hhead⟩ := exists_of_toOption hfacts
  obtain ⟨m, hm, hlines⟩ := Option.map_eq_some_iff.1 hhead
  exact ⟨root, table, tree, code, final, reports, h, hfinal, m, List.mem_of_head? hm, eq_ok_of_toOption hlines, by decide,
    rfl, (Jasmin.readConst_ldc _).trans (if_neg (by decide))⟩

end Lowers
end JmmCompiler

import Mathlib
import JmmCompiler.Proofs.LoweredMethods
import JmmCompiler.Proofs.TypedProgram
/-! Programs that are accepted are compiled. Lowering, allocation and emission have all that they ask for where types are
known and no void call is taken for a value. -/
namespace JmmCompiler

/-! ## Slots -/

namespace Slots

/-- No slot is below the first. -/
def Nonneg (s : Slots) : Prop := ∀ e ∈ s.entries, 0 ≤ e.2

variable {s : Slots}

theorem nonneg_empty : Nonneg {} := by simp [Nonneg]

theorem Nonneg.find? (h : s.Nonneg) {name : String} {n : Int} (hn : s.find? name = some n) : 0 ≤ n :=
  h _ (Assoc.mem_of_findEntry hn)

theorem Nonneg.insert (h : s.Nonneg) (name : String) {n : Int} (hn : 0 ≤ n) : Nonneg (Assoc.insert s name n) := by
  obtain ⟨entries⟩ := s
  have hentries : ∀ e ∈ Assoc.insertEntry name n entries, 0 ≤ e.2 := by
    induction entries with
    | nil => simpa [Assoc.insertEntry] using hn
    | cons first rest ih =>
      obtain ⟨hfirst, hrest⟩ := List.forall_mem_cons.1 h
      rw [Assoc.insertEntry]
      split
      · exact List.forall_mem_cons.2 ⟨hn, hrest⟩
      · exact List.forall_mem_cons.2 ⟨hfirst, ih hrest⟩
  exact hentries

theorem Nonneg.foldl {α : Type} {f : Slots → α → Slots} {xs : List α} (hf : ∀ s, ∀ x ∈ xs, Nonneg s → Nonneg (f s x))
    (h : s.Nonneg) : Nonneg (xs.foldl f s) := by
  induction xs generalizing s with
  | nil => exact h
  | cons x xs ih => exact ih (fun s x hx => hf s x (List.mem_cons_of_mem _ hx)) (hf s x List.mem_cons_self h)

end Slots

namespace CodeMethod
variable {m m₀ : CodeMethod} {g : InterferenceGraph}

theorem nonneg_fixedSlots (m : CodeMethod) : m.fixedSlots.Nonneg := by
  refine Slots.Nonneg.foldl (fun _ _ _ hs => hs.insert _ (Int.natCast_nonneg _)) ?_
  split
  · exact Slots.nonneg_empty
  · simp [Slots.Nonneg]

theorem nonneg_addSlot {s : Slots} (h : s.Nonneg) (name : String) : (addSlot s name).Nonneg := by
  unfold addSlot
  split
  · exact h
  · exact h.insert _ (Int.natCast_nonneg _)

theorem nonneg_addHighest {s : Slots} (h : s.Nonneg) (name : String) : (addHighest s name).Nonneg := by
  unfold addHighest
  split
  · exact h
  · have hle := s.neg_one_le_highest
    exact h.insert _ (by omega)

/-- Colours start above the slots of `this` and of the parameters. -/
theorem nonneg_color (g : InterferenceGraph) (first : Nat) : (g.color first).Nonneg :=
  Slots.Nonneg.foldl (fun _ name _ hs => hs.insert name ((Int.natCast_nonneg first).trans (first_le_lowestFree _ _)))
    Slots.nonneg_empty

theorem nonneg_allSlots (m : CodeMethod) (g : InterferenceGraph) : (m.allSlots g).Nonneg := by
  refine Slots.Nonneg.foldl (fun _ name _ hs => nonneg_addHighest hs name) ?_
  exact Slots.Nonneg.foldl (fun _ e he hs => hs.insert e.1 (nonneg_color g m.reserved e he)) m.nonneg_fixedSlots

/-- Every variable that an instruction writes or reads has a slot. -/
def HasSlots (m : CodeMethod) : Prop :=
  ∀ i ∈ m.code, ∃ ds us, i.defs = .ok ds ∧ i.uses = .ok us ∧ ∀ x ∈ ds ++ us, ∃ n, 0 ≤ n ∧ m.slots.find? x = some n

theorem hasSlots_of_finish (h : m₀.finish = .ok m) : m.HasSlots := by
  intro i hi
  obtain ⟨k, hk⟩ := List.getElem?_of_mem hi
  obtain ⟨ds, us, hds, hus, hslots⟩ := mentions_of_finish h hk
  refine ⟨ds, us, hds, hus, fun x hx => ?_⟩
  obtain ⟨n, hn⟩ := hslots x hx
  have hnonneg : m.slots.Nonneg := by
    obtain ⟨names, -, hall⟩ := finish_spec h
    rw [hall]
    exact Slots.Nonneg.foldl (fun _ name _ hs => nonneg_addSlot hs name) m.nonneg_fixedSlots
  exact ⟨n, hnonneg.find? hn, hn⟩

theorem HasSlots.allSlots (h : m.HasSlots) (g : InterferenceGraph) : (m.withSlots (m.allSlots g)).HasSlots := by
  intro i hi
  obtain ⟨ds, us, hds, hus, hslots⟩ := h i hi
  refine ⟨ds, us, hds, hus, fun x hx => ?_⟩
  obtain ⟨n, -, hn⟩ := hslots x hx
  obtain ⟨n', hn'⟩ := exists_find?_allSlots (g := g) hn
  exact ⟨n', (m.nonneg_allSlots g).find? hn', hn'⟩

/-- Labels that are added become places, not instructions. -/
theorem isLabel_of_extend {is : List Instruction} (h : m₀.extend is = .ok m) {i : Instruction} (hi : i ∈ m.code) :
    i ∈ m₀.code ∨ isLabel i = false := by
  induction is generalizing m₀ with
  | nil =>
    obtain rfl : m₀ = m := by simpa [extend] using h
    exact .inl hi
  | cons j is ih =>
    simp only [extend, List.foldlM_cons, bind_eq_ok] at h
    obtain ⟨m₁, hadd, hrest⟩ := h
    rcases ih hrest with hi | hi
    · cases j with
      | label name =>
        simp only [add, addLabel] at hadd
        split at hadd
        · cases hadd
        · rw [← Except.ok.inj hadd] at hi
          exact .inl hi
      | _ =>
        rw [← Except.ok.inj hadd] at hi
        rcases List.mem_append.1 hi with hi | hi
        · exact .inl hi
        · exact .inr (List.mem_singleton.1 hi ▸ rfl)
    · exact .inr hi

/-- A method whose instructions can be loaded, with slots for its variables and places for its jumps. -/
structure Emittable (m : CodeMethod) : Prop where
  loadable : ∀ i ∈ m.code, i.Loadable
  slots : m.HasSlots
  labels : m.LabelsSound

/-- Registers can be allocated, and the method stays emittable. -/
theorem Emittable.exists_allocate (h : m.Emittable) : ∃ m' g, m.allocate = .ok (m', g) ∧ m'.Emittable := by
  obtain ⟨l, hl, -⟩ := liveness_exact (fun i hi => (h.loadable i hi).isWhole) fun i hi label hlabel =>
    h.labels.jumps i hi label hlabel
  exact ⟨_, _, allocate_eq hl, h.loadable, h.slots.allSlots _, h.labels.nodup, h.labels.jumps, h.labels.inside⟩

/-- A method that is emittable has lines in every program. -/
theorem Emittable.exists_methodLines (h : m.Emittable) (p : CodeProgram) :
    ∃ lines, (Jasmin.Scope.mk p m).methodLines = .ok lines := by
  obtain ⟨lines, hlines⟩ := Jasmin.Scope.exists_bodyLines (s := ⟨p, m⟩) fun i hi => by
    obtain ⟨ds, us, hds, hus, hslots⟩ := h.slots i hi
    exact (h.loadable i hi).emits hds hus hslots
  exact ⟨_, by rw [Jasmin.Scope.methodLines, hlines]; rfl⟩

end CodeMethod

theorem CodeProgram.exists_assembly {p : CodeProgram} (h : ∀ m ∈ p.methods, m.Emittable) :
    ∃ text, p.assembly = .ok text := by
  obtain ⟨methods, hmethods⟩ : ∃ methods, p.methods.mapM (fun m => do return "" :: (← (Jasmin.Scope.mk p m).methodLines) :
      CodeMethod → Except Failure (List String)) = .ok methods := exists_mapM_eq_ok fun m hm => by
    obtain ⟨lines, hlines⟩ := (h m hm).exists_methodLines p
    exact ⟨"" :: lines, by rw [hlines]; rfl⟩
  exact ⟨_, by rw [CodeProgram.assembly, hmethods]; rfl⟩

namespace Compile

theorem exists_allocateMethods {ms : List CodeMethod} (h : ∀ m ∈ ms, m.Emittable) (events : List Event) :
    ∃ ms' events', runOn (allocateMethods ms) events = (.ok ms', events') ∧ ∀ m ∈ ms', m.Emittable := by
  induction ms generalizing events with
  | nil => exact ⟨[], events, rfl, by simp⟩
  | cons m ms ih =>
    obtain ⟨hm, hms⟩ := List.forall_mem_cons.1 h
    obtain ⟨m', g, hallocate, hm'⟩ := hm.exists_allocate
    obtain ⟨ms', events', hrun, hms'⟩ := ih hms (events ++ [.allocated m'.name (m'.slots.highest + 1)])
    refine ⟨m' :: ms', events', ?_, List.forall_mem_cons.2 ⟨hm', hms'⟩⟩
    simp only [allocateMethods, runOn_bind_eq_ok, runOn_ofExcept, hallocate]
    exact ⟨_, _, rfl, (), _, rfl, ms', events', hrun, rfl⟩

/-- Allocation, where it is wanted, keeps a program emittable. -/
theorem exists_allocate {code : CodeProgram} (config : Config) (h : ∀ m ∈ code.methods, m.Emittable) (events : List Event) :
    ∃ final reports events', runOn (allocate config code) events = (.ok (final, reports), events') ∧
      ∀ m ∈ final.methods, m.Emittable := by
  unfold allocate
  split
  · obtain ⟨ms, events', hrun, hms⟩ := exists_allocateMethods h (events ++ [.allocating config.registers])
    refine ⟨{ code with methods := ms }, CodeProgram.overBudget { code with methods := ms } config.registers, events', ?_, hms⟩
    simp only [runOn_bind_eq_ok]
    exact ⟨(), _, rfl, ms, events', hrun, rfl⟩
  · exact ⟨code, [], events, rfl, h⟩

end Compile

/-! ## Receivers of calls -/

namespace Context
variable {s : Context} {n : Node}

/-- What is called has a value, since the checks know where a call goes. -/
theorem callsValues_of_reaches (hdeclared : s.Declared) (himports : s.table.isImported "void" = false)
    (h : s.Reaches n) (hname : n.kind = .call → ∃ name, n.name = .ok name) : s.CallsValues n := by
  intro hkind receiver hreceiver hvoid
  obtain ⟨kind, attributes, children, p⟩ := n
  obtain rfl : kind = .call := hkind
  cases children with
  | nil => cases hreceiver
  | cons first args =>
    obtain rfl := Option.some.inj hreceiver
    obtain ⟨name, hname⟩ := hname rfl
    obtain ⟨type, htyped, hreached⟩ := h attributes first args p name rfl hname
    obtain rfl := Except.ok.inj (htyped.typeOf.symm.trans hvoid)
    have hclass : Ty.void ≠ s.table.classType := hdeclared.class_ne_void.symm
    rcases hreached with ⟨-, heq⟩ | ⟨-, -, harray⟩ | ⟨-, himported⟩ | ⟨hvariable, imported, hof, -⟩ | ⟨heq, -⟩
    · exact hclass heq
    · cases harray
    · rw [show Ty.void.name = "void" from rfl, himports] at himported
      cases himported
    · generalize hwanted : Ty.void = type at htyped
      cases htyped with
      | varRef hnames p =>
        rcases hnames with hnames | ⟨-, himport⟩
        · exact (hdeclared.names _ hnames).2 hwanted.symm
        · exact absurd (hwanted.trans himport.variableType) (by decide)
      | _ => cases hvariable
    · exact hclass heq

end Context

namespace Node.Accepted
variable {root : Node} {table : SymbolTable} {m : MethodInfo}

/-- What is no name is not imported. -/
theorem isImported_of_not_isName (h : root.Accepted table) {word : String} (hword : ¬Lexeme.IsName word) (hnonempty : word ≠ "")
    (hdot : '.' ∉ word.toList) : table.isImported word = false := by
  have hnot : word ∉ table.importNames := fun hmem => by
    obtain ⟨imported, himported, hsimple⟩ := List.mem_map.1 hmem
    obtain ⟨names, hnames, rfl⟩ := h.exists_names_of_import himported
    have hne : names ≠ [] := by
      rintro rfl
      exact hnonempty (hsimple.symm.trans (by decide))
    -- the simple name is the last of the names
    have hlast := getLast?_segments (String.intercalate "." names)
    rw [segments_intercalate hnames hne, hsimple] at hlast
    exact hword (hnames word (List.mem_of_getLast? hlast))
  rw [← Bool.not_eq_true, SymbolTable.isImported_iff hdot]
  exact hnot

theorem isImported_void (h : root.Accepted table) : table.isImported "void" = false :=
  h.isImported_of_not_isName (fun hname => absurd hname.2 (by decide)) (by decide) (by decide)

/-- The statements of a method call on what has a value. -/
theorem everywhere_callsValues (h : root.Accepted table) (hclass : table.className ≠ "any")
    (hwritten : ∀ type, root.Writes type → type.IsKnown) (hm : table.method? m.name = some m) {d n : Node}
    (hd : table.Declares d m) (hn : n ∈ d.statements) : n.Everywhere (table.context m).strictly.CallsValues := by
  have hreaches := (hd.fits hn).everywhere_reaches hd.within (hd.clears n hn)
  refine (hreaches.and (hd.shaped n hn).everywhere_isPart).imp ?_
  rintro n ⟨⟨hreaches, -⟩, hpart⟩
  refine Context.callsValues_of_reaches (s := table.context m) (h.declared hclass hwritten hm) h.isImported_void
    hreaches fun hkind => ?_
  rcases hpart with hpart | hpart
  · cases hpart with
    | call => exact ⟨_, rfl⟩
    | _ => cases hkind
  · cases hpart with
    | simple hsimple => cases hsimple <;> cases hkind
    | _ => cases hkind

end Node.Accepted

/-! ## Programs -/

/-- A node that keeps to values and is no array literal that starts with what is not known. -/
structure SymbolTable.KeepsToKnown (t : SymbolTable) (method : String) (n : Node) : Prop
    extends t.KeepsToValues method n where
  literals : n.kind = .arrayLiteral → ∀ c ∈ n.children.head?, (t.typeOf (some method) c).toOption ≠ some .any

/-- A method whose statements fit is lowered to code that is emittable. -/
theorem Context.Holds.emittable {s : Context} {m : MethodInfo} {P : Node → Prop} {d : Node} {code : CodeMethod}
    {ns ns' : JmmCompiler.Names} (hs : s.Known) (hd : s.Holds m P d)
    (hP : ∀ n, P n → (s.StartsKnown n ∧ s.CallsValues n) ∧ s.IsNormal n)
    (h : (s.table.lowerMethod d).run ns = .ok (code, ns')) (hlabels : code.LabelsSound) : code.Emittable := by
  obtain ⟨is, m₁, ns₁, ns₂, -, hextend, hfinish⟩ := SymbolTable.lowerMethod_of_found hd.name hd.found h
  have hextended := ((SymbolTable.isFor_emptyMethod m).extend hextend).1
  have hmethod : s.table.method? s.method = some m := hd.method ▸ hd.found
  have hmakes := (hd.makes hs.proper (fun n hn => (hP n hn).2) h).2
  have hlabel : ∀ i ∈ code.code, CodeMethod.isLabel i = false := fun i hi => by
    rcases (hextended.finish hfinish).2 i hi with hi | rfl
    · exact (CodeMethod.isLabel_of_extend hextend hi).resolve_left (by simp [SymbolTable.emptyMethod])
    · rfl
  refine ⟨fun i hi => ?_, CodeMethod.hasSlots_of_finish hfinish, hlabels⟩
  rcases hmakes i hi with hmade | rfl
  · exact hmade.loadable hs (fun n hn => (hP n hn).1) hmethod (hlabel i hi)
  · trivial

namespace Node
variable {source : String} {root : Node} {table : SymbolTable}

/-- The contexts in which the methods of a program are lowered. -/
theorem Accepted.prepares (h : root.Accepted table) (optimize : Bool)
    (hnames : ∀ m ∈ table.methods, ∀ v ∈ m.params ++ m.locals, table.field? v.name = none)
    (hwritten : ∀ type, root.Writes type → type.IsKnown) (hclass : table.className ≠ "any")
    (hkeeps : ∀ v ∈ root.preorder, ∀ decl name, root.methodAt? v.1 v.2 = some decl → decl.name = .ok name →
      table.KeepsToKnown name v.2) (m : MethodInfo) (hm : table.method? m.name = some m) :
    (table.context m).strictly.Prepares root table m optimize
      fun n => (table.context m).strictly.StartsKnown n ∧ (table.context m).strictly.CallsValues n := by
  have hs := h.known hm hnames hwritten hclass
  refine ⟨rfl, rfl, Context.stable_startsKnown.and Context.stable_callsValues, fun _ => ?_, fun _ name m last hm hrest => ?_,
    fun path d hat hkind hd n hn => ?_⟩
  · exact h.variablesKnown (List.mem_of_find?_eq_some hm) fun type htype => (hwritten type htype).1
  · refine (hs.params name m hm last ?_).1
    rw [← MethodInfo.params_of_rest hrest]
    simp
  · have hnode := everywhere_of_method (Q := table.KeepsToKnown) hat hkind hd hn hkeeps hwritten
    refine ⟨(hd.fits hn).strictly (h.declared hclass hwritten hm) (hnode.imp fun n hn =>
      Context.tame_of_keepsToValues (s := table.context m) hn.1.toKeepsToValues hn.1.literals hn.2.1 hn.2.2), ?_⟩
    exact (hnode.imp fun n hn hkind _ c hc => Context.ne_ok_any (s := (table.context m).strictly) (hn.1.literals hkind c hc)).and
      (h.everywhere_callsValues hclass hwritten hm hd hn)

/-- A program without reports is compiled if it is lowered to methods that are emittable. -/
theorem compile_eq_ok {config : Config} {tree : Node} {code : CodeProgram}
    (hanalyze : root.analyze = .ok { reports := [], table := some table })
    (htree : ∀ before, ∃ events, runOn (Compile.prepare config table root) before = (.ok tree, events))
    (hcode : table.generate tree = .ok code) (h : ∀ m ∈ code.methods, m.Emittable) :
    ∃ compilation text, root.compile config = .ok compilation ∧ compilation.assembly = some text := by
  suffices ∃ compilation text events, runOn (Compile.compile config root) [] = (.ok compilation, events) ∧
      compilation.assembly = some text by
    obtain ⟨compilation, text, events, hrun, htext⟩ := this
    exact ⟨compilation, text, congrArg Prod.fst hrun, htext⟩
  obtain ⟨before, hanalyzed⟩ : ∃ before, runOn (Compile.analyze root) [] =
      (.ok { reports := [], table := some table }, before) := ⟨_, Prod.ext hanalyze rfl⟩
  obtain ⟨prepared, hprepared⟩ := htree before
  obtain ⟨final, reports, allocated, hallocated, hfinal⟩ :=
    Compile.exists_allocate config h (prepared ++ [.generated code.className code.methods.length])
  obtain ⟨text, htext⟩ := CodeProgram.exists_assembly hfinal
  refine ⟨{ reports := reports, table := some table, code := some final, assembly := some text },
    text, allocated ++ [.emitted final.className], ?_, rfl⟩
  unfold Compile.compile
  simp only [runOn_bind_eq_ok]
  refine ⟨_, before, hanalyzed, ?_⟩
  simp only [Report.anyError, List.any_nil, Bool.false_eq_true, if_false, runOn_bind_eq_ok, Compile.runOn_ofExcept]
  exact ⟨tree, prepared, hprepared, code, prepared, by rw [hcode], (), _, rfl, (final, reports), allocated, hallocated, text,
    allocated, by rw [htext], (), _, rfl, rfl⟩

/-- A program that is analyzed without reports is compiled to assembly text in every configuration, if no variable hides a
field, the types that are written and the class are known, no value is taken of a void call, imports stand as receivers
only, and no array literal starts with what is not known. -/
theorem compiles (hparse : Node.parse source = .ok root)
    (hanalyze : root.analyze = .ok { reports := [], table := some table })
    (hnames : ∀ m ∈ table.methods, ∀ v ∈ m.params ++ m.locals, table.field? v.name = none)
    (hwritten : ∀ type, root.Writes type → type.IsKnown) (hclass : table.className ≠ "any")
    (hkeeps : ∀ v ∈ root.preorder, ∀ decl name, root.methodAt? v.1 v.2 = some decl → decl.name = .ok name →
      table.KeepsToKnown name v.2) (config : Config) :
    ∃ compilation text, root.compile config = .ok compilation ∧ compilation.assembly = some text := by
  have h : root.Accepted table := accepted_of_analyze hparse hanalyze
  have hprepares := h.prepares config.optimize hnames hwritten hclass hkeeps
  have hknown := fun m hm => h.known (m := m) hm hnames hwritten hclass
  obtain ⟨imports, p, c, htree, hholds⟩ := h.exists_prepared hprepares
  obtain ⟨code, hcode⟩ : ∃ code, table.generate ⟨.program, {}, imports ++ [c], p⟩ = .ok code :=
      hholds.exists_generate fun d hkind ⟨m, hm, hd⟩ =>
        hd.succeeds_lowerMethod (hknown m hm).proper rfl (fun n hn => hn.2) fun i hi => by
      cases hlabel : CodeMethod.isLabel i with
      | false => exact (hi.loadable (hknown m hm) (fun n hn => hn.1) hm hlabel).isWhole
      | true => cases i with
        | label name => rfl
        | _ => cases hlabel
  have hprepared : (Compile.prepare config table root).events.1 = .ok ⟨.program, {}, imports ++ [c], p⟩ := by
    obtain ⟨events, hrun⟩ := htree []
    exact congrArg Prod.fst hrun
  obtain ⟨k, hlabels⟩ := (table.labels_generate _).2 code hcode
  have hemittable : ∀ m ∈ code.methods, m.Emittable := fun m hm => by
    obtain ⟨d, -, ⟨info, hinfo, hd⟩, ns, ns', hlowered⟩ :=
      SymbolTable.exists_lowered (h.holds_prepared hprepares hprepared) hcode hm
    exact hd.emittable (hknown info hinfo) (fun n hn => hn) hlowered (hlabels.sound m hm)
  exact compile_eq_ok hanalyze htree hcode hemittable

/-- Calls of imported classes in conditions, arguments and returned values, in an optimized program with few registers. -/
theorem compiles_gathers :
    ∃ root compilation text, Node.parse
        ("import Io;class A extends B\x7bint[] a;int g(int k,int... x)\x7ba=x;return k;\x7d" ++
          "B f(int n)\x7bboolean[] b;b=[n<1,Io.t()];if(b[0])n=this.g(Io.n(),Io.m()[n],2);return this;\x7d\x7d") = .ok root ∧
      root.compile ⟨true, 2, by decide⟩ = .ok compilation ∧ compilation.assembly = some text := by
  obtain ⟨root, hroot, hfacts⟩ := exists_of_toOption (show (Node.parse
      ("import Io;class A extends B\x7bint[] a;int g(int k,int... x)\x7ba=x;return k;\x7d" ++
        "B f(int n)\x7bboolean[] b;b=[n<1,Io.t()];if(b[0])n=this.g(Io.n(),Io.m()[n],2);return this;\x7d\x7d")).toOption.map
      (fun root => (root.analyze, root.preorder.all (fun v => v.2.writtenType?.all fun type => decide type.IsKnown),
        root.analyze.toOption.any fun c => c.table.any fun table => Lowers.testsMethods root table.keepsToTypes)) =
        some (.ok { reports := [], table := some ⟨"A", some "B", ["Io"], [⟨"a", .intArray⟩],
          [⟨"g", .int, [⟨"k", .int⟩, ⟨"x", .intArray⟩], [], false, false, true⟩,
            ⟨"f", ⟨"B", false⟩, [⟨"n", .int⟩], [⟨"b", ⟨"boolean", true⟩⟩], false, false, false⟩]⟩ }, true, true) by decide +kernel)
  simp only [Prod.mk.injEq] at hfacts
  obtain ⟨hanalyze, hall, hkeeps⟩ := hfacts
  have hwritten : ∀ type, root.Writes type → type.IsKnown := fun type hwrites => by
    obtain ⟨v, hv, htype⟩ := hwrites
    have hknown := List.all_eq_true.1 hall v hv
    simpa [htype] using hknown
  simp only [hanalyze, Except.toOption, Option.any_some] at hkeeps
  obtain ⟨compilation, text, hcompiled⟩ := compiles hroot hanalyze (by decide) hwritten (by decide)
    (Lowers.of_testsMethods hkeeps fun _ _ h =>
      ⟨(SymbolTable.keepsToTypes_of h).toKeepsToValues, (SymbolTable.keepsToTypes_of h).literals⟩) ⟨true, 2, by decide⟩
  exact ⟨root, compilation, text, hroot, hcompiled⟩

/-- Whether a program is analyzed without reports, and not compiled. -/
def getsStuck (config : Config) (root : Node) : Bool :=
  match root.analyze with
  | .ok analyzed => analyzed.reports.isEmpty && (root.compile config).toOption.isNone
  | .error _ => false

/-- A text of a program that is analyzed without reports, and not compiled. -/
def GetsStuck (config : Config) (source : String) : Prop :=
  ∃ root analyzed, Node.parse source = .ok root ∧ root.analyze = .ok analyzed ∧ analyzed.reports = [] ∧
    ∀ compilation, root.compile config ≠ .ok compilation

theorem getsStuck_of {config : Config} (h : (Node.parse source).toOption.map (getsStuck config) = some true) :
    GetsStuck config source := by
  obtain ⟨root, hroot, hstuck⟩ := exists_of_toOption h
  unfold getsStuck at hstuck
  split at hstuck
  · rename_i analyzed hanalyzed
    obtain ⟨hreports, hcompiled⟩ := Bool.and_eq_true_iff.1 hstuck
    refine ⟨root, analyzed, hroot, hanalyzed, List.isEmpty_iff.1 hreports, fun compilation heq => ?_⟩
    simp [heq, Except.toOption] at hcompiled
  · cases hstuck

/-- A void call or an import that is taken for a value. -/
theorem getsStuck_values :
    GetsStuck {} "import io;class A\x7bvoid v()\x7b\x7dvoid f()\x7bio.p(this.v());\x7d\x7d" ∧
      GetsStuck {} "class A\x7bvoid v()\x7b\x7dvoid f()\x7bboolean b;b=this.v()==this.v();\x7d\x7d" ∧
      GetsStuck {} "import Io;class A\x7bint f()\x7breturn Io;\x7d\x7d" ∧
      GetsStuck {} "import Io;class A\x7bvoid f()\x7bIo=1;\x7d\x7d" :=
  ⟨getsStuck_of (by decide +kernel), getsStuck_of (by decide +kernel),
    getsStuck_of (by decide +kernel), getsStuck_of (by decide +kernel)⟩

/-- A local that hides a field of another type, or a type that is not known. -/
theorem getsStuck_types :
    GetsStuck {} "class A\x7bint a;boolean f()\x7bA[] a;return a<1;\x7d\x7d" ∧
      GetsStuck {} "import Io;class A\x7bboolean f()\x7breturn [Io.g()][0]<1;\x7d\x7d" ∧
      GetsStuck {} "import Io;class A\x7bint f(void[] v)\x7bv[0]=Io.g();return 1;\x7d\x7d" ∧
      GetsStuck {} "class any\x7bboolean f()\x7breturn this<1;\x7d\x7d" ∧
      GetsStuck ⟨true, -1, by decide⟩ "class A\x7bint f()\x7bany x;x=1;return x[0];\x7d\x7d" :=
  ⟨getsStuck_of (by decide +kernel), getsStuck_of (by decide +kernel), getsStuck_of (by decide +kernel),
    getsStuck_of (by decide +kernel), getsStuck_of (by decide +kernel)⟩

end Node
end JmmCompiler

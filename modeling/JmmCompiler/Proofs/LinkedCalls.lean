import Mathlib
import JmmCompiler.Proofs.CallLines
import JmmCompiler.Proofs.CallOrder
import JmmCompiler.Proofs.ImportNames
import JmmCompiler.Proofs.StackLimits
import JmmCompiler.Proofs.TypedProgram
/-! Calls of methods of the class link to the headers of the methods. What is called is found by the name of the type of the
receiver's value, how it is called is read off the symbol table, what is passed is made when calls are made normal, and the
header is that of the method's code; all agree in a compiled program. -/
namespace JmmCompiler

/-! ## Programs -/

namespace Node.Accepted
variable {root tree : Node} {table : SymbolTable} {config : Config}

/-- A program is still accepted when it is prepared for lowering. -/
theorem exists_preparedProgram (h : root.Accepted table) (himports : ∀ m ∈ table.methods, (table.context m).ImportsApart)
    (hknown : ∀ m ∈ table.methods, (table.context m).VariablesKnown)
    (htree : (Compile.prepare config table root).events.1 = .ok tree) :
    ∃ imports p c, tree = ⟨.program, {}, imports ++ [c], p⟩ ∧ table.ClearedProgram imports p c := by
  have hmem {m : MethodInfo} {d : Node} (hd : table.Cleared m d) : m ∈ table.methods :=
    List.mem_of_find?_eq_some hd.holds.found
  obtain ⟨imports, p, c, rfl, hcleared⟩ := h.exists_clearedProgram himports
  obtain ⟨folded, hnormal, hconstants⟩ := Node.exists_of_prepare htree
  obtain ⟨c', rfl, hcleared'⟩ : ∃ c', folded = ⟨.program, {}, imports ++ [c'], p⟩ ∧ table.ClearedProgram imports p c' := by
    split at hconstants
    · obtain ⟨c', rounds', hrounds, hcleared', -⟩ := hcleared.exists_foldRounds
        (fun d m hd => hd.exists_propagateMethod (himports m (hmem hd)) h.regular (hknown m (hmem hd)))
        (fun d m hd => hd.exists_fold (himports m (hmem hd))) 0 _
      obtain ⟨rounds, hfolded⟩ := hconstants
      rw [Node.foldConstantsCounted, hrounds] at hfolded
      exact ⟨c', (Prod.mk.inj (Except.ok.inj hfolded)).1.symm, hcleared'⟩
    · exact ⟨c, hconstants, hcleared⟩
  obtain ⟨ds, hds, hrecasts⟩ := hcleared'.exists_normalizeVarargs fun d m hd => hd.exists_normalizeVarargs (himports m (hmem hd))
  exact ⟨imports, p, _, Except.ok.inj (hnormal.symm.trans hds), (hcleared'.withMembers hrecasts).1⟩

end Node.Accepted

namespace SymbolTable
variable {t : SymbolTable} {d : Node} {m : CodeMethod} {info : MethodInfo} {ns ns' : Names}

/-- The code of a method has the signature of the method. -/
theorem isFor_of_lowerMethod (h : (t.lowerMethod d).run ns = .ok (m, ns')) (hname : d.name = .ok info.name)
    (hfound : t.method? info.name = some info) : m.IsFor info := by
  obtain ⟨is, m₁, ns₁, ns₂, -, hextend, hfinish⟩ := lowerMethod_of_found hname hfound h
  obtain ⟨hextended, -⟩ := (isFor_emptyMethod info).extend hextend
  exact (hextended.finish hfinish).1

end SymbolTable

namespace Jasmin

/-- A class with a name of its own keeps it. -/
theorem internalName_of_apart {imported : List String} {name : String} (hname : Lexeme.IsName name)
    (hknown : name ∉ ["String", "Object", "any"]) (hfree : name ∉ imported.map simpleName) :
    internalName imported name = name := by
  have hnone : source? imported name = none := by
    rwa [← Option.not_isSome_iff_eq_none, source?_isSome hname.dot_notMem]
  simp only [List.mem_cons, List.not_mem_nil, or_false, not_or] at hknown
  rw [internalName_of_source?_none hnone]
  simp [internalName, hknown]

namespace Scope
variable {s : Scope} {b' : Body} {j k : Nat}

/-- A method of the class in a program: its code, and no other, has its name and its signature, and the names of its
parameters' types end where a descriptor says so. -/
structure Declares (s : Scope) (t : SymbolTable) (m : MethodInfo) : Prop where
  className : s.program.className = t.className
  internalName : s.internalName t.className = t.className
  code : ∃ m' ∈ s.program.methods, m'.name = m.name
  signature : ∀ m' ∈ s.program.methods, m'.name = m.name → m'.IsFor m
  name : m.name ≠ "<init>"
  marks : ∀ p ∈ m.params, ';' ∉ (s.internalName p.type.name).toList

end Scope
end Jasmin

/-! ## Methods -/

namespace Typed
variable {s : Context} {n receiver : Node} {args : List Node} {type : Ty} {m : MethodInfo}

end Typed

namespace Lowers

-- What is compared below are long tuples.
set_option synthInstance.maxSize 4000

variable {config : Config} {source : String} {root tree : Node} {table : SymbolTable} {code final : CodeProgram}
  {reports : List Report}

/-- The class that is lowered: it declares the methods of the program, whose statements have normal calls. -/
theorem exists_class (h : Lowers config source root table tree code)
    (himports : ∀ m ∈ table.methods, (table.context m).ImportsApart)
    (hknown : ∀ m ∈ table.methods, (table.context m).VariablesKnown) :
    ∃ c, tree.classDecl = .ok c ∧ (c.childrenOf [.methodDecl]).mapM MethodInfo.ofNode = .ok table.methods ∧
      ∀ d ∈ c.childrenOf [.methodDecl], ∃ info, table.method? info.name = some info ∧
        (table.context info).Holds info (table.context info).IsNormal d := by
  have haccepted := Node.accepted_of_analyze h.parsed h.analyzed
  have hmethods := haccepted.holds_prepared (s := table.context) (P := fun info => (table.context info).Reaches)
    (fun info hinfo => by
      have hmem : info ∈ table.methods := List.mem_of_find?_eq_some hinfo
      refine ⟨rfl, rfl, Context.stable_reaches (himports info hmem), fun _ => hknown info hmem, nofun,
        fun _ d _ _ hd n hn => ⟨hd.fits hn, ?_⟩⟩
      exact ((hd.fits hn).everywhere_reaches hd.within (hd.clears n hn)).imp fun _ hn => hn.1)
    h.prepared
  obtain ⟨imports, p, c, rfl, hcleared⟩ := haccepted.exists_preparedProgram himports hknown h.prepared
  have hc := Node.classDecl_program (p := p) hcleared.leaves hcleared.kind
  refine ⟨c, hc, (SymbolTable.members_of_build hcleared.built hc).2, fun d hd => ?_⟩
  obtain ⟨hmem, hkind⟩ := Node.Accepted.mem_childrenOf hd
  obtain ⟨info, hinfo, hholds⟩ := hmethods.every c (by simp) hcleared.kind d hmem hkind
  exact ⟨info, hinfo, hholds.imp fun _ hn => hn.2⟩

/-- Every method of a program is that of one of its declarations, and every declaration has code. -/
theorem declares (h : Lowers config source root table tree code)
    (himports : ∀ m ∈ table.methods, (table.context m).ImportsApart)
    (hknown : ∀ m ∈ table.methods, (table.context m).VariablesKnown)
    (hclass : table.className ∉ ["String", "Object", "any"] ∧ table.className ∉ table.importNames)
    (hfinal : (Compile.allocate config code).events.1 = .ok (final, reports)) (m : CodeMethod) {info : MethodInfo}
    (hinfo : table.method? info.name = some info) : (Jasmin.Scope.mk final m).Declares table info := by
  have haccepted := Node.accepted_of_analyze h.parsed h.analyzed
  obtain ⟨hclassName, himported⟩ := Compile.program_of_allocate hfinal
  obtain ⟨hclassName', himported'⟩ := SymbolTable.program_of_generate h.generated
  obtain ⟨c, hc, hdecls, hholds⟩ := h.exists_class himports hknown
  have hlowered := SymbolTable.forall₂_lowered hc h.generated
  have hspelled := haccepted.spelled hinfo
  have hmarks : ∀ i ∈ table.imports, ';' ∉ i.toList := fun i hi hmark =>
    absurd (haccepted.mem_import hi hmark) (by decide)
  refine ⟨hclassName.trans hclassName', ?_, ?_, fun m' hm' hname => ?_, ?_, fun p hp => ?_⟩
  · rw [Jasmin.Scope.internalName, himported, himported']
    exact Jasmin.internalName_of_apart haccepted.isName_className hclass.1 hclass.2
  · obtain ⟨d, hd, hmade⟩ := exists_of_mem_mapM hdecls (List.mem_of_find?_eq_some hinfo)
    obtain ⟨m₀, hm₀, ns, ns', hrun⟩ := exists_of_mem_forall₂ hlowered.flip hd
    obtain ⟨slots, hslots⟩ := Compile.exists_mem_allocate hfinal hm₀
    exact ⟨_, hslots, (SymbolTable.isFor_of_lowerMethod hrun (MethodInfo.madeFrom hmade).name hinfo).name⟩
  · obtain ⟨m₀, hm₀, slots, rfl⟩ := Compile.exists_of_mem_allocate hfinal hm'
    obtain ⟨d, hd, ns, ns', hrun⟩ := exists_of_mem_forall₂ hlowered hm₀
    obtain ⟨info', hinfo', hd⟩ := hholds d hd
    have hfor := SymbolTable.isFor_of_lowerMethod hrun hd.name hinfo'
    obtain rfl : info' = info := by
      have hsame : info'.name = info.name := hfor.name.symm.trans hname
      rw [hsame] at hinfo'
      exact Option.some.inj (hinfo'.symm.trans hinfo)
    exact ⟨hfor.name, hfor.returnType, hfor.params, hfor.isStatic⟩
  · intro hinit
    rw [hinit, haccepted.method?_init] at hinfo
    cases hinfo
  · rw [Jasmin.Scope.internalName, himported, himported']
    exact Jasmin.not_mem_internalName hmarks ((hspelled.params _ info hinfo p hp).not_mem (by decide))

end Lowers
end JmmCompiler

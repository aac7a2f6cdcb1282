import JmmCompiler.Proofs.KnownTypes
import JmmCompiler.Proofs.Prepared
import JmmCompiler.Proofs.Returns
/-! Methods return. A method of a class that no check objects to returns on every path through its code, with a value
exactly if it has a return type, whether its constants are folded or not. -/
namespace JmmCompiler

namespace SymbolTable
variable {t : SymbolTable} {method : String} {returnType : Ty} {folds : Prop}

/-- Rewriting a returned value does not make it one of a void call. -/
theorem ReturnParts.rewrites (hclass : folds → ¬t.classType.IsBasic) {cs cs' : List Node}
    (hcs : List.Forall₂ (Node.Rewrites folds t (some method)) cs cs') (h : t.ReturnParts method returnType cs) :
    t.ReturnParts method returnType cs' := by
  obtain ⟨hvoid, hvalue⟩ := h
  refine ⟨fun heq => ?_, fun hne => ?_⟩
  · obtain rfl := hvoid heq
    cases hcs
    rfl
  · obtain ⟨value, type, rfl, htype, hne'⟩ := hvalue hne
    rcases hcs with _ | ⟨hrewrites, _ | _⟩
    rename_i value'
    obtain ⟨type', htype', hsettles⟩ := hrewrites.settled hclass type htype
    refine ⟨value', type', rfl, htype', ?_⟩
    rintro rfl
    exact hne' hsettles.eq_void

/-- What is compatible with a type other than the unknown one is not void. -/
theorem ne_void_of_compatible_known (hregular : t.Regular) (hvoid : returnType ≠ .void) (hany : returnType ≠ .any)
    {type : Ty} (h : t.compatible returnType type = true) : type ≠ .void := by
  rintro rfl
  simp only [compatible, Bool.or_eq_true, Bool.and_eq_true, decide_eq_true_eq, Ty.assignable] at h
  rcases h with ((h | h) | h) | ⟨⟨-, hname⟩, -⟩
  · exact hany h
  · exact absurd h (by decide)
  · exact hvoid h
  · have hreference := hregular.classType
    rw [show t.classType = .void from Ty.eq_mk hname.symm rfl] at hreference
    cases hreference

end SymbolTable

/-- There are no returns in expressions. -/
theorem Typed.returnsWith {s : Context} {e : Node} {type : Ty} {P : List Node → Prop} (h : Typed s e type) :
    e.ReturnsWith P := by
  cases h <;> exact .intro (by simp) (by simp)

/-- The statements of a method return as the method says. -/
theorem Fits.returnsWith {s : Context} {returnType : Ty} {n : Node} (hregular : s.table.Regular)
    (hany : returnType ≠ .any) (h : Fits s returnType n) :
    n.ReturnsWith (s.table.ReturnParts s.method returnType) := by
  induction h with
  | block hparts p ih => exact .intro (by simp) fun _ => ih
  | exprStmt he p => exact .intro (by simp) (by simp)
  | assign hname hvalue p q => exact .intro (by simp) (by simp)
  | arrayAssign hname hindex hvalue htype hint hfit p q => exact .intro (by simp) (by simp)
  | returnNothing hvoid p => exact .intro (fun _ => ⟨fun _ => rfl, fun hne => absurd hvoid hne⟩) (by simp)
  | returnValue hvalue hvoid hfit p =>
    refine .intro (fun _ => ⟨fun heq => absurd heq hvoid, fun _ => ?_⟩) (by simp)
    exact ⟨_, _, rfl, hvalue.typeOf, SymbolTable.ne_void_of_compatible_known hregular hvoid hany hfit⟩
  | ifThen hc hboolean ht p ih => exact .intro (by simp) fun _ => by simpa using ⟨hc.returnsWith, ih⟩
  | ifElse hc hboolean ht he p iht ihe =>
    exact .intro (by simp) fun _ => by simpa using ⟨hc.returnsWith, iht, ihe⟩
  | whileLoop hc hboolean hb p ih => exact .intro (by simp) fun _ => by simpa using ⟨hc.returnsWith, ih⟩

namespace SymbolTable
variable {t : SymbolTable} {folds : Prop} {m : MethodInfo} {d d' : Node}

/-- What is known of a declaration of a method, from the checks to lowering. -/
structure ReturnsIn (t : SymbolTable) (m : MethodInfo) (d : Node) : Prop where
  name : d.name = .ok m.name
  name? : d.name? = .ok (some m.name)
  found : t.method? m.name = some m
  completes : m.returnType ≠ .void → Node.anyCompletes d.statements = true
  returns : ∀ n ∈ d.statements, n.ReturnsWith (t.ReturnParts m.name m.returnType)

theorem Declares.returnsIn (h : t.Declares d m) (hregular : t.Regular) (hany : m.returnType ≠ .any) :
    t.ReturnsIn m d where
  name := h.name
  name? := h.within.method
  found := h.found
  completes := h.completes
  returns _ hn := (h.fits hn).returnsWith hregular hany

/-- What rewrites the children of a declaration keeps what is known of it. -/
theorem ReturnsIn.withChildren (hclass : folds → ¬t.classType.IsBasic) (h : t.ReturnsIn m d) {cs : List Node}
    (hcs : List.Forall₂ (Node.Rewrites folds t (some m.name)) d.children cs) : t.ReturnsIn m (d.withChildren cs) := by
  have hstatements : List.Forall₂ (Node.Rewrites folds t (some m.name)) d.statements (d.withChildren cs).statements :=
    Node.Rewrites.forall₂_statements hcs
  refine ⟨h.name, h.name?, h.found, fun hne => ?_, fun n' hn' => ?_⟩
  · rw [Node.Rewrites.anyCompletes_eq (hstatements.imp fun _ _ hc => hc.completes_eq)]
    exact h.completes hne
  · obtain ⟨i, hi, rfl⟩ := List.getElem_of_mem hn'
    have hlt : i < d.statements.length := hstatements.length_eq ▸ hi
    exact (h.returns _ (List.getElem_mem hlt)).rewrites (fun hcs hP => hP.rewrites hclass hcs) (hstatements.get hlt hi)

end SymbolTable

/-! ## Code -/

namespace CodeMethod
variable {m m' : CodeMethod} {is : List Instruction} {k k' : Nat}

/-- The instructions that a run may get to. -/
inductive Visits (m : CodeMethod) : Nat → Prop
  | start : Visits m 0
  | next {k k' : Nat} {ks : List Nat} (h : Visits m k) (hks : m.successors k = .ok ks) (hmem : k' ∈ ks) : Visits m k'

/-- What comes after an instruction that is no return and does not jump away is the instruction behind it. -/
theorem edge_next {i : Instruction} (hi : m.code[k]? = some i) (h : i.continues = true) : m.Edge k (k + 1) :=
  ⟨i, hi, .inr ⟨h, rfl⟩⟩

theorem exits_eq_ok {i : Instruction} {targets : List Nat} {continues : Bool} (h : m.exits i = .ok (targets, continues)) :
    continues = i.continues ∧ (∀ k' ∈ targets, ∃ l, i.target? = some l ∧ m.labels.find? l = some k') ∧
      (i.target?.isSome → targets ≠ []) := by
  have hindex {label : String} {place : Nat} (h : m.labelIndex label = .ok place) :
      m.labels.find? label = some place := by
    unfold labelIndex at h
    split at h
    · rename_i hfind
      exact Except.ok.inj h ▸ hfind
    · cases h
  cases i with
  | goto label =>
    simp only [exits, bind_eq_ok, pure_eq_ok, Prod.mk.injEq] at h
    obtain ⟨place, hplace, rfl, rfl⟩ := h
    exact ⟨rfl, by simpa [Instruction.target?] using hindex hplace, by simp⟩
  | branch condition label =>
    simp only [exits, bind_eq_ok, pure_eq_ok, Prod.mk.injEq] at h
    obtain ⟨place, hplace, rfl, rfl⟩ := h
    exact ⟨rfl, by simpa [Instruction.target?] using hindex hplace, by simp⟩
  | _ =>
    obtain ⟨rfl, rfl⟩ := Prod.mk.inj (Except.ok.inj h)
    exact ⟨rfl, by simp, by simp [Instruction.target?]⟩

theorem edge_of_mem_successors {ks : List Nat} (h : m.successors k = .ok ks) (hmem : k' ∈ ks) : m.Edge k k' := by
  unfold successors at h
  split at h
  · cases h
  · rename_i i hi
    simp only [bind_eq_ok, pure_eq_ok] at h
    obtain ⟨⟨targets, continues⟩, hexits, rfl⟩ := h
    obtain ⟨rfl, htargets, -⟩ := exits_eq_ok hexits
    rcases List.mem_append.1 hmem with hmem | hmem
    · exact ⟨i, hi, .inl (htargets k' hmem)⟩
    · split at hmem
      · rename_i hnext
        obtain rfl := List.mem_singleton.1 hmem
        exact ⟨i, hi, .inr ⟨(Bool.and_eq_true _ _ ▸ hnext).1, rfl⟩⟩
      · cases hmem

/-- Jumps go to labels on instructions, returns give values as the return type says, and where that is not void
control does not leave the code. -/
structure Closed (m : CodeMethod) : Prop where
  labels : m.LabelsSound
  stays : m.returnType ≠ .void → m.Stays (fun _ => False) 0
  returning : SymbolTable.Returning m.returnType m.code

theorem LabelsSound.exists_successors (h : m.LabelsSound) {i : Instruction} (hi : m.code[k]? = some i) :
    ∃ ks, m.successors k = .ok ks := by
  have hjumps := h.jumps i (List.mem_of_getElem? hi)
  obtain ⟨exits, hexits⟩ : ∃ exits, m.exits i = .ok exits := by
    cases i with
    | goto label =>
      obtain ⟨place, -, hplace⟩ := hjumps label rfl
      exact ⟨_, by simp only [CodeMethod.exits, labelIndex, hplace]; rfl⟩
    | branch condition label =>
      obtain ⟨place, -, hplace⟩ := hjumps label rfl
      exact ⟨_, by simp only [CodeMethod.exits, labelIndex, hplace]; rfl⟩
    | _ => exact ⟨_, rfl⟩
  exact ⟨_, by simp only [successors, hi, hexits, ok_bind]; rfl⟩

/-- Where a run of a method with a return type has nowhere to go, it returns a value. -/
theorem Closed.ends (h : m.Closed) (htype : m.returnType ≠ .void) (hk : m.Visits k) :
    ∃ i ks, m.code[k]? = some i ∧ m.successors k = .ok ks ∧ (ks = [] → ∃ e type, i = .ret e type ∧ e ≠ .absent) := by
  obtain ⟨inside, hstart, hinside⟩ := h.stays htype
  have hvisited : inside k := by
    induction hk with
    | start => exact hstart.resolve_right id
    | next _ hks hmem ih => exact ((hinside _ ih).2 _ (edge_of_mem_successors hks hmem)).resolve_right id
  obtain ⟨hlt, hedges⟩ := hinside k hvisited
  have hi := List.getElem?_eq_getElem hlt
  obtain ⟨ks, hks⟩ := h.labels.exists_successors hi
  refine ⟨_, ks, hi, hks, ?_⟩
  rintro rfl
  simp only [successors, hi, bind_eq_ok, pure_eq_ok] at hks
  obtain ⟨⟨targets, continues⟩, hexits, hnone⟩ := hks
  obtain ⟨rfl, -, hsome⟩ := exits_eq_ok hexits
  obtain ⟨hnil, hlast⟩ := List.append_eq_nil_iff.1 hnone
  have hcontinues : m.code[k].continues = false := by
    by_contra hcontinues
    rw [Bool.not_eq_false] at hcontinues
    have hnext := (hedges _ (edge_next hi hcontinues)).resolve_right id
    simp [hcontinues, (hinside _ hnext).1] at hlast
  have htarget : m.code[k].target?.isSome = false := by
    by_contra htarget
    rw [Bool.not_eq_false] at htarget
    exact hsome htarget hnil
  obtain ⟨e, type, hret⟩ : ∃ e type, m.code[k] = .ret e type := by
    generalize m.code[k] = i at hcontinues htarget
    cases i with
    | ret e type => exact ⟨e, type, rfl⟩
    | goto label => simp [Instruction.target?] at htarget
    | _ => cases hcontinues
  exact ⟨e, type, hret, ((h.returning e type (hret ▸ List.getElem_mem hlt)).2 htype).1⟩

theorem Closed.code_ne_nil (h : m.Closed) (htype : m.returnType ≠ .void) : m.code ≠ [] := by
  obtain ⟨i, -, hi, -⟩ := h.ends htype .start
  rintro hnil
  simp [hnil] at hi

/-- A method with the signature of one that a program declares. -/
structure IsFor (m : CodeMethod) (info : MethodInfo) : Prop where
  name : m.name = info.name
  returnType : m.returnType = info.returnType
  params : m.params = info.params
  isStatic : m.isStatic = info.isStatic

variable {m₁ : CodeMethod} {info : MethodInfo}

/-- Instructions that are added change nothing of the signature. -/
theorem IsFor.extend (hm : m.IsFor info) (h : m.extend is = .ok m₁) :
    m₁.IsFor info ∧ ∀ i ∈ m₁.code, i ∈ m.code ∨ i ∈ is := by
  induction is generalizing m with
  | nil =>
    obtain rfl : m = m₁ := by simpa [CodeMethod.extend] using h
    exact ⟨hm, fun i hi => .inl hi⟩
  | cons i is ih =>
    simp only [CodeMethod.extend, List.foldlM_cons, bind_eq_ok] at h
    obtain ⟨m₂, hadd, hrest⟩ := h
    obtain ⟨hm₂, hcode⟩ : m₂.IsFor info ∧ ∀ j ∈ m₂.code, j ∈ m.code ∨ j = i := by
      cases i with
      | label name =>
        simp only [add, addLabel] at hadd
        split at hadd
        · cases hadd
        · rw [← Except.ok.inj hadd]
          exact ⟨⟨hm.name, hm.returnType, hm.params, hm.isStatic⟩, fun j hj => .inl hj⟩
      | _ =>
        rw [← Except.ok.inj hadd]
        exact ⟨⟨hm.name, hm.returnType, hm.params, hm.isStatic⟩, fun j hj => by simpa [addInstruction] using hj⟩
    refine ⟨(ih hm₂ hrest).1, fun j hj => ?_⟩
    rcases (ih hm₂ hrest).2 j hj with hj | hj
    · exact (hcode j hj).imp_right fun heq => List.mem_cons.2 (.inl heq)
    · exact .inr (List.mem_cons_of_mem i hj)

/-- The end of a method adds at most an instruction without effect. -/
theorem IsFor.finish (hm : m.IsFor info) (h : m.finish = .ok m') :
    m'.IsFor info ∧ ∀ i ∈ m'.code, i ∈ m.code ∨ i = .nop := by
  simp only [CodeMethod.finish, assignSlots, bind_eq_ok, pure_eq_ok] at h
  obtain ⟨names, -, rfl⟩ := h
  split
  · exact ⟨⟨hm.name, hm.returnType, hm.params, hm.isStatic⟩, fun i hi => .inl hi⟩
  · exact ⟨⟨hm.name, hm.returnType, hm.params, hm.isStatic⟩, fun i hi => by simpa [addInstruction] using hi⟩

end CodeMethod

namespace SymbolTable
variable {t : SymbolTable} {d : Node} {m : CodeMethod} {info : MethodInfo} {ns ns' : Names}
open Lower

/-- A method with its signature and no code yet. -/
def emptyMethod (name : String) (info : MethodInfo) : CodeMethod :=
  ⟨name, info.returnType, info.params, info.isStatic, info.isPublic, [], {}, {}, []⟩

theorem isFor_emptyMethod (info : MethodInfo) : (emptyMethod info.name info).IsFor info := ⟨rfl, rfl, rfl, rfl⟩

/-- A method is made from the code of its statements. -/
theorem lowerMethod_eq_ok (h : (t.lowerMethod d).run ns = .ok (m, ns')) :
    ∃ name info is m₁ ns₁ ns₂, d.name = .ok name ∧ t.method name = .ok info ∧
      (t.lowerSequence name info.returnType d.statements).run ns₁ = .ok (is, ns₂) ∧
      (emptyMethod name info).extend is = .ok m₁ ∧ m₁.finish = .ok m := by
  unfold lowerMethod at h
  obtain ⟨name, ns₁, hname, h⟩ := lower_bind_eq_ok.1 h
  obtain ⟨info, ns₂, hinfo, h⟩ := lower_bind_eq_ok.1 h
  obtain ⟨_, ns₃, -, h⟩ := lower_bind_eq_ok.1 h
  obtain ⟨is, ns₄, his, h⟩ := lower_bind_eq_ok.1 h
  obtain ⟨m₁, ns₅, hextend, h⟩ := lower_bind_eq_ok.1 h
  exact ⟨name, info, is, m₁, ns₃, ns₄, (lower_lift_eq_ok.1 hname).1, (lower_lift_eq_ok.1 hinfo).1, his,
    (lower_lift_eq_ok.1 hextend).1, (lower_lift_eq_ok.1 h).1⟩

theorem lowerMethod_of_found (hname : d.name = .ok info.name) (hfound : t.method? info.name = some info)
    (h : (t.lowerMethod d).run ns = .ok (m, ns')) :
    ∃ is m₁ ns₁ ns₂, (t.lowerSequence info.name info.returnType d.statements).run ns₁ = .ok (is, ns₂) ∧
      (emptyMethod info.name info).extend is = .ok m₁ ∧ m₁.finish = .ok m := by
  obtain ⟨name, found, is, m₁, ns₁, ns₂, hname', hfound', his, hextend, hfinish⟩ := lowerMethod_eq_ok h
  obtain rfl : info.name = name := Except.ok.inj (hname.symm.trans hname')
  obtain rfl : info = found := by
    rw [method, hfound] at hfound'
    exact Except.ok.inj hfound'
  exact ⟨is, m₁, ns₁, ns₂, his, hextend, hfinish⟩

/-- The code of a method whose statements return is closed. -/
theorem ReturnsIn.closed (hd : t.ReturnsIn info d) (h : (t.lowerMethod d).run ns = .ok (m, ns')) : m.Closed := by
  obtain ⟨is, m₁, ns₁, ns₂, his, hextend, hfinish⟩ := lowerMethod_of_found hd.name hd.found h
  obtain ⟨hextended, hcode₁⟩ := (isFor_emptyMethod info).extend hextend
  obtain ⟨hfinished, hcode₂⟩ := hextended.finish hfinish
  have htype : m.returnType = info.returnType := hfinished.returnType
  have hempty : (emptyMethod info.name info).HasLabels [] := ⟨rfl, List.nodup_nil, by simp [emptyMethod]⟩
  have hwaiting : (emptyMethod info.name info).Waiting := by simp [CodeMethod.Waiting, emptyMethod]
  have hfrom : From ns₁.nextLabel (t.lowerSequence info.name info.returnType d.statements)
      (EndsCode (Node.anyCompletes d.statements) ns₁.nextLabel) :=
    from_ends_lowerSequence (fun n _ k => from_ends_lowerStatement n k) _
  have hends := hfrom ns₁ rfl
  rw [his] at hends
  have hreturning : Returning info.returnType is :=
    yields_returning_lowerSequence (fun n hn => yields_returning (hd.returns n hn)) _ _ _ his
  refine ⟨(CodeMethod.labelsSound_of_finish hends.1 hempty rfl hextend hfinish).1, fun hne => ?_,
    fun e type hmem => htype ▸ hreturning e type ?_⟩
  · have hcontains := (CodeMethod.contains_of_extend hwaiting hextend
      fun hwaiting => CodeMethod.becomes_of_finish hwaiting hfinish).2
    exact hends.2 (hd.completes (htype ▸ hne)) m 0 hcontains
  · -- the only instruction that does not come from the statements has no effect
    exact (hcode₁ _ ((hcode₂ _ hmem).resolve_right (by simp))).resolve_left (by simp [emptyMethod])

end SymbolTable

/-- The code of every method of a program that no check objects to is closed, if no method gives what is not known
and, where constants are folded, they are not taken for objects of the class. -/
theorem Node.Accepted.closed {root tree : Node} {table : SymbolTable} {config : Config} {p : CodeProgram}
    (h : root.Accepted table) (hany : ∀ m ∈ table.methods, m.returnType ≠ .any)
    (hclass : config.optimize = true → table.className ≠ "any")
    (htree : (Compile.prepare config table root).events.1 = .ok tree) (hp : table.generate tree = .ok p) :
    ∀ m ∈ p.methods, m.Closed := by
  have hregular := h.regular
  have hbasic : config.optimize = true → ¬table.classType.IsBasic := by
    rintro hoptimize (hname | hname | hname)
    · have hreference := hregular.classType
      rw [show table.classType = .int from Ty.eq_mk hname rfl] at hreference
      cases hreference
    · have hreference := hregular.classType
      rw [show table.classType = .boolean from Ty.eq_mk hname rfl] at hreference
      cases hreference
    · exact hclass hoptimize hname
  have hmethods : root.HasMethods fun d => ∃ info, table.ReturnsIn info d := by
    refine ⟨h.hasMethods.kind, fun c hc hkind d hd hmethod => ?_⟩
    obtain ⟨-, info, hdeclares⟩ := h.hasMethods.every c hc hkind d hd hmethod
    exact ⟨info, hdeclares.returnsIn hregular (hany info (List.mem_of_find?_eq_some hdeclares.found))⟩
  have hprepared : tree.HasMethods fun d => ∃ info, table.ReturnsIn info d := by
    refine hmethods.prepare_rewrites (fun d ⟨info, hd⟩ => ⟨_, hd.name?⟩) ?_ htree
    rintro folds d name cs hfolds hname ⟨info, hd⟩ hcs
    obtain rfl : info.name = name := Option.some.inj (Except.ok.inj (hd.name?.symm.trans hname))
    exact ⟨info, hd.withChildren (fun h => hbasic (hfolds h)) hcs⟩
  intro m hm
  obtain ⟨d, -, ⟨info, hd⟩, ns, ns', hlowered⟩ := SymbolTable.exists_lowered hprepared hp hm
  exact hd.closed hlowered

end JmmCompiler

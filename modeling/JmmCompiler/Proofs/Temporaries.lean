import JmmCompiler.Proofs.Assigned
import JmmCompiler.Proofs.Makers
import JmmCompiler.Proofs.OptimizedProgram
import JmmCompiler.Source.Reader
/-! Temporaries of a program. Each is produced for one expression, has a name of its own, and is assigned before it is
read. -/
namespace JmmCompiler

namespace Names
variable {ns ns' ns'' : Names} {x : String}

/-- The search for the number of the next temporary ends: it passes numbers of reserved names only, at most as many as
there are reserved names. -/
theorem freeTemp_least (ns : Names) :
    ns.nextTemp ≤ ns.freeTemp ∧ ns.freeTemp ≤ ns.nextTemp + ns.reserved.length ∧
      ns.tempName ns.freeTemp ∉ ns.reserved ∧
      ∀ i, ns.nextTemp ≤ i → i < ns.freeTemp → ns.tempName i ∈ ns.reserved := by
  obtain ⟨hle, hfree⟩ := ns.freeTemp_spec
  have hpassed : ∀ i, ns.nextTemp ≤ i → i < ns.freeTemp → ns.tempName i ∈ ns.reserved := by
    intro i hi hlt
    unfold freeTemp at hlt
    rw [List.find?_map] at hlt
    cases hfind : (List.range (ns.reserved.length + 1)).find?
        ((fun i => !ns.reserved.contains (ns.tempName i)) ∘ (ns.nextTemp + ·)) with
    | none =>
      rw [hfind] at hlt
      exact absurd hlt (Nat.not_lt.2 hi)
    | some k =>
      rw [hfind] at hlt
      obtain ⟨j, rfl⟩ := Nat.exists_eq_add_of_le hi
      have hj : j < k := Nat.lt_of_add_lt_add_left hlt
      simpa using (List.find?_range_eq_some.1 hfind).2.2 j hj
  refine ⟨hle, ?_, hfree, hpassed⟩
  -- the numbers that are passed have different names, all of them reserved
  have hsub : (List.range' ns.nextTemp (ns.freeTemp - ns.nextTemp)).map ns.tempName ⊆ ns.reserved := by
    intro x hx
    obtain ⟨i, hi, rfl⟩ := List.mem_map.1 hx
    have hi := List.mem_range'_1.1 hi
    exact hpassed i hi.1 (by omega)
  have hnodup : ((List.range' ns.nextTemp (ns.freeTemp - ns.nextTemp)).map ns.tempName).Nodup :=
    List.Nodup.map (fun _ _ h => tempName_injective h) (List.nodup_range' 1)
  have hlength := (List.subperm_of_subset hnodup hsub).length_le
  rw [List.length_map, List.length_range'] at hlength
  omega

/-- Names later on in a program, when more of them may be reserved. -/
structure Onward (ns ns' : Names) : Prop where
  stem : ns'.stem = ns.stem
  reserved : ns.reserved ⊆ ns'.reserved
  nextTemp : ns.nextTemp ≤ ns'.nextTemp

theorem Onward.refl (ns : Names) : ns.Onward ns := ⟨rfl, List.Subset.refl _, Nat.le_refl _⟩

theorem Onward.trans (h : ns.Onward ns') (h' : ns'.Onward ns'') : ns.Onward ns'' :=
  ⟨h'.stem.trans h.stem, List.Subset.trans h.reserved h'.reserved, Nat.le_trans h.nextTemp h'.nextTemp⟩

theorem Later.onward (h : ns.Later ns') : ns.Onward ns' := ⟨h.stem, by rw [h.reserved]; exact List.Subset.refl _, h.nextTemp⟩

theorem onward_reserve (ns : Names) (names : List String) : ns.Onward (ns.reserve names) :=
  ⟨rfl, List.subset_append_left _ _, Nat.le_refl _⟩

theorem Onward.fresh (h : ns.Onward ns') (hx : ns'.Fresh x) : ns.Fresh x := by
  obtain ⟨i, hi, rfl, hreserved⟩ := hx
  exact ⟨i, Nat.le_trans h.nextTemp hi, by simp only [tempName, h.stem], fun hmem => hreserved (h.reserved hmem)⟩

end Names

/-! ## Methods -/

namespace SymbolTable
variable {t : SymbolTable} {d : Node} {m : CodeMethod} {ns ns' : Names} {path path' : Path} {x x' : String}

/-- For each instruction of a method the path of the node that it is made for. -/
def methodMakers (t : SymbolTable) (d : Node) : List Path :=
  match d.name with
  | .ok name => t.codeMakersAll name 0 d.children
  | .error _ => []

/-- An expression of a method was given a temporary: an instruction that is made for it assigns a variable. -/
def Produces (t : SymbolTable) (d : Node) (m : CodeMethod) (path : Path) (x : String) : Prop :=
  d.HasExpression path ∧ ∃ type value, (path, Instruction.assign (.var x type) value) ∈ (t.methodMakers d).zip m.code

/-- The instructions of a method stand beside the nodes that they are made for. -/
theorem made_of_lowerMethod (h : (t.lowerMethod d).run ns = .ok (m, ns')) :
    ∃ name info is, d.name = .ok name ∧ t.method name = .ok info ∧
      (m.code = placed is ∨ m.code = placed is ++ [.nop]) ∧
      Made t name d .univ (ns.reserve ((info.params ++ info.locals).map (·.name))) (t.methodMakers d) is ns' := by
  obtain ⟨name, info, is, hname, hinfo, his, hcode, -⟩ := lowerMethod_code h
  refine ⟨name, info, is, hname, hinfo, hcode, ?_⟩
  have hskips (c : Node) (hkind : c.kind.isStatement = false) : t.codeMakers name c = [] := by
    obtain ⟨kind, attributes, children, p⟩ := c
    unfold codeMakers
    cases kind <;> first | rfl | cases hkind
  have hmakers : t.methodMakers d = t.codeMakersAll name 0 d.children := by rw [methodMakers, hname]
  rw [hmakers]
  exact (leaves_made_lowerSequence hskips (fun c _ => makesCode info.returnType c) (List.drop_zero ..) _ _ _ his).mono
    (Set.subset_univ _)

/-- A method with the declaration that it is made for: what its expressions are given are temporaries. -/
structure GivesTemporaries (t : SymbolTable) (d : Node) (info : MethodInfo) (ns : Names) (m : CodeMethod) (ns' : Names) :
    Prop where
  onward : ns.Onward ns'
  /-- Every instruction is made for a node, but for one without effect at the end. -/
  made : ∀ k i, m.code[k]? = some i →
    (∃ path e, (t.methodMakers d)[k]? = some path ∧ d.at? path = some e ∧
      (e.kind.isExpression = true ∨ e.kind.isStatement = true)) ∨ i = .nop ∧ k = (t.methodMakers d).length
  /-- What is assigned for a statement is a variable of the method. -/
  declared : ∀ path x type value, (path, .assign (.var x type) value) ∈ (t.methodMakers d).zip m.code →
    ¬d.HasExpression path → x ∈ (info.params ++ info.locals).map (·.name)
  /-- What is assigned for an expression was fresh, and is no variable of the method. -/
  fresh : ∀ path x, t.Produces d m path x →
    ns.Fresh x ∧ ¬ns'.Fresh x ∧ x ∉ (info.params ++ info.locals).map (·.name)
  unique : ∀ path x path' x', t.Produces d m path x → t.Produces d m path' x' → (x = x' ↔ path = path')

theorem method?_of_method {name : String} {info : MethodInfo} (h : t.method name = .ok info) :
    t.method? info.name = some info ∧ info.name = name := by
  unfold SymbolTable.method at h
  split at h
  · rename_i hfound
    obtain rfl := Except.ok.inj h
    have hname := List.find?_some hfound
    rw [decide_eq_true_eq] at hname
    exact ⟨by rw [hname]; exact hfound, hname⟩
  · cases h

theorem exists_givesTemporaries (h : (t.lowerMethod d).run ns = .ok (m, ns')) :
    ∃ name info, d.name = .ok name ∧ t.method name = .ok info ∧ t.GivesTemporaries d info ns m ns' := by
  obtain ⟨name, info, is, hname, hinfo, hcode, hmade⟩ := made_of_lowerMethod h
  have hstart := ns.onward_reserve ((info.params ++ info.locals).map (·.name))
  have hassigns {path : Path} {x : String} {type : Ty} {value : Instruction}
      (hmem : (path, Instruction.assign (.var x type) value) ∈ (t.methodMakers d).zip m.code) :
      AssignsAt (t.methodMakers d) is path x := by
    refine ⟨type, value, ?_⟩
    rcases hcode with hcode | hcode
    · rwa [hcode] at hmem
    · rwa [hcode, ← List.append_nil (t.methodMakers d), List.zip_append hmade.length, List.zip_nil_left,
        List.append_nil] at hmem
  refine ⟨name, info, hname, hinfo, hstart.trans hmade.later.onward, fun k i hi => ?_, ?_, ?_, ?_⟩
  · by_cases hk : k < (t.methodMakers d).length
    · obtain ⟨e, he, hkind⟩ := hmade.nodes _ (List.getElem_mem hk)
      exact .inl ⟨_, e, List.getElem?_eq_getElem hk, he, hkind⟩
    · rw [hmade.length] at hk
      rcases hcode with hcode | hcode
      · rw [hcode, List.getElem?_eq_none (by omega)] at hi
        cases hi
      · rw [hcode, List.getElem?_append_right (by omega)] at hi
        have hlast : k - (placed is).length = 0 := by
          have := (List.getElem?_eq_some_iff.1 hi).1
          simp only [List.length_singleton] at this
          omega
        rw [hlast] at hi
        exact .inr ⟨(Option.some.inj hi).symm, by rw [hmade.length]; omega⟩
  · intro path x type value hmem hpath
    rcases hmade.assigns path x (hassigns hmem) with ⟨-, -, -, hbinding⟩ | ⟨hexpression, -⟩
    · obtain ⟨v, hv⟩ := Option.isSome_iff_exists.1 hbinding
      obtain ⟨hfound, rfl⟩ := method?_of_method hinfo
      obtain ⟨hvariable, rfl⟩ := Node.Accepted.mem_of_binding hfound hv
      exact List.mem_map_of_mem hvariable
    · exact absurd hexpression hpath
  · rintro path x ⟨hpath, type, value, hmem⟩
    obtain ⟨-, hfresh, hspent⟩ := hmade.fresh (hassigns hmem) hpath
    refine ⟨hstart.fresh hfresh, hspent, fun hvariable => ?_⟩
    exact Names.not_fresh_of_reserved (List.mem_append_right _ hvariable) hfresh
  · rintro path x path' x' ⟨hpath, _, _, hmem⟩ ⟨hpath', _, _, hmem'⟩
    exact hmade.unique path x path' x' (hassigns hmem) (hassigns hmem') hpath hpath'

/-! ## Programs -/

/-- The names that methods are lowered with, one after the other. -/
theorem exists_states {ds : List Node} {ms : List CodeMethod} (h : (ds.mapM t.lowerMethod).run ns = .ok (ms, ns')) :
    ds.length = ms.length ∧ ∃ states : Nat → Names, states 0 = ns ∧
      ∀ j d m, ds[j]? = some d → ms[j]? = some m → (t.lowerMethod d).run (states j) = .ok (m, states (j + 1)) := by
  induction ds generalizing ms ns ns' with
  | nil =>
    rw [List.mapM_nil] at h
    obtain ⟨rfl, -⟩ := lower_pure_eq_ok.1 h
    exact ⟨rfl, fun _ => ns, rfl, by simp⟩
  | cons d ds ih =>
    rw [List.mapM_cons] at h
    obtain ⟨m, ns₁, hm, hrest⟩ := lower_bind_eq_ok.1 h
    obtain ⟨ms', ns₂, hms, hlast⟩ := lower_bind_eq_ok.1 hrest
    obtain ⟨rfl, -⟩ := lower_pure_eq_ok.1 hlast
    obtain ⟨hlength, states, hstart, hstates⟩ := ih hms
    refine ⟨by simp [hlength], fun j => j.casesOn ns states, rfl, fun j d' m' hd hm' => ?_⟩
    cases j with
    | zero =>
      obtain rfl : d = d' := Option.some.inj hd
      obtain rfl : m = m' := Option.some.inj hm'
      change (t.lowerMethod d).run ns = .ok (m, states 0)
      rw [hstart, hm]
    | succ j => exact hstates j d' m' hd hm'

/-- The names that the methods of a program are lowered with. -/
theorem exists_states_of_generate {root : Node} {p : CodeProgram} (h : t.generate root = .ok p) :
    ∃ (c : Node) (states : Nat → Names), root.classDecl = .ok c ∧ (c.childrenOf [.methodDecl]).length = p.methods.length ∧
      states 0 = ({} : Names).reserve (t.fields.map (·.name)) ∧
      ∀ j d m, (c.childrenOf [.methodDecl])[j]? = some d → p.methods[j]? = some m →
        (t.lowerMethod d).run (states j) = .ok (m, states (j + 1)) := by
  simp only [generate, bind_eq_ok, pure_eq_ok] at h
  obtain ⟨⟨p', ns'⟩, hrun, rfl⟩ := h
  obtain ⟨c, ns₁, hasked, hrun⟩ := lower_bind_eq_ok.1 hrun
  obtain ⟨hc, rfl⟩ := lower_lift_eq_ok.1 hasked
  obtain ⟨_, ns₂, hreserve, hrun⟩ := lower_bind_eq_ok.1 hrun
  obtain rfl : ({} : Names).reserve (t.fields.map (·.name)) = ns₂ := (Prod.mk.inj (Except.ok.inj hreserve)).2
  obtain ⟨ms, ns₃, hms, hlast⟩ := lower_bind_eq_ok.1 hrun
  obtain ⟨rfl, rfl⟩ := lower_pure_eq_ok.1 hlast
  obtain ⟨hlength, states, hstart, hstates⟩ := exists_states hms
  exact ⟨c, states, hc, hlength, hstart, hstates⟩

/-- Names only go on while methods are lowered. -/
theorem onward_states {ds : List Node} {ms : List CodeMethod} {states : Nat → Names} (hlength : ds.length = ms.length)
    (hstates : ∀ j d m, ds[j]? = some d → ms[j]? = some m → (t.lowerMethod d).run (states j) = .ok (m, states (j + 1)))
    {j k : Nat} (hjk : j ≤ k) (hk : k ≤ ds.length) : (states j).Onward (states k) := by
  induction k, hjk using Nat.le_induction with
  | base => exact .refl _
  | succ k hjk ih =>
    have hd := List.getElem?_eq_getElem (l := ds) (show k < ds.length by omega)
    have hm := List.getElem?_eq_getElem (l := ms) (show k < ms.length by omega)
    obtain ⟨_, _, -, -, hgives⟩ := exists_givesTemporaries (hstates k _ _ hd hm)
    exact (ih (by omega)).trans hgives.onward

/-- An expression was given a temporary in the method with some number. -/
def ProducesIn (t : SymbolTable) (decls : List Node) (methods : List CodeMethod) (j : Nat) (path : Path) (x : String) :
    Prop :=
  ∃ d m, decls[j]? = some d ∧ methods[j]? = some m ∧ t.Produces d m path x

/-- The temporaries of a method: they are named as such, and they are neither fields nor variables of the method. What
stands in the code of the method is made for its nodes, and what it assigns is declared unless it is a temporary. Where
the method begins nothing is live but what the source can name, and no path leads from there to a temporary that is read
before it is assigned. -/
structure KeepsTemporaries (t : SymbolTable) (d : Node) (info : MethodInfo) (m : CodeMethod) : Prop where
  made : ∀ k i, m.code[k]? = some i →
    (∃ path e, (t.methodMakers d)[k]? = some path ∧ d.at? path = some e ∧
      (e.kind.isExpression = true ∨ e.kind.isStatement = true)) ∨ i = .nop ∧ k = (t.methodMakers d).length
  declared : ∀ path x type value, (path, .assign (.var x type) value) ∈ (t.methodMakers d).zip m.code →
    t.Produces d m path x ∨ x ∈ (info.params ++ info.locals).map (·.name)
  named : ∀ path x, t.Produces d m path x → ∃ i : Nat, x = "tmp" ++ toString i
  apart : ∀ path x, t.Produces d m path x →
    x ∉ t.fields.map (·.name) ∧ x ∉ (info.params ++ info.locals).map (·.name)
  assigned : ∃ l, m.liveness = .ok l ∧
    (∀ x ∈ l.before 0, x = "this" ∨ x ∈ (info.params ++ info.locals).map (·.name) ∨ t.isImported x = true) ∧
    ∀ path x, t.Produces d m path x → x ∉ l.before 0 ∧ ∀ route, ¬m.UsePath x (0 :: route)

theorem isImported_tempName {i : Nat} (himports : "tmp" ++ toString i ∉ t.importNames) :
    t.isImported ("tmp" ++ toString i) = false := by
  have hdot : '.' ∉ ("tmp" ++ toString i).toList := by
    rw [String.toList_append, List.mem_append, not_or]
    refine ⟨by decide, fun hmem => ?_⟩
    have hmem : '.' ∈ Nat.toDigits 10 i := by simpa using hmem
    exact absurd (Nat.isDigit_of_mem_toDigits (by decide) (by decide) hmem) (by decide)
  rwa [← Bool.not_eq_true, isImported_iff hdot]

theorem name_of_lowerMethod {name : String} (h : (t.lowerMethod d).run ns = .ok (m, ns')) (hname : d.name = .ok name) :
    m.name = name := by
  obtain ⟨name', info, is, m₁, _, _, hname', hinfo, -, hextend, hfinish⟩ := lowerMethod_eq_ok h
  obtain rfl : name = name' := Except.ok.inj (hname.symm.trans hname')
  obtain ⟨-, rfl⟩ := method?_of_method hinfo
  exact ((CodeMethod.IsFor.extend (isFor_emptyMethod info) hextend).1.finish hfinish).1.name

theorem exists_liveness_of_lowerMethod (h : (t.lowerMethod d).run ns = .ok (m, ns')) (hlabels : m.LabelsSound) :
    ∃ l, m.liveness = .ok l := by
  obtain ⟨_, _, _, _, _, _, -, -, -, -, hfinish⟩ := lowerMethod_eq_ok h
  refine CodeMethod.exists_liveness (fun k i hi => ?_) fun i hi label hlabel => ?_
  · obtain ⟨ds, us, hds, hus, -⟩ := CodeMethod.mentions_of_finish hfinish hi
    exact ⟨ds, us, hds, hus⟩
  · obtain ⟨pc, -, hpc⟩ := hlabels.jumps i hi label hlabel
    exact ⟨pc, hpc⟩

theorem GivesTemporaries.keeps {name : String} {info : MethodInfo} (h : t.GivesTemporaries d info ns m ns')
    (hrun : (t.lowerMethod d).run ns = .ok (m, ns')) (hlabels : m.LabelsSound) (hname : d.name = .ok name)
    (hinfo : t.method name = .ok info) (hstem : ns.stem = "tmp") (hfields : t.fields.map (·.name) ⊆ ns.reserved)
    (himports : ∀ i : Nat, "tmp" ++ toString i ∉ t.importNames) : t.KeepsTemporaries d info m where
  made := h.made
  declared path x type value hmem := by
    by_cases hpath : d.HasExpression path
    · exact .inl ⟨hpath, type, value, hmem⟩
    · exact .inr (h.declared path x type value hmem hpath)
  named path x hx := by
    obtain ⟨⟨i, -, heq, -⟩, -⟩ := h.fresh path x hx
    exact ⟨i, by rw [heq, Names.tempName, hstem]⟩
  apart path x hx := by
    obtain ⟨hfresh, -, hvariable⟩ := h.fresh path x hx
    exact ⟨fun hfield => Names.not_fresh_of_reserved (hfields hfield) hfresh, hvariable⟩
  assigned := by
    obtain ⟨l, hl⟩ := exists_liveness_of_lowerMethod hrun hlabels
    have hbegins : ∀ x ∈ l.before 0,
        x = "this" ∨ x ∈ (info.params ++ info.locals).map (·.name) ∨ t.isImported x = true := by
      intro x hx
      obtain ⟨name', hname', hnamed⟩ := notMem_unnamed_of_mem_before hrun hl hx
      obtain rfl : name = name' := Except.ok.inj (hname.symm.trans hname')
      by_contra hnone
      simp only [not_or, Bool.not_eq_true] at hnone
      refine hnamed ⟨hnone.1, ?_, hnone.2.2⟩
      by_contra hbinding
      obtain ⟨v, hv⟩ := Option.ne_none_iff_exists'.1 hbinding
      obtain ⟨hfound, rfl⟩ := method?_of_method hinfo
      obtain ⟨hmem, rfl⟩ := Node.Accepted.mem_of_binding hfound hv
      exact hnone.2.1 (List.mem_map_of_mem hmem)
    refine ⟨l, hl, hbegins, fun path x hx => ?_⟩
    obtain ⟨hfresh, -, hvariable⟩ := h.fresh path x hx
    have hdead : x ∉ l.before 0 := by
      intro hlive
      rcases hbegins x hlive with rfl | hmem | himported
      · exact Names.not_fresh_this hstem hfresh
      · exact hvariable hmem
      · obtain ⟨i, -, rfl, -⟩ := hfresh
        rw [Names.tempName, hstem, isImported_tempName (himports i)] at himported
        cases himported
    exact ⟨hdead, fun route hroute => hdead ((CodeMethod.mem_before_iff_usePath hl).2 ⟨route, hroute⟩)⟩

/-- Temporaries are fresh and assigned before they are read. In a program whose methods have different names and whose
imports are not called like temporaries, each temporary is produced for one expression of one method, and each expression
is given one temporary at most; it is no field and no variable of its method, and it is not live where the method begins.
Whatever names are reserved, the search for a new temporary ends. -/
theorem temporaries_fresh {root : Node} {p : CodeProgram} (hbuild : build root = .ok t)
    (hgenerate : t.generate root = .ok p) (hdistinct : (t.methods.map (·.name)).Nodup)
    (himports : ∀ i : Nat, "tmp" ++ toString i ∉ t.importNames) :
    ∃ c, root.classDecl = .ok c ∧
      List.Forall₂ (fun d m => ∃ info, MethodInfo.ofNode d = .ok info ∧ m.name = info.name ∧ t.KeepsTemporaries d info m)
        (c.childrenOf [.methodDecl]) p.methods ∧
      (∀ j path x j' path' x', t.ProducesIn (c.childrenOf [.methodDecl]) p.methods j path x →
        t.ProducesIn (c.childrenOf [.methodDecl]) p.methods j' path' x' → (x = x' ↔ j = j' ∧ path = path')) ∧
      ∀ names : Names, names.nextTemp ≤ names.freeTemp ∧ names.freeTemp ≤ names.nextTemp + names.reserved.length ∧
        names.tempName names.freeTemp ∉ names.reserved ∧
        ∀ i, names.nextTemp ≤ i → i < names.freeTemp → names.tempName i ∈ names.reserved := by
  obtain ⟨k, hlabels⟩ := (t.labels_generate root).2 p hgenerate
  obtain ⟨c, states, hc, hlength, hstart, hstates⟩ := exists_states_of_generate hgenerate
  have honward {j k : Nat} (hjk : j ≤ k) (hk : k ≤ (c.childrenOf [.methodDecl]).length) :=
    onward_states hlength hstates hjk hk
  obtain ⟨-, hmethods⟩ := members_of_build hbuild hc
  refine ⟨c, hc, ?_, ?_, Names.freeTemp_least⟩
  · refine List.forall₂_iff_get.2 ⟨hlength, fun j hj hj' => ?_⟩
    have hd := List.getElem?_eq_getElem hj
    have hm := List.getElem?_eq_getElem hj'
    have hlowered := hstates j _ _ hd hm
    obtain ⟨name, info, hname, hinfo, hgives⟩ := exists_givesTemporaries hlowered
    have hfrom := honward (Nat.zero_le j) (Nat.le_of_lt hj)
    rw [hstart] at hfrom
    obtain ⟨info', hinfo', hmade⟩ := getElem?_of_mapM hmethods hd
    obtain ⟨hfound, rfl⟩ := method?_of_method hinfo
    obtain rfl : info' = info :=
      List.inj_on_of_nodup_map hdistinct (List.mem_of_getElem? hinfo') (List.mem_of_find?_eq_some hfound)
        (Except.ok.inj ((MethodInfo.madeFrom hmade).name.symm.trans hname))
    refine ⟨info', hmade, ?_, ?_⟩
    · exact name_of_lowerMethod hlowered hname
    · exact hgives.keeps hlowered (hlabels.sound _ (List.getElem_mem hj')) hname hinfo hfrom.stem hfrom.reserved himports
  · -- of two methods, the later one starts with names that the earlier one has used up
    have hearlier {j j' : Nat} {path path' : Path} {x x' : String} (hlt : j < j')
        (hx : t.ProducesIn (c.childrenOf [.methodDecl]) p.methods j path x)
        (hx' : t.ProducesIn (c.childrenOf [.methodDecl]) p.methods j' path' x') : x ≠ x' := by
      obtain ⟨d, m, hd, hm, hproduces⟩ := hx
      obtain ⟨d', m', hd', hm', hproduces'⟩ := hx'
      obtain ⟨_, _, -, -, hgives⟩ := exists_givesTemporaries (hstates j d m hd hm)
      obtain ⟨_, _, -, -, hgives'⟩ := exists_givesTemporaries (hstates j' d' m' hd' hm')
      have hfrom := honward hlt (Nat.le_of_lt (List.getElem?_eq_some_iff.1 hd').1)
      rintro rfl
      exact (hgives.fresh path x hproduces).2.1 (hfrom.fresh (hgives'.fresh path' x hproduces').1)
    intro j path x j' path' x' hx hx'
    rcases Nat.lt_trichotomy j j' with hlt | rfl | hlt
    · exact ⟨fun heq => absurd heq (hearlier hlt hx hx'), fun heq => absurd heq.1 (Nat.ne_of_lt hlt)⟩
    · obtain ⟨d, m, hd, hm, hproduces⟩ := hx
      obtain ⟨d', m', hd', hm', hproduces'⟩ := hx'
      obtain rfl := Option.some.inj (hd.symm.trans hd')
      obtain rfl := Option.some.inj (hm.symm.trans hm')
      obtain ⟨_, _, -, -, hgives⟩ := exists_givesTemporaries (hstates j d m hd hm)
      simpa using hgives.unique path x path' x' hproduces hproduces'
    · exact ⟨fun heq => absurd heq.symm (hearlier hlt hx' hx), fun heq => absurd heq.1.symm (Nat.ne_of_lt hlt)⟩

/-- A field and a parameter that are called like temporaries, and a conjunction in the condition of a loop. -/
theorem temporaries_fresh_conjunction :
    ∃ root t p c, Node.parse ("import io.Out;class A\x7bint tmp0;int f(int tmp1,boolean b)\x7bint[] a;a=[tmp0,tmp1];" ++
        "while(b&&a[0]<tmp1)tmp1=this.g(tmp0);return tmp1;\x7dint g(int n)\x7breturn n*n+1;\x7d\x7d") = .ok root ∧
      build root = .ok t ∧ t.generate root = .ok p ∧ (t.methods.map (·.name)).Nodup ∧
      (∀ i : Nat, "tmp" ++ toString i ∉ t.importNames) ∧ p.methods.length = 2 ∧ root.classDecl = .ok c ∧
      List.Forall₂ (fun d m => ∃ info, MethodInfo.ofNode d = .ok info ∧ m.name = info.name ∧ t.KeepsTemporaries d info m)
        (c.childrenOf [.methodDecl]) p.methods := by
  have hcomputed : ((Node.parse ("import io.Out;class A\x7bint tmp0;int f(int tmp1,boolean b)\x7bint[] a;a=[tmp0,tmp1];" ++
        "while(b&&a[0]<tmp1)tmp1=this.g(tmp0);return tmp1;\x7dint g(int n)\x7breturn n*n+1;\x7d\x7d")).toOption.bind fun root =>
      (build root).toOption.bind fun t => (t.generate root).toOption.map fun p =>
        (t.methods.map (·.name), t.importNames, p.methods.length)) = some (["f", "g"], ["Out"], 2) := by decide +kernel
  obtain ⟨root, hroot, hcomputed⟩ := Option.bind_eq_some_iff.1 hcomputed
  obtain ⟨t, ht, hcomputed⟩ := Option.bind_eq_some_iff.1 hcomputed
  obtain ⟨p, hp, hfacts⟩ := exists_of_toOption hcomputed
  obtain ⟨hmethods, himported, hlength⟩ : t.methods.map (·.name) = ["f", "g"] ∧ t.importNames = ["Out"] ∧
      p.methods.length = 2 := by simpa using hfacts
  have hbuild := eq_ok_of_toOption ht
  have hdistinct : (t.methods.map (·.name)).Nodup := by simp [hmethods]
  have himports : ∀ i : Nat, "tmp" ++ toString i ∉ t.importNames := by
    intro i hmem
    rw [himported, List.mem_singleton] at hmem
    have hchars := congrArg String.toList hmem
    simp at hchars
  obtain ⟨c, hc, hkeeps, -⟩ := temporaries_fresh hbuild hp hdistinct himports
  exact ⟨root, t, p, c, eq_ok_of_toOption hroot, hbuild, hp, hdistinct, himports, hlength, hc, hkeeps⟩

end SymbolTable
end JmmCompiler

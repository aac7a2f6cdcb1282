import Mathlib
import JmmCompiler.Proofs.CompiledProgram
import JmmCompiler.Proofs.LinkedCalls
import JmmCompiler.Proofs.SlotCounts
import JmmCompiler.Proofs.StaticCode
import JmmCompiler.Proofs.Temporaries
/-! Static methods have no object. No instruction of theirs mentions `this` or accesses a field, and the first slot, in which
other methods have their object, is that of a variable of the method or of a temporary. -/
namespace JmmCompiler

/-! ## Trees -/

section
variable {s : Context} {e n : Node} {type returnType : Ty} {name : String}

theorem Context.Names.apart (hs : s.isStatic = true) (h : s.Names name) :
    (s.table.binding? (some s.method) name).isSome = true ∨ s.table.field? name = none := by
  rcases h with (hbound | ⟨-, hobject⟩) | ⟨-, himport⟩
  · exact .inl hbound
  · simp [hs] at hobject
  · exact .inr himport.2.1

/-- No expression that is accepted in a static method is `this` or names a field. -/
theorem Typed.apartFromThis (hs : s.isStatic = true) (h : Typed s e type) :
    e.Everywhere (s.table.ApartFromThis s.method) := by
  induction e using Node.induction_children generalizing type with
  | step e ih =>
    refine .intro ⟨?this, ?place, ?target⟩ fun c hc _ => ?below
    case this =>
      cases h with
      | thisRef hobject p => simp [hs] at hobject
      | _ => simp
    case place =>
      intro hplace name hname
      cases h with
      | varRef hnames p => exact Except.ok.inj hname ▸ hnames.apart hs
      | intLiteral i p => cases hname
      | boolLiteral b p => cases hname
      | _ => rcases hplace with hplace | hplace | hplace <;> cases hplace
    case target =>
      intro hkind
      cases h <;> cases hkind
    case below =>
      rcases h.of_mem_children hc with ⟨t, ht⟩ | ⟨name, p, rfl, himport⟩
      · exact ih c hc ht
      · refine .intro ⟨by simp, fun _ name' hname => ?_, by simp⟩ (by simp)
        exact .inr (Except.ok.inj hname ▸ himport.2.1)

/-- No part of a statement that fits into a static method is `this` or names a field. -/
theorem Fits.apartFromThis (hs : s.isStatic = true) (h : Fits s returnType n) :
    n.Everywhere (s.table.ApartFromThis s.method) := by
  induction n using Node.induction_children with
  | step n ih =>
    refine .intro ⟨?this, ?place, ?target⟩ fun c hc _ => ?below
    case this => cases h <;> simp
    case place =>
      intro hplace
      rcases hplace with hplace | hplace | hplace <;> cases h <;> cases hplace
    case target =>
      intro hkind c hc
      cases h with
      | assign hname hvalue p q =>
        obtain rfl := Option.some.inj hc
        exact .inl rfl
      | _ => cases hkind
    case below =>
      rcases h.of_mem_children hc with hfits | ⟨t, ht⟩
      · exact ih c hc hfits
      · exact ht.apartFromThis hs

end

namespace Node.Rewrites
variable {folds : Prop} {t : SymbolTable} {rewritten : Option String} {method : String} {n n' : Node}

theorem apartFromThis_node (c : Constant) (p : Position) : (c.node p).Everywhere (t.ApartFromThis method) := by
  cases c with
  | int i => exact .intro ⟨nofun, fun _ _ hname => (nomatch hname), nofun⟩ nofun
  | bool b => exact .intro ⟨nofun, fun _ _ hname => (nomatch hname), nofun⟩ nofun

/-- What stands for a place stays one. -/
theorem isPlace (h : Rewrites folds t rewritten n n') (hn : IsPlace n.kind) : IsPlace n'.kind := by
  rcases h.kind_eq with heq | ⟨-, hlit⟩
  · rwa [heq]
  · exact .inr hlit

/-- The stages before lowering bring neither `this` nor fields into a tree. -/
theorem everywhere_apartFromThis (h : Rewrites folds t rewritten n n') (hkind : n.kind ≠ .methodDecl)
    (hn : n.Everywhere (t.ApartFromThis method)) : n'.Everywhere (t.ApartFromThis method) := by
  induction h with
  | refl n => exact hn
  | trans h h' ih ih' =>
    refine ih' ?_ (ih hkind hn)
    rcases h.kind_eq with heq | ⟨-, hlit⟩
    · rwa [heq]
    · rcases hlit with hlit | hlit <;> simp [hlit]
  | @child kind attributes before after p c c' h ih =>
    refine .intro ⟨hn.here.this, hn.here.place, fun hassign d hd => ?_⟩ fun d hd hnested => ?_
    · cases before with
      | nil =>
        obtain rfl := Option.some.inj hd
        exact h.isPlace (hn.here.target hassign c rfl)
      | cons first before => exact hn.here.target hassign d hd
    · simp only [List.mem_append, List.mem_cons] at hd
      rcases hd with hd | rfl | hd
      · exact hn.child (by simp [hd]) hnested
      · have hc : c.kind ≠ .methodDecl := by
          rcases h.kind_eq with heq | ⟨heval, -⟩
          · rwa [← heq]
          · rcases heval with heval | heval | heval | heval <;> simp [heval]
        exact ih hc (hn.child (by simp) hc)
      · exact hn.child (by simp [hd]) hnested
  | constant hfolds h c p => exact apartFromThis_node c p
  | gathered hname hm hown args' hargs =>
    refine .intro ⟨by simp, fun hplace => ?_, by simp⟩ fun d hd hnested => ?_
    · rcases hplace with hplace | hplace | hplace <;> cases hplace
    · rcases List.mem_cons.1 hd with rfl | hd
      · exact hn.child (by simp) hnested
      · rcases hargs d hd with hd | ⟨hliteral, helements⟩
        · exact hn.child (by simp [hd]) hnested
        · refine .intro ⟨by simp [hliteral], fun hplace => ?_, by simp [hliteral]⟩ fun e he hnested => ?_
          · rcases hplace with hplace | hplace | hplace <;> simp [hliteral] at hplace
          · exact hn.child (by simp [helements e he]) hnested
  | trimmed attributes condition body rest p =>
    refine .intro ⟨by simp, fun hplace => ?_, by simp⟩ fun d hd hnested => ?_
    · rcases hplace with hplace | hplace | hplace <;> cases hplace
    · exact hn.child (by
        simp only [List.mem_cons, List.not_mem_nil, or_false] at hd
        rcases hd with rfl | rfl <;> simp) hnested
  | nested h h' => exact absurd h hkind

end Node.Rewrites

/-! ## Declarations -/

namespace SymbolTable
variable {t : SymbolTable} {info : MethodInfo} {d : Node} {folds : Prop}

/-- A declaration of a method whose statements, if it is static, are apart from `this`. -/
structure StandsApart (t : SymbolTable) (info : MethodInfo) (d : Node) : Prop where
  name : d.name = .ok info.name
  name? : d.name? = .ok (some info.name)
  found : t.method? info.name = some info
  statements : info.isStatic = true → ∀ n ∈ d.statements, n.Everywhere (t.ApartFromThis info.name)

theorem Declares.standsApart (h : t.Declares d info) : t.StandsApart info d where
  name := h.name
  name? := h.within.method
  found := h.found
  statements hstatic _ hn := Fits.apartFromThis (s := t.context info) hstatic (h.fits hn)

theorem StandsApart.withChildren (h : t.StandsApart info d) {cs : List Node}
    (hcs : List.Forall₂ (Node.Rewrites folds t (some info.name)) d.children cs) : t.StandsApart info (d.withChildren cs) := by
  refine ⟨h.name, h.name?, h.found, fun hstatic n' hn' => ?_⟩
  have hstatements : List.Forall₂ (Node.Rewrites folds t (some info.name)) d.statements (d.withChildren cs).statements :=
    Node.Rewrites.forall₂_statements hcs
  obtain ⟨n, hn, hrewrites⟩ := exists_of_mem_forall₂ hstatements hn'
  have hkind : n.kind ≠ .methodDecl := by
    intro hkind
    have hstatement := (List.mem_filter.1 hn).2
    rw [hkind] at hstatement
    cases hstatement
  exact hrewrites.everywhere_apartFromThis hkind (h.statements hstatic n hn)

/-! ## Code -/

variable {m : CodeMethod} {ns ns' : Names} {root tree : Node} {p : CodeProgram} {x : String}

/-- Every method is lowered when the fields are reserved and the names of temporaries are those at the start or later. -/
theorem exists_lowered_onward {Q : Node → Prop} (htree : tree.HasMethods Q) (h : t.generate tree = .ok p) (hm : m ∈ p.methods) :
    ∃ d, Q d ∧ ∃ ns ns', (({} : Names).reserve (t.fields.map (·.name))).Onward ns ∧
      (t.lowerMethod d).run ns = .ok (m, ns') := by
  obtain ⟨c, states, hc, hlength, hstart, hstates⟩ := exists_states_of_generate h
  obtain ⟨j, hj, rfl⟩ := List.getElem_of_mem hm
  have hdecl : j < (c.childrenOf [.methodDecl]).length := hlength ▸ hj
  have hd := List.getElem?_eq_getElem hdecl
  obtain ⟨-, hQ⟩ := htree.of_classDecl hc (List.getElem_mem hdecl)
  refine ⟨_, hQ, _, _, ?_, hstates j _ _ hd (List.getElem?_eq_getElem hj)⟩
  rw [← hstart]
  exact onward_states hlength hstates (Nat.zero_le j) (Nat.le_of_lt hdecl)

/-- The names that the code of a method can mention when no object is at hand: variables of the method, temporaries, and
names of imports. -/
def StaticNames (t : SymbolTable) (info : MethodInfo) (ns : Names) : Set String := fun x =>
  (t.binding? (some info.name) x).isSome = true ∨ (ns.reserve ((info.params ++ info.locals).map (·.name))).Fresh x ∨
    t.isImported x = true

/-- The code of a static method mentions such names only, and accesses no field. -/
theorem StandsApart.keepsTo (hd : t.StandsApart info d) (hstatic : info.isStatic = true)
    (h : (t.lowerMethod d).run ns = .ok (m, ns')) : ∀ i ∈ m.code, i.KeepsTo (t.StaticNames info ns) := by
  obtain ⟨name, found, is, hname, hfound, his, hcode, -⟩ := lowerMethod_code h
  obtain rfl : info.name = name := Except.ok.inj (hd.name.symm.trans hname)
  obtain rfl : info = found := by
    rw [SymbolTable.method, hd.found] at hfound
    exact Except.ok.inj hfound
  have hcovers : t.Covers info.name (t.StaticNames info ns) := ⟨fun _ hx => .inl hx, fun _ hx => .inr (.inr hx)⟩
  have hkeeps : KeepTo (t.StaticNames info ns) is := by
    refine (yieldsIn_lowerSequence (fun n hn => ?_) _ (fun y hy => .inr (.inl hy)) _ _ his).1
    exact yieldsIn_lowerStatement hcovers _ (hd.statements hstatic n hn)
  have hfilter : ∀ i ∈ is.filter (!CodeMethod.isLabel ·), i.KeepsTo (t.StaticNames info ns) := fun i hi =>
    hkeeps i (List.mem_filter.1 hi).1
  rcases hcode with hcode | hcode
  · rwa [hcode]
  · rw [hcode]
    refine List.forall_mem_append.2 ⟨hfilter, List.forall_mem_singleton.2 (.of_other rfl rfl (by simp [Instruction.mentioned]))⟩

/-- The name of a temporary: it is neither that of a field nor that of a variable of the method. -/
structure IsTemporary (t : SymbolTable) (info : MethodInfo) (x : String) : Prop where
  named : ∃ i : Nat, x = "tmp" ++ toString i
  notField : x ∉ t.fields.map (·.name)
  notVariable : x ∉ (info.params ++ info.locals).map (·.name)

theorem isTemporary_of_fresh (h : (({} : Names).reserve (t.fields.map (·.name))).Onward ns)
    (hx : (ns.reserve ((info.params ++ info.locals).map (·.name))).Fresh x) : t.IsTemporary info x := by
  obtain ⟨i, -, rfl, hreserved⟩ := hx
  have hstem : ns.stem = "tmp" := h.stem
  refine ⟨⟨i, by simp only [Names.tempName]; rw [show (ns.reserve _).stem = ns.stem from rfl, hstem]⟩, fun hfield => ?_,
    fun hvariable => ?_⟩
  · exact hreserved (List.mem_append_left _ (h.reserved hfield))
  · exact hreserved (List.mem_append_right _ hvariable)

end SymbolTable

/-! ## Slots -/

namespace CodeMethod
variable {m m₀ : CodeMethod} {l : Liveness} {x : String} {n : Int}

theorem find?_foldl_insert_of_notMem {s : Slots} {params : List Symbol} (h : x ∉ params.map (·.name)) :
    (params.foldl (fun slots p => slots.insert p.name slots.size) s : Slots).find? x = s.find? x := by
  induction params generalizing s with
  | nil => rfl
  | cons p ps ih =>
    rw [List.map_cons, List.mem_cons, not_or] at h
    rw [List.foldl_cons, ih h.2, Assoc.find?_insert, if_neg (Ne.symm h.1)]

/-- Allocation leaves the slots of `this` and of the parameters. -/
theorem find?_allSlots_fixed (hnodup : (m.params.map (·.name)).Nodup) (hthis : "this" ∉ m.params.map (·.name))
    (hx : m.fixedSlots.find? x = some n) : (m.allSlots (m.interference l)).find? x = some n := by
  have hkey : x ∈ m.fixedSlots.keys := Assoc.mem_keys_iff.2 (by simp [hx])
  have huncolored : ((m.interference l).color m.reserved).find? x = none := by
    by_contra hcolored
    exact notMem_fixedNames_of_mem_nodes (InterferenceGraph.mem_nodes_of_color symmetric_interference hcolored)
      (mem_fixedNames_of_mem_keys hnodup hthis hkey)
  have hfold : (m.allSlots (m.interference l)).find? x = some n := by
    refine find?_foldl_addHighest ?_
    rw [find?_coloredSlots symmetric_interference, huncolored, hx]
    rfl
  exact hfold

/-- Of the parameters of a static method the first has the first slot. -/
theorem eq_first_of_slot_zero {s : Slots} (hstatic : m.isStatic = true) (hnodup : (m.params.map (·.name)).Nodup)
    (hthis : "this" ∉ m.params.map (·.name)) (hfixed : ∀ x n, m.fixedSlots.find? x = some n → s.find? x = some n)
    (hx : x ∈ m.params.map (·.name)) (hslot : s.find? x = some 0) : (m.params.head?.map (·.name)) = some x := by
  obtain ⟨hpacked, -, hdomain⟩ := fixedSlots_spec hnodup hthis
  obtain ⟨n, hn⟩ := Option.ne_none_iff_exists'.1 ((hdomain x).2 (.inr hx))
  obtain rfl : n = 0 := Option.some.inj ((hfixed x n hn).symm.trans hslot)
  cases hparams : m.params with
  | nil => simp [hparams] at hx
  | cons p ps =>
    have hnot : p.name ∉ ps.map (·.name) := by
      rw [hparams] at hnodup
      exact (List.nodup_cons.1 hnodup).1
    have hfirst : m.fixedSlots.find? p.name = some 0 := by
      have hfold := find?_foldl_insert_of_notMem (s := (Assoc.insert {} p.name 0 : Slots)) hnot
      rw [Assoc.find?_insert, if_pos rfl] at hfold
      simp only [fixedSlots, hparams, hstatic, if_true, List.foldl_cons]
      exact hfold
    exact congrArg some (hpacked.injective _ _ _ hfirst hn)

end CodeMethod

/-! ## Lines -/

namespace Jasmin.Scope
variable {s : Scope} {G : Set String} {lines : List Line}

/-- Where instructions access no field, a line names the slot of a variable that an instruction mentions. -/
theorem exists_mentioned_of_slot (h : ∀ i ∈ s.method.code, i.KeepsTo G) (hlines : s.bodyLines = .ok lines) {l : Line}
    (hl : l ∈ lines) {n : Int} (hn : l.slot? = some n) : ∃ i ∈ s.method.code, ∃ x ∈ i.mentioned, s.method.slot x = .ok n := by
  let P : Line → Prop := fun l => ∀ n, l.slot? = some n → ∃ i ∈ s.method.code, ∃ x ∈ i.mentioned, s.method.slot x = .ok n
  have hnone {l : Line} (hl : l.slot? = none) : P l := fun n hn => by simp [hl] at hn
  have hwrites : Emit.Writes P s.body := by
    refine writes_body (fun name => hnone rfl) (hnone rfl) fun i hi => ?_
    have hallows : s.Allows P {x | x ∈ i.mentioned} .univ := by
      have hslot {x : String} (hx : x ∈ i.mentioned) {n : Int} (hn : s.method.slot x = .ok n) {l : Line}
          (hl : l.slot? = some n) : P l := by
        intro n' hn'
        obtain rfl : n = n' := Option.some.inj (hl.symm.trans hn')
        exact ⟨i, hi, x, hx, hn⟩
      exact ⟨fun l hl _ _ => hnone hl, fun x hx n hn _ => hslot hx hn rfl, fun x hx n hn _ _ => hslot hx hn rfl,
        fun _ _ => hnone rfl, hnone rfl, hnone rfl⟩
    refine hallows.writes_instruction ⟨fun x hx => hx, fun _ _ => trivial⟩ (fun dest hdest x hx => ?_) (fun haccesses => ?_)
      fun _ _ _ _ _ => hnone rfl
    · cases i with
      | assign dest' value =>
        obtain rfl : dest' = dest := Option.some.inj hdest
        exact List.mem_append_left _ ((h _ hi).dest _ rfl x hx)
      | _ => cases hdest
    · simp [(h i hi).accesses] at haccesses
  obtain ⟨b, hbody, rfl⟩ := runOn_body_of_bodyLines hlines
  obtain ⟨added, hadded, hall⟩ := hwrites _ _ _ hbody
  rw [hadded, List.mem_append] at hl
  exact hall l (hl.resolve_left (by simp)) n hn

/-- The code and the lines of a static method. No instruction accesses a field or mentions `this`. Every line that names a
slot names that of a variable that an instruction mentions, and where that is the first slot, the variable is the first
parameter, a local variable or a temporary; or it is the name of an import that is taken for a variable. -/
structure HasNoObject (s : Scope) (t : SymbolTable) (info : MethodInfo) : Prop where
  accesses : ∀ i ∈ s.method.code, i.accessesField = false
  this : ∀ i ∈ s.method.code, "this" ∉ i.mentioned
  mentioned : ∀ lines, s.bodyLines = .ok lines → ∀ l ∈ lines, ∀ n, l.slot? = some n →
    ∃ i ∈ s.method.code, ∃ x ∈ i.mentioned, s.method.slot x = .ok n
  first : ∀ i ∈ s.method.code, ∀ x ∈ i.mentioned, s.method.slot x = .ok 0 →
    (info.params.head?.map (·.name)) = some x ∨ x ∈ info.locals.map (·.name) ∨ t.IsTemporary info x ∨
      x ∉ (info.params ++ info.locals).map (·.name) ∧ t.isImported x = true

end Jasmin.Scope

namespace Lowers

-- What is compared below are long tuples.
set_option synthInstance.maxSize 4000

variable {config : Config} {source : String} {root tree : Node} {table : SymbolTable} {code final : CodeProgram}
  {reports : List Report} {info : MethodInfo} {m : CodeMethod}

/-- A method of the code is made from one of the table, and if that is static, the code mentions what is at hand without an
object. -/
theorem exists_staticNames (h : Lowers config source root table tree code) (hm : m ∈ code.methods) :
    ∃ info, table.method? info.name = some info ∧ m.IsFor info ∧ (∃ m₀ : CodeMethod, m₀.finish = .ok m) ∧
      (info.isStatic = true → ∃ ns, (({} : Names).reserve (table.fields.map (·.name))).Onward ns ∧
        ∀ i ∈ m.code, i.KeepsTo (table.StaticNames info ns)) := by
  have haccepted := Node.accepted_of_analyze h.parsed h.analyzed
  have hmethods : root.HasMethods fun d => ∃ info, table.StandsApart info d := by
    refine ⟨haccepted.hasMethods.kind, fun c hc hkind d hd hmethod => ?_⟩
    obtain ⟨-, info, hdeclares⟩ := haccepted.hasMethods.every c hc hkind d hd hmethod
    exact ⟨info, hdeclares.standsApart⟩
  have hprepared : tree.HasMethods fun d => ∃ info, table.StandsApart info d := by
    refine hmethods.prepare_rewrites (fun d ⟨info, hd⟩ => ⟨_, hd.name?⟩) ?_ h.prepared
    rintro folds d name cs - hname ⟨info, hd⟩ hcs
    obtain rfl : info.name = name := Option.some.inj (Except.ok.inj (hd.name?.symm.trans hname))
    exact ⟨info, hd.withChildren hcs⟩
  obtain ⟨d, ⟨info, hd⟩, ns, ns', honward, hrun⟩ := SymbolTable.exists_lowered_onward hprepared h.generated hm
  obtain ⟨_, _, _, m₁, _, _, -, -, -, -, hfinish⟩ := SymbolTable.lowerMethod_eq_ok hrun
  exact ⟨info, hd.found, SymbolTable.isFor_of_lowerMethod hrun hd.name hd.found, ⟨m₁, hfinish⟩,
    fun hstatic => ⟨ns, honward, hd.keepsTo hstatic hrun⟩⟩

/-- The parameters of a method have different names, and none of them is `this`. -/
theorem params_distinct (h : Lowers config source root table tree code) (hfound : table.method? info.name = some info) :
    (info.params.map (·.name)).Nodup ∧ ∀ v ∈ info.params ++ info.locals, v.name ≠ "this" := by
  have haccepted := Node.accepted_of_analyze h.parsed h.analyzed
  obtain ⟨d, -, -, hdecl⟩ := haccepted.exists_member (List.mem_of_find?_eq_some hfound)
  have hdistinct := hdecl.distinct
  rw [List.map_append] at hdistinct
  exact ⟨hdistinct.of_append_left, fun v hv => haccepted.variable_ne_this (List.mem_of_find?_eq_some hfound) hv⟩

/-- Code that mentions what is at hand without an object has no object, with slots that leave the parameters theirs. -/
theorem hasNoObject (h : Lowers config source root table tree code) (hfound : table.method? info.name = some info)
    (hstatic : info.isStatic = true) {s : Jasmin.Scope} (hfor : s.method.IsFor info) {ns : Names}
    (honward : (({} : Names).reserve (table.fields.map (·.name))).Onward ns)
    (hkeeps : ∀ i ∈ s.method.code, i.KeepsTo (table.StaticNames info ns))
    (hfixed : ∀ x n, s.method.fixedSlots.find? x = some n → s.method.slots.find? x = some n) : s.HasNoObject table info := by
  have haccepted := Node.accepted_of_analyze h.parsed h.analyzed
  obtain ⟨hnodup, hthis⟩ := h.params_distinct hfound
  have hvariable {x : String} (hx : (table.binding? (some info.name) x).isSome = true) :
      x ∈ (info.params ++ info.locals).map (·.name) := by
    obtain ⟨v, hv⟩ := Option.isSome_iff_exists.1 hx
    obtain ⟨hmem, rfl⟩ := Node.Accepted.mem_of_binding hfound hv
    exact List.mem_map_of_mem hmem
  have hapart : "this" ∉ (info.params ++ info.locals).map (·.name) := fun hmem => by
    obtain ⟨v, hv, heq⟩ := List.mem_map.1 hmem
    exact hthis v hv heq
  refine ⟨fun i hi => (hkeeps i hi).accesses, fun i hi hmem => ?this, ?mentioned, fun i hi x hx hslot => ?first⟩
  case this =>
    rcases (hkeeps i hi).mentioned _ hmem with hbound | hfresh | himported
    · exact hapart (hvariable hbound)
    · exact Names.not_fresh_this (show (ns.reserve _).stem = "tmp" from honward.stem) hfresh
    · rw [haccepted.isImported_of_not_isName (fun hname => absurd hname.2 (by decide)) (by decide) (by decide)] at himported
      cases himported
  case mentioned => exact fun lines hlines l hl n hn => Jasmin.Scope.exists_mentioned_of_slot hkeeps hlines hl hn
  case first =>
    have hzero : s.method.slots.find? x = some 0 := by
      unfold CodeMethod.slot at hslot
      split at hslot
      · rename_i n hn
        rw [hn, Except.ok.inj hslot]
      · cases hslot
    by_cases hvar : x ∈ (info.params ++ info.locals).map (·.name)
    · rw [List.map_append, List.mem_append] at hvar hapart
      rcases hvar with hparam | hlocal
      · rw [← hfor.params] at hparam hnodup hapart ⊢
        exact .inl (CodeMethod.eq_first_of_slot_zero (hfor.isStatic.trans hstatic) hnodup (fun hmem => hapart (.inl hmem))
          hfixed hparam hzero)
      · exact .inr (.inl hlocal)
    · rcases (hkeeps i hi).mentioned x hx with hbound | hfresh | himported
      · exact absurd (hvariable hbound) hvar
      · exact .inr (.inr (.inl (SymbolTable.isTemporary_of_fresh honward hfresh)))
      · exact .inr (.inr (.inr ⟨hvar, himported⟩))

/-- Static methods never touch an object. In a program that no check objects to, with or without folded constants, no
instruction of a static method accesses a field or mentions `this`, and with or without allocated registers every use of the
first slot in its lines is one of its first parameter, of a local variable or of a temporary, unless the name of an import is
taken for a variable. -/
theorem static_has_no_object (h : Lowers config source root table tree code) :
    (∀ m ∈ code.methods, ∃ info, table.method? m.name = some info ∧ m.IsFor info ∧
      (info.isStatic = true → (Jasmin.Scope.mk code m).HasNoObject table info)) ∧
    ∀ final reports, (Compile.allocate config code).events.1 = .ok (final, reports) →
      ∀ m ∈ final.methods, ∃ info, table.method? m.name = some info ∧ m.IsFor info ∧
        (info.isStatic = true → (Jasmin.Scope.mk final m).HasNoObject table info) := by
  have hslots (p : CodeProgram) {m : CodeMethod} (hm : m ∈ code.methods) {slots : Slots}
      (hslots : slots = m.slots ∨ ∃ l, slots = m.allSlots (m.interference l)) :
      ∃ info, table.method? m.name = some info ∧ (m.withSlots slots).IsFor info ∧
        (info.isStatic = true → (Jasmin.Scope.mk p (m.withSlots slots)).HasNoObject table info) := by
    obtain ⟨info, hfound, hfor, ⟨m₁, hfinish⟩, hkeeps⟩ := h.exists_staticNames hm
    have hfor' : (m.withSlots slots).IsFor info := ⟨hfor.name, hfor.returnType, hfor.params, hfor.isStatic⟩
    refine ⟨info, hfor.name ▸ hfound, hfor', fun hstatic => ?_⟩
    obtain ⟨ns, honward, hkeeps⟩ := hkeeps hstatic
    refine h.hasNoObject hfound hstatic hfor' honward hkeeps fun x n hx => ?_
    rcases hslots with rfl | ⟨l, rfl⟩
    · exact CodeMethod.find?_fixed_of_finish hfinish hx
    · obtain ⟨hnodup, hthis⟩ := h.params_distinct hfound
      rw [← hfor.params] at hnodup hthis
      refine CodeMethod.find?_allSlots_fixed hnodup (fun hmem => ?_) hx
      obtain ⟨v, hv, heq⟩ := List.mem_map.1 hmem
      exact hthis v (List.mem_append_left _ hv) heq
  refine ⟨fun m hm => hslots code hm (.inl rfl), fun final reports hfinal m hm => ?_⟩
  obtain ⟨m₀, hm₀, rfl | ⟨g, hallocated⟩⟩ := exists_of_mem_forall₂ (Compile.forall₂_of_allocate hfinal).2 hm
  · exact hslots final hm₀ (.inl rfl)
  · simp only [CodeMethod.allocate, bind_eq_ok, pure_eq_ok, Prod.mk.injEq] at hallocated
    obtain ⟨l, -, rfl, -⟩ := hallocated
    exact hslots final hm₀ (.inr ⟨l, rfl⟩)

/-- Two static methods, the first slot of one of which is a parameter's and that of the other one a local variable's, and a
method with an object. -/
theorem static_has_no_object_shares :
    ∃ root table tree code final reports, Lowers ⟨true, 0, by decide⟩
        ("import Io;class A\x7bint a;static int f(int[] n,int k)\x7bint i;i=n[0]+1;while(i<k)i=i*2;return i;\x7d" ++
          "static void g()\x7bint t;t=1;Io.p(t);\x7dint h()\x7breturn a;\x7d\x7d") root table tree code ∧
      (Compile.allocate ⟨true, 0, by decide⟩ code).events.1 = .ok (final, reports) ∧
      final.methods.map (fun m => (m.isStatic, m.slots.entries)) =
        [(true, [("n", 0), ("k", 1), ("i", 2), ("tmp0", 2), ("tmp1", 2)]), (true, [("t", 0)]),
          (false, [("this", 0), ("tmp2", 1)])] ∧
      ∀ m ∈ final.methods, ∃ info, table.method? m.name = some info ∧ m.IsFor info ∧
        (info.isStatic = true → (Jasmin.Scope.mk final m).HasNoObject table info) := by
  obtain ⟨root, table, tree, code, h, hfacts⟩ := exists_lowers (show (lowered? ⟨true, 0, by decide⟩
      ("import Io;class A\x7bint a;static int f(int[] n,int k)\x7bint i;i=n[0]+1;while(i<k)i=i*2;return i;\x7d" ++
          "static void g()\x7bint t;t=1;Io.p(t);\x7dint h()\x7breturn a;\x7d\x7d")).map
      (fun r => (Compile.allocate ⟨true, 0, by decide⟩ r.2.2.2).events.1.toOption.map fun f =>
        f.1.methods.map fun m => (m.isStatic, m.slots.entries)) =
        some (some [(true, [("n", 0), ("k", 1), ("i", 2), ("tmp0", 2), ("tmp1", 2)]), (true, [("t", 0)]),
          (false, [("this", 0), ("tmp2", 1)])]) by decide +kernel)
  obtain ⟨⟨final, reports⟩, hfinal, hslots⟩ := exists_of_toOption hfacts
  exact ⟨root, table, tree, code, final, reports, h, hfinal, hslots, h.static_has_no_object.2 final reports hfinal⟩

/-- A static method without parameters and local variables that stores into what is imported. The first slot is loaded, and
only the name of the import, which no temporary has, is the name of a variable with that slot. -/
theorem import_takes_slot :
    ∃ root table tree code m, Lowers {} "import Io;class A\x7bstatic void f()\x7bIo[0]=1;\x7d\x7d" root table tree code ∧
      m ∈ code.methods ∧ m.isStatic = true ∧
      table.methods.map (fun info => (info.name, info.params, info.locals)) = [(m.name, [], [])] ∧
      table.isImported "Io" = true ∧ (∀ x, m.slot x = .ok 0 → x = "Io" ∧ ∀ i : Nat, x ≠ "tmp" ++ toString i) ∧
      (Jasmin.Scope.mk code m).bodyLines = .ok [.slot .aload 0, .const 0, .const 1, .plain .aastore, .plain .ret] := by
  obtain ⟨root, table, tree, code, h, hfacts⟩ := exists_lowers (show (lowered? {}
      "import Io;class A\x7bstatic void f()\x7bIo[0]=1;\x7d\x7d").map
      (fun r => (r.2.1.methods.map (fun info => (info.name, info.params, info.locals)), r.2.1.isImported "Io",
        r.2.2.2.methods.head?.map fun m => (m.name, m.isStatic, m.slots.entries, (Jasmin.Scope.mk r.2.2.2 m).bodyLines))) =
        some ([("f", [], [])], true, some ("f", true, [("Io", 0)],
          .ok [.slot .aload 0, .const 0, .const 1, .plain .aastore, .plain .ret])) by decide +kernel)
  simp only [Prod.mk.injEq] at hfacts
  obtain ⟨hmethods, himported, hhead⟩ := hfacts
  obtain ⟨m, hm, hfacts⟩ := Option.map_eq_some_iff.1 hhead
  simp only [Prod.mk.injEq] at hfacts
  obtain ⟨hname, hstatic, hslots, hlines⟩ := hfacts
  refine ⟨root, table, tree, code, m, h, List.mem_of_head? hm, hstatic, by rw [hmethods, hname], himported, ?_, hlines⟩
  intro x hx
  have hfind : m.slots.find? x = Assoc.findEntry x [("Io", 0)] := by rw [Assoc.find?, hslots]
  by_cases heq : "Io" = x
  · refine ⟨heq.symm, fun i htemp => ?_⟩
    have hchars := congrArg String.toList (heq.trans htemp)
    simp at hchars
  · simp [CodeMethod.slot, hfind, Assoc.findEntry, heq] at hx

end Lowers
end JmmCompiler

import JmmCompiler.Proofs.LivePaths
import JmmCompiler.Proofs.ReturnPaths
import Mathlib.Data.Set.Lattice
/-! What is read has been assigned. Lowered code is followed with the variables that have been assigned on the way:
whatever is neither a variable that the source can name nor an import is assigned before it is read, and so it is
not live where a method begins. -/
namespace JmmCompiler

/-- The variables that an instruction reads. -/
def Instruction.reads (i : Instruction) : Set String := {x | ∃ names, i.uses = .ok names ∧ x ∈ names}

/-- The variables that an instruction assigns. -/
def Instruction.assigns (i : Instruction) : Set String := {x | ∃ names, i.defs = .ok names ∧ x ∈ names}

/-- A place in the code of a method, with the variables that have been assigned on the way to it. -/
structure Arrival where
  pc : Nat
  assigned : Set String

namespace CodeMethod
variable (m : CodeMethod)

theorem mem_namesAt_iff {f : Instruction → Except Failure (List String)} {pc : Nat} {x : String} :
    x ∈ m.namesAt f pc ↔ ∃ i names, m.code[pc]? = some i ∧ f i = .ok names ∧ x ∈ names := by
  unfold namesAt
  cases m.code[pc]? with
  | none => simp
  | some i => cases hi : f i <;> simp [hi]

/-- A step of control, with what the instruction assigns. -/
def Goes (a b : Arrival) : Prop :=
  m.Edge a.pc b.pc ∧ b.assigned = a.assigned ∪ {x | x ∈ m.namesAt Instruction.defs a.pc}

/-- What is read of some variables has been assigned. -/
def ReadsHere (G : Set String) (a : Arrival) : Prop :=
  ∀ x ∈ m.namesAt Instruction.uses a.pc, x ∈ G → x ∈ a.assigned

/-- From an arrival on, what is read of some variables has been assigned, until control gets to a stop. -/
def ReadsAssigned (G : Set String) (stops : Arrival → Prop) (a : Arrival) : Prop :=
  ∃ inside : Arrival → Prop, (inside a ∨ stops a) ∧
    ∀ b, inside b → m.ReadsHere G b ∧ ∀ c, m.Goes b c → inside c ∨ stops c

variable {m} {G : Set String} {stops stops' : Arrival → Prop} {a : Arrival} {i : Instruction}

theorem ReadsAssigned.stop (h : stops a) : m.ReadsAssigned G stops a := ⟨fun _ => False, .inr h, by simp⟩

theorem ReadsAssigned.next (h : m.ReadsAssigned G stops a) :
    stops a ∨ m.ReadsHere G a ∧ ∀ b, m.Goes a b → m.ReadsAssigned G stops b := by
  obtain ⟨inside, ha | ha, hinside⟩ := h
  · exact .inr ⟨(hinside a ha).1, fun b hb => ⟨inside, (hinside a ha).2 b hb, hinside⟩⟩
  · exact .inl ha

/-- What is read has been assigned where that is so at once, and again after each step. -/
theorem ReadsAssigned.coinduct {P : Arrival → Prop} (ha : P a)
    (h : ∀ b, P b → stops b ∨ m.ReadsHere G b ∧ ∀ c, m.Goes b c → P c ∨ m.ReadsAssigned G stops c) :
    m.ReadsAssigned G stops a := by
  have hsplit {b : Arrival} (hb : P b ∨ m.ReadsAssigned G stops b) :
      (P b ∨ m.ReadsAssigned G stops b) ∧ ¬stops b ∨ stops b := by
    by_cases hstop : stops b
    · exact .inr hstop
    · exact .inl ⟨hb, hstop⟩
  refine ⟨fun b => (P b ∨ m.ReadsAssigned G stops b) ∧ ¬stops b, hsplit (.inl ha), ?_⟩
  rintro b ⟨hb | hb, hstop⟩
  · obtain ⟨hreads, hgoes⟩ := (h b hb).resolve_left hstop
    exact ⟨hreads, fun c hc => hsplit (hgoes c hc)⟩
  · obtain ⟨hreads, hgoes⟩ := hb.next.resolve_left hstop
    exact ⟨hreads, fun c hc => hsplit (.inr (hgoes c hc))⟩

/-- What is read has been assigned up to the stops, and from each of them on. -/
theorem ReadsAssigned.trans (h : m.ReadsAssigned G stops a)
    (h' : ∀ b, stops b → m.ReadsAssigned G stops' b) : m.ReadsAssigned G stops' a := by
  refine coinduct (P := fun b => m.ReadsAssigned G stops b ∨ m.ReadsAssigned G stops' b) (.inl h) fun b hb => ?_
  have hb' : m.ReadsAssigned G stops' b ∨ m.ReadsHere G b ∧ ∀ c, m.Goes b c → m.ReadsAssigned G stops c :=
    hb.elim (fun hb => hb.next.imp_left (h' b)) .inl
  rcases hb' with hb' | ⟨hreads, hgoes⟩
  · exact hb'.next.imp_right fun ⟨hreads, hgoes⟩ => ⟨hreads, fun c hc => .inr (hgoes c hc)⟩
  · exact .inr ⟨hreads, fun c hc => .inl (.inl (hgoes c hc))⟩

/-- A loop: from each of its heads control takes a step, and then comes back to a head or gets to a stop. -/
theorem ReadsAssigned.loop (heads : Arrival → Prop) (ha : heads a)
    (h : ∀ b, heads b → m.ReadsHere G b ∧
      ∀ c, m.Goes b c → m.ReadsAssigned G (fun d => heads d ∨ stops d) c) : m.ReadsAssigned G stops a := by
  refine coinduct (P := fun b => heads b ∨ m.ReadsAssigned G (fun d => heads d ∨ stops d) b) (.inl ha) fun b hb => ?_
  have hb' : stops b ∨ m.ReadsHere G b ∧ ∀ c, m.Goes b c → m.ReadsAssigned G (fun d => heads d ∨ stops d) c := by
    rcases hb with hb | hb
    · exact .inr (h b hb)
    · rcases hb.next with (hb | hb) | hb
      · exact .inr (h b hb)
      · exact .inl hb
      · exact .inr hb
  exact hb'.imp_right fun ⟨hreads, hgoes⟩ => ⟨hreads, fun c hc => .inl (.inr (hgoes c hc))⟩

theorem readsHere_of_reads (hi : m.code[a.pc]? = some i) (h : i.reads ∩ G ⊆ a.assigned) : m.ReadsHere G a :=
  fun x hx hG => h ⟨by simpa [mem_namesAt_iff, hi, Instruction.reads] using hx, hG⟩

/-- Where control goes from an instruction: on, or to the label that it jumps to. -/
theorem eq_of_goes {b : Arrival} (hi : m.code[a.pc]? = some i) (h : m.Goes a b) :
    ∃ pc, b = ⟨pc, a.assigned ∪ i.assigns⟩ ∧
      (i.continues = true ∧ pc = a.pc + 1 ∨ ∃ l, i.target? = some l ∧ m.labels.find? l = some pc) := by
  obtain ⟨pc, assigned⟩ := b
  obtain ⟨⟨j, hj, hedge⟩, hassigned⟩ := h
  obtain rfl := Option.some.inj (hi.symm.trans hj)
  have hassigns : {x | x ∈ m.namesAt Instruction.defs a.pc} = i.assigns := by
    ext x
    simp [mem_namesAt_iff, hi, Instruction.assigns]
  exact ⟨pc, by rw [← hassigns]; exact congrArg _ hassigned, hedge.symm⟩

theorem ReadsAssigned.step (hi : m.code[a.pc]? = some i) (hreads : i.reads ∩ G ⊆ a.assigned)
    (h : ∀ pc, (i.continues = true ∧ pc = a.pc + 1 ∨ ∃ l, i.target? = some l ∧ m.labels.find? l = some pc) →
      m.ReadsAssigned G stops ⟨pc, a.assigned ∪ i.assigns⟩) : m.ReadsAssigned G stops a := by
  refine coinduct (P := (· = a)) rfl ?_
  rintro b rfl
  refine .inr ⟨readsHere_of_reads hi hreads, fun c hc => .inr ?_⟩
  obtain ⟨pc, rfl, hpc⟩ := eq_of_goes hi hc
  exact h pc hpc

/-- A path to a use of a variable assigns it on the way. -/
theorem ReadsAssigned.mem_assigned_of_usePath {x : String} {path : List Nat} (h : m.ReadsAssigned G (fun _ => False) a)
    (hpath : m.UsePath x (a.pc :: path)) (hx : x ∈ G) : x ∈ a.assigned := by
  generalize hpcs : a.pc :: path = pcs at hpath
  induction hpath generalizing a path with
  | use huse =>
    obtain ⟨rfl, rfl⟩ := List.cons.inj hpcs
    exact (h.next.resolve_left id).1 x huse hx
  | @step pc pc' js path' hnext hmem hdef _ ih =>
    obtain ⟨rfl, rfl⟩ := List.cons.inj hpcs
    have hgoes : m.Goes a ⟨pc', a.assigned ∪ {x | x ∈ m.namesAt Instruction.defs a.pc}⟩ :=
      ⟨edge_of_mem_successors hnext hmem, rfl⟩
    exact (ih ((h.next.resolve_left id).2 _ hgoes) rfl).resolve_right hdef

end CodeMethod

/-! ## Operands -/

namespace Element
variable {e : Element}

/-- The variables that an element reads. -/
def reads (e : Element) : Set String := {x | ∃ names, e.names = .ok names ∧ x ∈ names}

/-- What has to be assigned, of some variables, before an element can be read or taken for an array. -/
def needs (G : Set String) (e : Element) : Set String := {x | x ∈ G ∧ e.name = .ok x}

/-- An element that is no array element reads the variable that it names. -/
theorem reads_inter_subset {G : Set String} (h : e.isItem = false) : e.reads ∩ G ⊆ e.needs G := by
  rintro x ⟨⟨names, hnames, hx⟩, hG⟩
  cases e with
  | var name type =>
    obtain rfl : [name] = names := Except.ok.inj hnames
    exact ⟨hG, by rw [List.mem_singleton.1 hx]; rfl⟩
  | literal value type =>
    obtain rfl : [] = names := Except.ok.inj hnames
    cases hx
  | classRef name type =>
    obtain rfl : [] = names := Except.ok.inj hnames
    cases hx
  | item array type index => cases h
  | absent => cases hnames

theorem reads_item {array : String} {type : Ty} {index : Element} :
    (item array type index).reads ⊆ {array} ∪ index.reads := by
  rintro x ⟨names, hnames, hx⟩
  simp only [Element.names, bind_eq_ok, pure_eq_ok] at hnames
  obtain ⟨more, hmore, rfl⟩ := hnames
  exact (List.mem_cons.1 hx).imp_right fun hx => ⟨more, hmore, hx⟩

end Element

namespace Instruction
variable {e l r dest : Element} {value : Instruction} {type : Ty} {op : String}

theorem reads_binary : (binary op l r type).reads ⊆ l.reads ∪ r.reads := by
  rintro x ⟨names, hnames, hx⟩
  simp only [uses, bind_eq_ok, pure_eq_ok] at hnames
  obtain ⟨left, hleft, right, hright, rfl⟩ := hnames
  exact (List.mem_append.1 hx).imp (fun hx => ⟨left, hleft, hx⟩) fun hx => ⟨right, hright, hx⟩

theorem reads_call {invocation : Invocation} {method : Option String} {args : List Element} :
    (call invocation e method args type).reads ⊆ e.reads ∪ {x | ∃ a ∈ args, x ∈ a.reads} := by
  rintro x ⟨names, hnames, hx⟩
  simp only [uses, bind_eq_ok, pure_eq_ok] at hnames
  obtain ⟨own, hown, more, hmore, rfl⟩ := hnames
  rcases List.mem_append.1 hx with hx | hx
  · refine .inl ⟨own, ?_, hx⟩
    cases e with
    | absent =>
      obtain rfl : [] = own := Except.ok.inj hown
      cases hx
    | _ => exact hown
  · obtain ⟨names, hnames, hx⟩ := List.mem_flatten.1 hx
    obtain ⟨a, ha, hnames⟩ := exists_of_mem_mapM hmore hnames
    exact .inr ⟨a, ha, names, hnames, hx⟩

theorem reads_assign (h : dest.isItem = false) : (assign dest value).reads ⊆ value.reads := by
  rintro x ⟨names, hnames, hx⟩
  simp only [uses, h, bind_eq_ok, pure_eq_ok, Bool.false_eq_true, if_false] at hnames
  obtain ⟨own, hown, rfl⟩ := hnames
  exact ⟨own, hown, hx⟩

theorem reads_store : (assign dest value).reads ⊆ dest.reads ∪ value.reads := by
  by_cases hitem : dest.isItem = true
  · rintro x ⟨names, hnames, hx⟩
    simp only [uses, hitem, bind_eq_ok, pure_eq_ok, if_true] at hnames
    obtain ⟨own, hown, more, hmore, rfl⟩ := hnames
    exact (List.mem_append.1 hx).imp (fun hx => ⟨more, hmore, hx⟩) fun hx => ⟨own, hown, hx⟩
  · exact (reads_assign (by simpa using hitem)).trans Set.subset_union_right

end Instruction

/-! ## Sequences -/

/-- Code that reads only what has been assigned, in whatever method it stands, if some variables have been assigned
before it. Where it ends it has assigned more. -/
def Prepares (G before after : Set String) (is : List Instruction) : Prop :=
  ∀ (m : CodeMethod) (pc : Nat) (assigned : Set String), m.Contains pc is → before ⊆ assigned →
    m.ReadsAssigned G (fun b => b.pc = pc + size is ∧ assigned ∪ after ⊆ b.assigned) ⟨pc, assigned⟩

namespace Prepares
variable {G R R' N N' : Set String} {is js : List Instruction} {i : Instruction}

theorem nil (h : N ⊆ R) : Prepares G R N [] := fun _ _ _ _ hassigned =>
  .stop ⟨rfl, Set.union_subset subset_rfl (h.trans hassigned)⟩

theorem mono (h : Prepares G R N is) (hR : R ⊆ R') (hN : N' ⊆ N) : Prepares G R' N' is :=
  fun m pc assigned hin hassigned => (h m pc assigned hin (hR.trans hassigned)).trans fun _ hb =>
    .stop ⟨hb.1, (Set.union_subset_union_right _ hN).trans hb.2⟩

theorem append (h : Prepares G R N is) (h' : Prepares G (R ∪ N) N' js) : Prepares G R (N ∪ N') (is ++ js) := by
  intro m pc assigned hin hassigned
  obtain ⟨hfirst, hsecond⟩ := CodeMethod.contains_append.1 hin
  refine (h m pc assigned hfirst hassigned).trans fun ⟨pc', more⟩ hb => ?_
  obtain ⟨rfl, hmore⟩ := hb
  have hready : R ∪ N ⊆ more := (Set.union_subset_union_left _ hassigned).trans hmore
  refine (h' m _ more hsecond hready).trans fun b hb => .stop ⟨?_, ?_⟩
  · rw [hb.1, size_append, Nat.add_assoc]
  · rw [← Set.union_assoc]
    exact (Set.union_subset_union_left _ hmore).trans hb.2

/-- An instruction that is no label and does not jump. -/
theorem single (hlabel : labelsOf [i] = []) (htarget : i.target? = none) (hreads : i.reads ∩ G ⊆ R)
    (hassigns : N ⊆ R ∪ i.assigns) : Prepares G R N [i] := by
  intro m pc assigned hin hassigned
  obtain ⟨hi, hsize⟩ : m.code[pc]? = some i ∧ size [i] = 1 := by
    cases i with
    | label l => cases hlabel
    | _ => exact ⟨hin.1, rfl⟩
  refine .step hi (hreads.trans hassigned) fun pc' hpc' => .stop ?_
  rw [hsize]
  rcases hpc' with ⟨-, rfl⟩ | ⟨l, hl, -⟩
  · exact ⟨rfl, Set.union_subset Set.subset_union_left (hassigns.trans (Set.union_subset_union_left _ hassigned))⟩
  · cases htarget.symm.trans hl

end Prepares

/-! ## Expressions -/

/-- The code of an expression reads only what has been assigned, and has assigned what its value reads. -/
structure Lowered.Supplies (G : Set String) (v : Lowered) : Prop where
  plain : v.code.isItem = false
  prepares : Prepares G ∅ (v.code.needs G) v.computation

theorem Lowered.Supplies.reads {G : Set String} {v : Lowered} (h : v.Supplies G) :
    v.code.reads ∩ G ⊆ v.code.needs G := Element.reads_inter_subset h.plain

namespace SymbolTable
variable {t : SymbolTable} {method : String} {expected : Option Ty} {G N : Set String} {before : List Instruction}
open Lower

/-- The variables of a method that the source has no name for, and that are no imported classes. -/
def unnamed (t : SymbolTable) (method : String) : Set String :=
  {x | x ≠ "this" ∧ t.binding? (some method) x = none ∧ t.isImported x = false}

theorem yields_supplies_intoTemp {type : Ty} {value : Instruction} (hbefore : Prepares G ∅ N before)
    (hreads : value.reads ∩ G ⊆ N) : Yields (intoTemp before type value) (Lowered.Supplies G) :=
  .last fun temp => .pure ⟨rfl, by
    have hassign : Prepares G (∅ ∪ N) ((Element.var temp type).needs G) [.assign (.var temp type) value] := by
      refine .single rfl rfl ?_ fun x hx => .inr ⟨[temp], rfl, ?_⟩
      · exact (Set.inter_subset_inter_left _ (Instruction.reads_assign rfl)).trans (hreads.trans Set.subset_union_right)
      · exact List.mem_singleton.2 (Except.ok.inj hx.2).symm
    exact (hbefore.append hassign).mono subset_rfl Set.subset_union_right⟩

/-- A value that is there without any code. -/
theorem supplies_of_notMem {code : Element} (hplain : code.isItem = false) (h : ∀ x, code.name = .ok x → x ∉ G) :
    Lowered.Supplies G ⟨code, []⟩ :=
  ⟨hplain, .nil fun x hx => absurd hx.1 (h x hx.2)⟩

theorem yields_supplies_lowerVariable (name : String) :
    Yields (t.lowerVariable method name) (Lowered.Supplies (t.unnamed method)) := by
  intro ns v ns' hrun
  cases leaves_reading name ns v ns' hrun with
  | @binding s hs =>
    refine supplies_of_notMem rfl fun x hx hG => ?_
    obtain rfl : name = x := Except.ok.inj hx
    exact Option.some_ne_none s (hs.symm.trans hG.2.1)
  | field hbinding hf hv =>
    refine (yields_supplies_intoTemp (.nil subset_rfl) ?_).of_run hv
    rintro x ⟨⟨names, hnames, hx⟩, -⟩
    obtain rfl : [] = names := Except.ok.inj hnames
    cases hx
  | imported hbinding hfield himported =>
    refine supplies_of_notMem rfl fun x hx hG => ?_
    obtain rfl : name = x := Except.ok.inj hx
    simp [hG.2.2] at himported

variable (t method) in
/-- What is known of a lowered expression. -/
def SuppliesValue (n : Node) : Prop :=
  ∀ expected, Yields (t.lower method expected n) (Lowered.Supplies (t.unnamed method))

theorem yields_prepares_lowerElements {array : String} {elements : List Node}
    (h : ∀ e ∈ elements, t.SuppliesValue method e) (harray : array ∈ t.unnamed method → array ∈ N) (element : Ty)
    (index : Nat) :
    Yields (t.lowerElements method array element index elements) (Prepares (t.unnamed method) N ∅) := by
  induction elements generalizing index with
  | nil => exact .pure (.nil (Set.empty_subset _))
  | cons e es ih =>
    obtain ⟨he, hes⟩ := List.forall_mem_cons.1 h
    rw [lowerElements]
    refine (he _).bind fun v hv => (ih hes _).bind fun rest hrest => .pure ?_
    have hstore : Prepares (t.unnamed method) (N ∪ v.code.needs (t.unnamed method)) ∅
        [.assign (.item array element (.literal index .int)) (.single v.code)] := by
      refine .single rfl rfl ?_ (Set.empty_subset _)
      rintro x ⟨hx, hG⟩
      rcases Instruction.reads_store hx with hx | hx
      · rcases Element.reads_item hx with hx | ⟨names, hnames, hx⟩
        · obtain rfl : x = array := hx
          exact .inl (harray hG)
        · obtain rfl : [] = names := Except.ok.inj hnames
          cases hx
      · exact .inr (hv.reads ⟨hx, hG⟩)
    have hvalue := hv.prepares.mono (Set.empty_subset N) subset_rfl
    exact ((hvalue.append hstore).append (hrest.mono Set.subset_union_left subset_rfl)).mono subset_rfl
      (Set.empty_subset _)

theorem yields_prepares_lowerArguments {args : List Node} (h : ∀ e ∈ args, t.SuppliesValue method e)
    (params : List Ty) :
    Yields (t.lowerArguments method params args) fun r =>
      Prepares (t.unnamed method) ∅ {x | ∃ a ∈ r.2, x ∈ a.needs (t.unnamed method)} r.1 ∧
        ∀ a ∈ r.2, a.isItem = false := by
  induction args generalizing params with
  | nil => exact .pure ⟨.nil (by simp), by simp⟩
  | cons e es ih =>
    obtain ⟨he, hes⟩ := List.forall_mem_cons.1 h
    rw [lowerArguments]
    refine (he _).bind fun v hv => (ih hes _).bind fun rest hrest => .pure ⟨?_, ?_⟩
    · refine (hv.prepares.append (hrest.1.mono (Set.empty_subset _) subset_rfl)).mono subset_rfl ?_
      rintro x ⟨a, ha, hx⟩
      rcases List.mem_cons.1 ha with rfl | ha
      · exact .inl hx
      · exact .inr ⟨a, ha, hx⟩
    · exact List.forall_mem_cons.2 ⟨hv.plain, hrest.2⟩

/-- The temporary of `&&` is assigned on both ways to the end of its code. -/
theorem prepares_and {left right : Lowered} (hleft : left.Supplies G) (hright : right.Supplies G) (temp number : String) :
    Prepares G ∅ {temp} (left.computation ++
      [.branch (.unary "!" left.code .boolean) ("and_false_" ++ number)] ++ right.computation ++
      [.assign (.var temp .boolean) (.single right.code), .goto ("and_end_" ++ number),
       .label ("and_false_" ++ number), .assign (.var temp .boolean) (.single (.literal 0 .boolean)),
       .label ("and_end_" ++ number)]) := by
  intro m pc assigned h _
  simp only [List.append_assoc, CodeMethod.contains_append] at h
  obtain ⟨hinLeft, hbranch, hinRight, hassign, hgoto, hotherwise, hzero, hdone, -⟩ := h
  have htemp {value : Instruction} : temp ∈ (Instruction.assign (.var temp .boolean) value).assigns :=
    ⟨[temp], rfl, List.mem_singleton_self temp⟩
  refine (hleft.prepares m pc assigned hinLeft (Set.empty_subset _)).trans fun ⟨pc₁, assigned₁⟩ h₁ => ?_
  obtain ⟨rfl, h₁⟩ := h₁
  have hstart : assigned ⊆ assigned₁ := Set.subset_union_left.trans h₁
  refine .step hbranch.1 (hleft.reads.trans (Set.subset_union_right.trans h₁)) fun pc₂ hpc₂ => ?_
  rcases hpc₂ with ⟨-, rfl⟩ | ⟨l, hl, hplace⟩
  · -- the left side holds, so that the right side is computed
    refine (hright.prepares m _ _ hinRight (Set.empty_subset _)).trans fun ⟨pc₃, assigned₃⟩ h₃ => ?_
    obtain ⟨rfl, h₃⟩ := h₃
    have hreads : (Instruction.assign (.var temp .boolean) (.single right.code)).reads ∩ G ⊆ assigned₃ :=
      (Set.inter_subset_inter_left _ (Instruction.reads_assign rfl)).trans
        (hright.reads.trans (Set.subset_union_right.trans h₃))
    refine .step hassign hreads fun pc₄ hpc₄ => ?_
    obtain ⟨-, rfl⟩ := hpc₄.resolve_right (by simp [Instruction.target?])
    refine .step hgoto (by rintro x ⟨⟨_, ⟨⟩, hx⟩, -⟩; cases hx) fun pc₅ hpc₅ => .stop ⟨?_, ?_⟩
    · obtain ⟨l, hl, hplace⟩ := hpc₅.resolve_left (by simp [Instruction.continues])
      obtain rfl := Option.some.inj hl
      obtain rfl := Option.some.inj (hplace.symm.trans hdone.1)
      simp only [size_append, size]
      omega
    · have hmore : assigned ⊆ assigned₃ :=
        hstart.trans (Set.subset_union_left.trans (Set.subset_union_left.trans h₃))
      exact Set.union_subset (hmore.trans (Set.subset_union_left.trans Set.subset_union_left))
        (Set.singleton_subset_iff.2 (.inl (.inr htemp)))
  · -- the left side does not hold, so that the value is zero
    obtain rfl := Option.some.inj hl
    obtain rfl := Option.some.inj (hplace.symm.trans hotherwise.1)
    refine .step hzero (by rintro x ⟨⟨_, ⟨⟩, hx⟩, -⟩; cases hx) fun pc₃ hpc₃ => .stop ⟨?_, ?_⟩
    · obtain ⟨-, rfl⟩ := hpc₃.resolve_right (by simp [Instruction.target?])
      simp only [size_append, size]
      omega
    · exact Set.union_subset (hstart.trans (Set.subset_union_left.trans Set.subset_union_left))
        (Set.singleton_subset_iff.2 (.inr htemp))

theorem yields_supplies_lengthOf {array : Lowered} (h : array.Supplies (t.unnamed method)) :
    Yields (lengthOf array) (Lowered.Supplies (t.unnamed method)) := by
  refine yields_supplies_intoTemp h.prepares ?_
  rintro x ⟨hx, hG⟩
  rcases Instruction.reads_call hx with hx | ⟨a, ha, -⟩
  · exact h.reads ⟨hx, hG⟩
  · cases ha

/-- The right operand is computed after the left one. -/
theorem prepares_operands {left right : Lowered} (hleft : left.Supplies G) (hright : right.Supplies G) :
    Prepares G ∅ (left.code.needs G ∪ right.code.needs G) (left.computation ++ right.computation) :=
  hleft.prepares.append (hright.prepares.mono (Set.empty_subset _) subset_rfl)

theorem reads_binary_subset {left right : Lowered} {op : String} {type : Ty} (hleft : left.Supplies G)
    (hright : right.Supplies G) :
    (Instruction.binary op left.code right.code type).reads ∩ G ⊆ left.code.needs G ∪ right.code.needs G := by
  rintro x ⟨hx, hG⟩
  exact (Instruction.reads_binary hx).imp (fun hx => hleft.reads ⟨hx, hG⟩) fun hx => hright.reads ⟨hx, hG⟩

/-- An element reads its array and its index. -/
theorem reads_item_subset {array index : Lowered} {name : String} {type : Ty} (hname : array.code.name = .ok name)
    (hindex : index.Supplies G) :
    (Element.item name type index.code).reads ∩ G ⊆ array.code.needs G ∪ index.code.needs G := by
  rintro x ⟨hx, hG⟩
  rcases Element.reads_item hx with hx | hx
  · exact .inl ⟨hG, by rw [hname, Set.mem_singleton_iff.1 hx]⟩
  · exact .inr (hindex.reads ⟨hx, hG⟩)

/-- An object is assigned before its constructor reads it. -/
theorem supplies_newObject (temp : String) (type : Ty) : Lowered.Supplies G ⟨.var temp type,
    [.assign (.var temp type) (.call .new (.classRef type.name type) none [] type),
      .call .special (.var temp type) (some "<init>") [] .void]⟩ := by
  refine ⟨rfl, ?_⟩
  have hnew : Prepares G ∅ {temp} [.assign (.var temp type) (.call .new (.classRef type.name type) none [] type)] :=
    .single rfl rfl (by rintro x ⟨⟨_, ⟨⟩, hx⟩, -⟩; cases hx) fun x hx => .inr ⟨[temp], rfl, List.mem_singleton.2 hx⟩
  have hinit : Prepares G (∅ ∪ {temp}) ∅ [.call .special (.var temp type) (some "<init>") [] .void] := by
    refine .single rfl rfl ?_ (Set.empty_subset _)
    rintro x ⟨⟨_, ⟨⟩, hx⟩, -⟩
    exact .inr (List.mem_singleton.1 hx)
  refine (hnew.append hinit).mono subset_rfl ?_
  rintro x ⟨-, hx⟩
  exact .inl (Except.ok.inj hx).symm

theorem yields_supplies_lowerNewArray (element : String) {size : Lowered} (h : size.Supplies G) :
    Yields (lowerNewArray element size) (Lowered.Supplies G) := by
  refine yields_supplies_intoTemp h.prepares ?_
  rintro x ⟨hx, hG⟩
  rcases Instruction.reads_call hx with ⟨names, ⟨⟩, -⟩ | ⟨a, ha, hx⟩
  exact h.reads ⟨List.mem_singleton.1 ha ▸ hx, hG⟩

/-- The target of a call: a class reads nothing. -/
theorem Targeting.prepares {own : Bool} {name : String} {receiver : Node} {invocation : Invocation} {target : Lowered}
    {ns ns' : Names} (h : t.Targeting method own name receiver ns invocation target ns')
    (hreceiver : t.SuppliesValue method receiver) :
    Prepares (t.unnamed method) ∅ (target.code.reads ∩ t.unnamed method) target.computation := by
  have hclass (className : String) (type : Ty) : Prepares (t.unnamed method) ∅
      ((Element.classRef className type).reads ∩ t.unnamed method) [] := by
    refine .nil ?_
    rintro x ⟨⟨_, ⟨⟩, hx⟩, -⟩
    cases hx
  cases h with
  | object hother hisClass hobject =>
    have hobject := (hreceiver none).of_run hobject
    exact hobject.prepares.mono subset_rfl hobject.reads
  | _ => exact hclass _ _

/-- A call behind what computes its operands. -/
theorem Calling.supplies {call : Instruction} {type : Ty} {v : Lowered} {ns ns' : Names}
    (h : Calling before call type ns v ns') (hbefore : Prepares G ∅ N before) (hlabel : labelsOf [call] = [])
    (htarget : call.target? = none) (hreads : call.reads ∩ G ⊆ N) : v.Supplies G := by
  cases h with
  | discarded hvoid =>
    have hcall : Prepares G (∅ ∪ N) ∅ [call] :=
      .single hlabel htarget (hreads.trans Set.subset_union_right) (Set.empty_subset _)
    exact ⟨rfl, (hbefore.append hcall).mono subset_rfl (by rintro x ⟨-, ⟨⟩⟩)⟩
  | kept hvoid hvalue => exact (yields_supplies_intoTemp hbefore hreads).of_run hvalue

/-- The code of an expression reads only what has been assigned. -/
theorem yields_supplies (n : Node) : t.SuppliesValue method n := by
  induction n using Node.induction_children with
  | step n ih =>
    intro expected ns v ns' hrun
    cases leaves_lowering expected n ns v ns' hrun with
    | intLiteral hkind hvalue hi => exact supplies_of_notMem rfl fun x hx => by cases hx
    | boolLiteral hkind hvalue => exact supplies_of_notMem rfl fun x hx => by cases hx
    | thisRef hkind => exact supplies_of_notMem rfl fun x hx hG => hG.1 (Except.ok.inj hx).symm
    | varRef hkind hname hv => exact (yields_supplies_lowerVariable _).of_run hv
    | paren hkind hchildren hv => exact (ih _ (by simp [hchildren]) expected).of_run hv
    | and hkind hop hchildren hlabel hl hr htemp =>
      have hl := (ih _ (by simp [hchildren]) _).of_run hl
      have hr := (ih _ (by simp [hchildren]) _).of_run hr
      refine ⟨rfl, (prepares_and hl hr _ _).mono subset_rfl ?_⟩
      rintro x ⟨-, hx⟩
      exact (Except.ok.inj hx).symm
    | binary hkind hop hand ho hchildren hl hr hv =>
      have hl := (ih _ (by simp [hchildren]) _).of_run hl
      have hr := (ih _ (by simp [hchildren]) _).of_run hr
      exact (yields_supplies_intoTemp (prepares_operands hl hr) (reads_binary_subset hl hr)).of_run hv
    | unary hkind hop hchildren hu hv =>
      have hu := (ih _ (by simp [hchildren]) _).of_run hu
      refine (yields_supplies_intoTemp hu.prepares ?_).of_run hv
      exact hu.reads
    | newObject hkind hname htemp => exact supplies_newObject _ _
    | newArray hkind hname hchildren hu hv =>
      exact (yields_supplies_lowerNewArray _ ((ih _ (by simp [hchildren]) _).of_run hu)).of_run hv
    | @arrayLiteral _ array name _ _ _ hkind htype harray hname hstores =>
      have hsize : Lowered.Supplies (t.unnamed method) ⟨.literal n.children.length .int, []⟩ :=
        supplies_of_notMem rfl fun x hx => by cases hx
      have harray := (yields_supplies_lowerNewArray _ hsize).of_run harray
      have hassigned (hG : name ∈ t.unnamed method) : name ∈ ∅ ∪ array.code.needs (t.unnamed method) :=
        .inr ⟨hG, hname⟩
      have hstores := (yields_prepares_lowerElements ih hassigned _ _).of_run hstores
      exact ⟨harray.plain, (harray.prepares.append hstores).mono subset_rfl Set.subset_union_left⟩
    | arrayAccess hkind hchildren ha hi htype hname hv =>
      have ha := (ih _ (by simp [hchildren]) _).of_run ha
      have hi := (ih _ (by simp [hchildren]) _).of_run hi
      refine (yields_supplies_intoTemp (prepares_operands ha hi) ?_).of_run hv
      exact reads_item_subset hname hi
    | length hkind hchildren ha hv =>
      exact (yields_supplies_lengthOf ((ih _ (by simp [hchildren]) _).of_run ha)).of_run hv
    | lengthCall hkind hname hchildren hown htype harray ha hv =>
      exact (yields_supplies_lengthOf ((ih _ (by simp [hchildren]) _).of_run ha)).of_run hv
    | call hkind hname hname? hchildren hown hlength htarget hsignature hargs hv =>
      have htarget := htarget.prepares (ih _ (by simp [hchildren]))
      obtain ⟨hbefore, hplain⟩ := (yields_prepares_lowerArguments (fun e he => ih e (by simp [hchildren, he])) _).of_run hargs
      refine hv.supplies (htarget.append (hbefore.mono (Set.empty_subset _) subset_rfl)) rfl rfl ?_
      rintro x ⟨hx, hG⟩
      rcases Instruction.reads_call hx with hx | ⟨a, ha, hx⟩
      · exact .inl ⟨hx, hG⟩
      · exact .inr ⟨a, ha, Element.reads_inter_subset (hplain a ha) ⟨hx, hG⟩⟩

/-! ## Statements -/

/-- The code of a statement reads only what it has assigned itself. -/
def SuppliesCode (G : Set String) (is : List Instruction) : Prop := Prepares G ∅ ∅ is

theorem SuppliesCode.append {is js : List Instruction} (h : SuppliesCode G is) (h' : SuppliesCode G js) :
    SuppliesCode G (is ++ js) :=
  (Prepares.append h (h'.mono (Set.empty_subset _) subset_rfl)).mono subset_rfl (Set.empty_subset _)

/-- An instruction behind the code of what it reads. -/
theorem suppliesCode_of_single {i : Instruction} (hbefore : Prepares G ∅ N before) (hlabel : labelsOf [i] = [])
    (htarget : i.target? = none) (hreads : i.reads ∩ G ⊆ N) : SuppliesCode G (before ++ [i]) :=
  (hbefore.append (.single hlabel htarget (hreads.trans Set.subset_union_right) (Set.empty_subset _))).mono subset_rfl
    (Set.empty_subset _)

theorem yields_suppliesCode_lowerStore (array index value : Node) :
    Yields (t.lowerStore method array index value) (SuppliesCode (t.unnamed method)) := by
  intro ns is ns' hrun
  cases leaves_storing array index value ns is ns' hrun with
  | intro ha hi htype hv hname =>
    have hi := (yields_supplies index _).of_run hi
    have hv := (yields_supplies value _).of_run hv
    have hoperands := prepares_operands ((yields_supplies array _).of_run ha) hi
    refine suppliesCode_of_single (hoperands.append (hv.prepares.mono (Set.empty_subset _) subset_rfl)) rfl rfl ?_
    rintro x ⟨hx, hG⟩
    exact (Instruction.reads_store hx).imp (fun hx => reads_item_subset hname hi ⟨hx, hG⟩) fun hx => hv.reads ⟨hx, hG⟩

/-- An update of a variable reads that variable alone. -/
theorem reads_selfUpdate {name : String} {type : Ty} {value : Node} {update : Instruction}
    (h : selfUpdate? name type value = .ok (some update)) : update.reads ⊆ {name} := by
  obtain ⟨op, literal, rfl, hliteral⟩ := eq_of_selfUpdate h
  intro x hx
  rcases Instruction.reads_binary hx with ⟨names, ⟨⟩, hx⟩ | ⟨names, hnames, hx⟩
  · exact List.mem_singleton.1 hx
  · obtain rfl : [] = names := Except.ok.inj (hliteral.symm.trans hnames)
    cases hx

theorem yields_suppliesCode_lowerAssign (name : String) (value : Node) :
    Yields (t.lowerAssign method name value) (SuppliesCode (t.unnamed method)) := by
  intro ns is ns' hrun
  cases leaves_assigning name value ns is ns' hrun with
  | update hs hupdate =>
    refine .single rfl rfl ?_ (Set.empty_subset _)
    rintro x ⟨hx, hG⟩
    have hname : x = name := reads_selfUpdate hupdate (Instruction.reads_assign rfl hx)
    exact absurd (hname ▸ hs) (by simp [hG.2.1])
  | binding hs hupdate hv =>
    have hv := (yields_supplies value _).of_run hv
    refine suppliesCode_of_single hv.prepares rfl rfl ?_
    exact (Set.inter_subset_inter_left _ (Instruction.reads_assign rfl)).trans hv.reads
  | field hbinding hf hv =>
    have hv := (yields_supplies value _).of_run hv
    exact suppliesCode_of_single hv.prepares rfl rfl hv.reads

/-- Code that ends with a jump on a condition, and has assigned what the condition reads. -/
def BranchReads (G : Set String) (label : String) (is : List Instruction) : Prop :=
  ∃ before condition, is = before ++ [.branch condition label] ∧ Prepares G ∅ (condition.reads ∩ G) before

theorem yields_branchReads (condition : Node) (label : String) :
    Yields (t.lowerBranch method condition label) (BranchReads (t.unnamed method) label) := by
  intro ns is ns' hrun
  cases leaves_testing condition label ns is ns' hrun with
  | comparison hkind hop hcompares hleft hright hl hr =>
    have hl := (yields_supplies _ _).of_run hl
    have hr := (yields_supplies _ _).of_run hr
    exact ⟨_, _, rfl, (prepares_operands hl hr).mono subset_rfl (reads_binary_subset hl hr)⟩
  | negation hkind hop hoperand hv =>
    have hv := (yields_supplies _ _).of_run hv
    exact ⟨_, _, rfl, hv.prepares.mono subset_rfl hv.reads⟩
  | value hbinary hunary hv =>
    have hv := (yields_supplies _ _).of_run hv
    exact ⟨_, _, rfl, hv.prepares.mono subset_rfl hv.reads⟩

section
variable {number : String} {test first second : List Instruction}

/-- A test is left at its end or for its label. -/
theorem BranchReads.readsAssigned {label : String} (h : BranchReads G label test) {m : CodeMethod} {pc : Nat}
    {assigned : Set String} (hin : m.Contains pc test) :
    m.ReadsAssigned G (fun b => (b.pc = pc + size test ∨ m.labels.find? label = some b.pc) ∧ assigned ⊆ b.assigned)
      ⟨pc, assigned⟩ := by
  obtain ⟨before, condition, rfl, hbefore⟩ := h
  obtain ⟨hinBefore, hbranch, -⟩ := CodeMethod.contains_append.1 hin
  refine (hbefore m pc assigned hinBefore (Set.empty_subset _)).trans fun ⟨pc₁, assigned₁⟩ h₁ => ?_
  obtain ⟨rfl, h₁⟩ := h₁
  refine .step hbranch (Set.subset_union_right.trans h₁) fun pc₂ hpc₂ => .stop ⟨?_, ?_⟩
  · rcases hpc₂ with ⟨-, rfl⟩ | ⟨l, hl, hplace⟩
    · exact .inl (by simp only [size_append, size]; omega)
    · obtain rfl := Option.some.inj hl
      exact .inr hplace
  · exact Set.subset_union_left.trans (h₁.trans Set.subset_union_left)

theorem suppliesCode_ifElse (htest : BranchReads G ("if_then_" ++ number) test) (hfirst : SuppliesCode G first)
    (hsecond : SuppliesCode G second) :
    SuppliesCode G (test ++ [.label ("if_else_" ++ number)] ++ first ++
      [.goto ("if_end_" ++ number), .label ("if_then_" ++ number)] ++ second ++ [.label ("if_end_" ++ number)]) := by
  intro m pc assigned h _
  simp only [List.append_assoc, CodeMethod.contains_append] at h
  obtain ⟨hinTest, -, hinFirst, hjump, hinSecond, hend⟩ := h
  refine (htest.readsAssigned hinTest).trans fun ⟨pc₁, assigned₁⟩ ⟨hpc₁, h₁⟩ => ?_
  rcases hpc₁ with hpc₁ | hplace
  · obtain rfl : pc₁ = pc + size test := hpc₁
    refine (hfirst m _ assigned₁ hinFirst (Set.empty_subset _)).trans fun ⟨pc₂, assigned₂⟩ h₂ => ?_
    obtain ⟨rfl, h₂⟩ := h₂
    refine .step hjump.1 (by rintro x ⟨⟨_, ⟨⟩, hx⟩, -⟩; cases hx) fun pc₃ hpc₃ => .stop ⟨?_, ?_⟩
    · obtain ⟨l, hl, hplace⟩ := hpc₃.resolve_left (by simp [Instruction.continues])
      obtain rfl := Option.some.inj hl
      obtain rfl := Option.some.inj (hplace.symm.trans hend.1.1)
      simp only [size_append, size]
      omega
    · rw [Set.union_empty]
      exact h₁.trans (Set.subset_union_left.trans (h₂.trans Set.subset_union_left))
  · obtain rfl := Option.some.inj (hplace.symm.trans hjump.2.1.1)
    refine (hsecond m _ assigned₁ hinSecond (Set.empty_subset _)).trans fun b hb => .stop ⟨?_, ?_⟩
    · rw [hb.1]
      simp only [size_append, size]
      omega
    · rw [Set.union_empty]
      exact h₁.trans (Set.subset_union_left.trans hb.2)

theorem suppliesCode_ifThen (htest : BranchReads G ("if_then_" ++ number) test) (hsecond : SuppliesCode G second) :
    SuppliesCode G (test ++ [.goto ("if_end_" ++ number), .label ("if_then_" ++ number)] ++ second ++
      [.label ("if_end_" ++ number)]) := by
  intro m pc assigned h _
  simp only [List.append_assoc, CodeMethod.contains_append] at h
  obtain ⟨hinTest, hjump, hinSecond, hend⟩ := h
  refine (htest.readsAssigned hinTest).trans fun ⟨pc₁, assigned₁⟩ ⟨hpc₁, h₁⟩ => ?_
  rcases hpc₁ with hpc₁ | hplace
  · obtain rfl : pc₁ = pc + size test := hpc₁
    refine .step hjump.1 (by rintro x ⟨⟨_, ⟨⟩, hx⟩, -⟩; cases hx) fun pc₂ hpc₂ => .stop ⟨?_, ?_⟩
    · obtain ⟨l, hl, hplace⟩ := hpc₂.resolve_left (by simp [Instruction.continues])
      obtain rfl := Option.some.inj hl
      obtain rfl := Option.some.inj (hplace.symm.trans hend.1.1)
      simp only [size_append, size]
      omega
    · rw [Set.union_empty]
      exact h₁.trans Set.subset_union_left
  · obtain rfl := Option.some.inj (hplace.symm.trans hjump.2.1.1)
    refine (hsecond m _ assigned₁ hinSecond (Set.empty_subset _)).trans fun b hb => .stop ⟨?_, ?_⟩
    · rw [hb.1]
      simp only [size_append, size]
      omega
    · rw [Set.union_empty]
      exact h₁.trans (Set.subset_union_left.trans hb.2)

/-- In a loop, the heads are the arrivals at the jump back into the body. -/
theorem suppliesCode_while (htest : BranchReads G ("while_body_" ++ number) test) (hfirst : SuppliesCode G first) :
    SuppliesCode G ([.goto ("while_cond_" ++ number), .label ("while_body_" ++ number)] ++ first ++
      [.label ("while_cond_" ++ number)] ++ test ++ [.label ("while_end_" ++ number)]) := by
  obtain ⟨before, condition, rfl, hbefore⟩ := htest
  intro m pc assigned h _
  simp only [List.append_assoc, CodeMethod.contains_append] at h
  obtain ⟨hjump, hinFirst, hcondition, hinBefore, hbranch, -⟩ := h
  let heads : Arrival → Prop := fun b => m.code[b.pc]? = some (.branch condition ("while_body_" ++ number)) ∧
    b.pc = pc + 1 + size first + size before ∧ condition.reads ∩ G ⊆ b.assigned ∧ assigned ⊆ b.assigned
  -- from the label of the condition on, the condition is computed
  have hhead {more : Set String} (hmore : assigned ⊆ more) (stops : Arrival → Prop) :
      m.ReadsAssigned G (fun b => heads b ∨ stops b) ⟨pc + 1 + size first, more⟩ := by
    refine (hbefore m _ more hinBefore (Set.empty_subset _)).trans fun b h' => .stop (.inl ?_)
    obtain ⟨pc', more'⟩ := b
    obtain ⟨rfl, h'⟩ := h'
    exact ⟨hbranch.1, rfl, Set.subset_union_right.trans h', hmore.trans (Set.subset_union_left.trans h')⟩
  refine .step hjump.1 (by rintro x ⟨⟨_, ⟨⟩, hx⟩, -⟩; cases hx) fun pc₁ hpc₁ => ?_
  obtain ⟨l, hl, hplace⟩ := hpc₁.resolve_left (by simp [Instruction.continues])
  obtain rfl := Option.some.inj hl
  obtain rfl := Option.some.inj (hplace.symm.trans hcondition.1.1)
  refine (hhead Set.subset_union_left (fun _ => False)).trans fun b hb => ?_
  refine .loop heads (hb.resolve_right id) fun b hb => ?_
  obtain ⟨hi, hpc, hreads, hassigned⟩ := hb
  refine ⟨CodeMethod.readsHere_of_reads hi hreads, fun c hc => ?_⟩
  obtain ⟨pc₂, rfl, hpc₂⟩ := CodeMethod.eq_of_goes hi hc
  have hmore : assigned ⊆ b.assigned ∪ (Instruction.branch condition ("while_body_" ++ number)).assigns :=
    hassigned.trans Set.subset_union_left
  rcases hpc₂ with ⟨-, rfl⟩ | ⟨l, hl, hplace⟩
  · refine .stop (.inr ⟨?_, by rwa [Set.union_empty]⟩)
    rw [hpc]
    simp only [size_append, size]
    omega
  · obtain rfl := Option.some.inj hl
    obtain rfl := Option.some.inj (hplace.symm.trans hjump.2.1.1)
    refine (hfirst m _ _ hinFirst (Set.empty_subset _)).trans fun b h₃ => ?_
    obtain ⟨pc₃, assigned₃⟩ := b
    obtain ⟨rfl, h₃⟩ := h₃
    exact hhead (hmore.trans (Set.subset_union_left.trans h₃)) _

end

theorem yields_suppliesCode_lowerSequence {returnType : Ty} {ns : List Node}
    (h : ∀ n ∈ ns, Yields (t.lowerStatement method returnType n) (SuppliesCode (t.unnamed method))) :
    Yields (t.lowerSequence method returnType ns) (SuppliesCode (t.unnamed method)) := by
  induction ns with
  | nil => exact .pure (.nil subset_rfl)
  | cons n ns ih =>
    obtain ⟨hn, hns⟩ := List.forall_mem_cons.1 h
    rw [lowerSequence]
    exact hn.bind fun first hfirst => (ih hns).bind fun rest hrest => .pure (hfirst.append hrest)

/-- A return behind the code of its value. -/
theorem suppliesCode_return {v : Lowered} (hv : v.Supplies G) (type : Ty) :
    SuppliesCode G (v.computation ++ [.ret v.code type]) := by
  refine suppliesCode_of_single hv.prepares rfl rfl ?_
  rintro x ⟨⟨names, hnames, hx⟩, hG⟩
  cases hcode : v.code with
  | absent =>
    rw [hcode] at hnames
    obtain rfl : [] = names := Except.ok.inj hnames
    cases hx
  | _ =>
    rw [hcode] at hnames
    exact hcode ▸ hv.reads ⟨⟨names, hcode ▸ hnames, hx⟩, hG⟩

/-- The code of a statement reads only what has been assigned. -/
theorem yields_suppliesCode (returnType : Ty) (n : Node) :
    Yields (t.lowerStatement method returnType n) (SuppliesCode (t.unnamed method)) := by
  induction n using Node.induction_children with
  | step n ih =>
    intro ns is ns' hrun
    cases leaves_loweringCode returnType n ns is ns' hrun with
    | block hkind his => exact (yields_suppliesCode_lowerSequence ih).of_run his
    | exprStmt hkind hchildren hv =>
      exact ((yields_supplies _ _).of_run hv).prepares.mono subset_rfl (Set.empty_subset _)
    | assignElement hkind hchildren htarget harray hindex his => exact (yields_suppliesCode_lowerStore _ _ _).of_run his
    | assign hkind hchildren htarget hname his => exact (yields_suppliesCode_lowerAssign _ _).of_run his
    | arrayAssign hkind hchildren his => exact (yields_suppliesCode_lowerStore _ _ _).of_run his
    | returnNothing hkind hchildren =>
      refine .single rfl rfl ?_ (Set.empty_subset _)
      rintro x ⟨⟨_, ⟨⟩, hx⟩, -⟩
      cases hx
    | returnValue hkind hchildren hv => exact suppliesCode_return ((yields_supplies _ _).of_run hv) returnType
    | ifElse hkind hchildren hlabel htest hfirst hsecond =>
      have hfirst := (ih _ (by simp [hchildren])).of_run hfirst
      have hsecond := (ih _ (by simp [hchildren])).of_run hsecond
      exact suppliesCode_ifElse ((yields_branchReads _ _).of_run htest) hfirst hsecond
    | ifThen hkind hchildren hrest hlabel htest hsecond =>
      have hsecond := (ih _ (by simp [hchildren])).of_run hsecond
      exact suppliesCode_ifThen ((yields_branchReads _ _).of_run htest) hsecond
    | whileLoop hkind hchildren hlabel hfirst htest =>
      have hfirst := (ih _ (by simp [hchildren])).of_run hfirst
      exact suppliesCode_while ((yields_branchReads _ _).of_run htest) hfirst

end SymbolTable

/-! ## Methods -/

theorem size_eq_length_filter (is : List Instruction) : size is = (is.filter (!CodeMethod.isLabel ·)).length := by
  induction is with
  | nil => rfl
  | cons i is ih =>
    cases i with
    | label name => simpa [size, CodeMethod.isLabel] using ih
    | _ => simp [size, CodeMethod.isLabel, ih]

namespace SymbolTable
variable {t : SymbolTable} {d : Node} {m : CodeMethod} {ns ns' : Names}

/-- A method is lowered with its own variables reserved. Its code is that of its statements without the labels, and
perhaps an instruction without effect behind it. -/
theorem lowerMethod_code (h : (t.lowerMethod d).run ns = .ok (m, ns')) :
    ∃ name info is, d.name = .ok name ∧ t.method name = .ok info ∧
      (t.lowerSequence name info.returnType d.statements).run
        (ns.reserve ((info.params ++ info.locals).map (·.name))) = .ok (is, ns') ∧
      (m.code = is.filter (!CodeMethod.isLabel ·) ∨ m.code = is.filter (!CodeMethod.isLabel ·) ++ [.nop]) ∧
      m.Contains 0 is := by
  unfold lowerMethod at h
  obtain ⟨name, ns₁, hasked, h⟩ := lower_bind_eq_ok.1 h
  obtain ⟨hname, rfl⟩ := lower_lift_eq_ok.1 hasked
  obtain ⟨info, ns₂, hlooked, h⟩ := lower_bind_eq_ok.1 h
  obtain ⟨hinfo, rfl⟩ := lower_lift_eq_ok.1 hlooked
  obtain ⟨_, ns₃, hreserve, h⟩ := lower_bind_eq_ok.1 h
  obtain rfl : ns.reserve ((info.params ++ info.locals).map (·.name)) = ns₃ :=
    (Prod.mk.inj (Except.ok.inj hreserve)).2
  obtain ⟨is, ns₄, his, h⟩ := lower_bind_eq_ok.1 h
  obtain ⟨m₁, ns₅, hadded, h⟩ := lower_bind_eq_ok.1 h
  obtain ⟨hextend, rfl⟩ := lower_lift_eq_ok.1 hadded
  obtain ⟨hfinish, rfl⟩ := lower_lift_eq_ok.1 h
  have hempty : (emptyMethod name info).HasLabels [] := ⟨rfl, List.nodup_nil, by simp [emptyMethod]⟩
  have hwaiting : (emptyMethod name info).Waiting := by simp [CodeMethod.Waiting, emptyMethod]
  have hfrom (k : Nat) : Lower.From k (t.lowerSequence name info.returnType d.statements) (LabelsCode k) :=
    from_lowerSequence fun n _ k => from_lowerStatement n k
  have hlabelled := hfrom _ (ns.reserve ((info.params ++ info.locals).map (·.name))) rfl
  rw [his] at hlabelled
  obtain ⟨m₂, hextend₂, -, hcode⟩ := hempty.extend is (by simpa using hlabelled.nodup)
  obtain rfl : m₁ = m₂ := Except.ok.inj (hextend.symm.trans hextend₂)
  refine ⟨name, info, is, hname, hinfo, his, ?_, (CodeMethod.contains_of_extend hwaiting hextend
    fun hwaiting => CodeMethod.becomes_of_finish hwaiting hfinish).2⟩
  simp only [emptyMethod, List.nil_append] at hcode
  rw [← hcode]
  simp only [CodeMethod.finish, CodeMethod.assignSlots, bind_eq_ok, pure_eq_ok] at hfinish
  obtain ⟨names, -, rfl⟩ := hfinish
  split
  · exact .inl rfl
  · exact .inr rfl

/-- What is live where a method begins has a name in the source: it is `this`, a parameter, a local variable or an
imported class. -/
theorem notMem_unnamed_of_mem_before (h : (t.lowerMethod d).run ns = .ok (m, ns')) {l : Liveness}
    (hl : m.liveness = .ok l) {x : String} (hx : x ∈ l.before 0) :
    ∃ name, d.name = .ok name ∧ x ∉ t.unnamed name := by
  obtain ⟨name, info, is, hname, -, his, hcode, hcontains⟩ := lowerMethod_code h
  refine ⟨name, hname, fun hG => ?_⟩
  have hsupplies : SuppliesCode (t.unnamed name) is :=
    yields_suppliesCode_lowerSequence (fun n _ => yields_suppliesCode info.returnType n) _ _ _ his
  have hreads : m.ReadsAssigned (t.unnamed name) (fun _ => False) ⟨0, ∅⟩ := by
    refine (hsupplies m 0 ∅ hcontains subset_rfl).trans fun b hb => ?_
    -- behind the code of the statements nothing is read
    have hbehind {k : Nat} {i : Instruction} (hk : size is ≤ k) (hi : m.code[k]? = some i) : i = .nop := by
      rw [size_eq_length_filter] at hk
      rcases hcode with hcode | hcode
      · rw [hcode, List.getElem?_eq_none hk] at hi
        cases hi
      · rw [hcode, List.getElem?_append_right hk] at hi
        exact List.mem_singleton.1 (List.mem_of_getElem? hi)
    refine .coinduct (P := fun b => size is ≤ b.pc) (by simp [hb.1]) fun b hb => .inr ⟨fun x hx => ?_, ?_⟩
    · obtain ⟨i, names, hi, hnames, hmem⟩ := (m.mem_namesAt_iff).1 hx
      rw [hbehind hb hi] at hnames
      obtain rfl : [] = names := Except.ok.inj hnames
      cases hmem
    · rintro c ⟨⟨i, hi, ⟨l, hl, -⟩ | ⟨-, hpc⟩⟩, -⟩
      · rw [hbehind hb hi] at hl
        cases hl
      · exact .inl (hpc ▸ Nat.le_succ_of_le hb)
  obtain ⟨path, hpath⟩ := (CodeMethod.mem_before_iff_usePath hl).1 hx
  exact hreads.mem_assigned_of_usePath hpath hG

end SymbolTable
end JmmCompiler

import JmmCompiler.Proofs.LoweredStatements
import JmmCompiler.Proofs.StackDepth
import JmmCompiler.Proofs.StagedChecks
import JmmCompiler.Proofs.TypeNames
/-! The code of a method is flat: operands are no elements whose indices are elements, and the descriptor of a call has
a parameter for each argument. Methods of the class are told from others by the names of the types of receivers, so that
this depends on the class having another name than all imports. -/
namespace JmmCompiler

/-- Where the names of imports are those of neither the class nor arrays of its objects, and the names of types have no
semicolons. -/
structure Context.Separate (s : Context) : Prop where
  spelled : s.Spelled
  className : Lexeme.IsName s.table.className
  class_ne_any : s.table.className ≠ "any"
  class_ne_import : s.table.isImported s.table.className = false
  arrays_ne_import : ∀ name, s.table.isImported name = true → s.HasVariable name →
    s.variableType name ≠ ⟨s.table.className, true⟩
  marks : ∀ name ∈ s.table.imports, ';' ∉ name.toList

/-- What is known of the nodes that are lowered: calls reach something, names are spelled like words, and calls are
normal. -/
def Context.IsSettled (s : Context) (n : Node) : Prop := (s.Reaches n ∧ n.SpellsNames) ∧ s.IsNormal n

namespace Jasmin

/-- The scope in which the code of a method is emitted that was lowered in a context. -/
structure Scope.Emits (s : Scope) (c : Context) : Prop where
  className : s.program.className = c.table.className
  imports : s.program.imports = c.table.imports
  methods : ∀ m ∈ s.program.methods, ∃ info, c.table.method? info.name = some info ∧ m.IsFor info
  isStatic : s.method.isStatic = c.isStatic

end Jasmin

namespace Context.Gives
variable {s : Context} {P : Node → Prop} {kind : Kind} {expected : Option Ty} {type : Ty} {code : Element}

theorem isItem_eq (h : s.Gives P kind expected type code) : code.isItem = false := by cases h <;> rfl

theorem isFlat (h : s.Gives P kind expected type code) : code.IsFlat := by cases h <;> trivial

end Context.Gives

theorem Jasmin.not_mem_internalName {imported : List String} {name : String} (himported : ∀ i ∈ imported, ';' ∉ i.toList)
    (hname : ';' ∉ name.toList) : ';' ∉ (internalName imported name).toList := by
  unfold internalName
  split
  · rename_i i hi
    have hnot := himported i (List.mem_of_find?_eq_some hi)
    simp only [slashed, String.toList_map, List.mem_map, not_exists, not_and]
    intro c hc heq
    split at heq
    · cases heq
    · exact hnot (heq ▸ hc)
  · split
    · decide
    · split
      · decide
      · exact hname

namespace Context.Separate
variable {s : Context} {expected : Option Ty} {e : Node} {type t : Ty} {code : Element}

theorem not_mem_import (hs : s.Separate) {name : String} (h : s.IsImportName name) : ';' ∉ name.toList := by
  have himported := h.2.2
  simp only [SymbolTable.isImported, SymbolTable.importNames, Bool.or_eq_true, List.contains_iff_mem] at himported
  rcases himported with hmem | hmem
  · exact hs.marks name hmem
  · obtain ⟨i, hi, rfl⟩ := List.mem_map.1 hmem
    refine fun hc => hs.marks i hi ?_
    rw [simpleName, String.toList_ofList, List.mem_reverse] at hc
    exact List.mem_reverse.1 ((List.takeWhile_sublist _).subset hc)

/-- The name of the type of an operand has no semicolon. -/
theorem not_mem_type (hs : s.Separate) (h : s.Operand s.IsSettled expected e type code)
    (hexpected : ∀ t ∈ expected, Lexeme.IsSpelled t.name) (hcode : code.type = .ok t) : ';' ∉ t.name.toList := by
  have hspelled {name : String} (h : Lexeme.IsSpelled name) : ';' ∉ name.toList := h.not_mem (by decide)
  refine h.gives.name_of (Q := fun name => ';' ∉ name.toList) (hspelled Lexeme.isSpelled_int)
    (hspelled Lexeme.isSpelled_boolean) (hspelled Lexeme.isSpelled_any) (fun name hname => hs.not_mem_import hname)
    (fun t ht => hspelled (hexpected t ht)) (hspelled ?_) hcode
  exact h.typed.isSpelled hs.spelled (h.every.imp fun _ hn => hn.1.2)

theorem class_ne_basic (hs : s.Separate) : s.table.className ≠ "int" ∧ s.table.className ≠ "boolean" := by
  constructor
  all_goals
    intro heq
    have hname := hs.className.2
    rw [heq] at hname
    exact absurd hname (by decide)

/-- A receiver whose code has the name of the class is an object of the class or an array of such objects. -/
theorem name_of_receiver (hs : s.Separate) (h : s.Operand s.IsSettled none e type code) (hcode : code.type = .ok t)
    (ht : t.name = s.table.className) : type.name = s.table.className := by
  by_contra hother
  obtain ⟨hint, hboolean⟩ := hs.class_ne_basic
  refine h.gives.name_of (Q := fun name => name ≠ s.table.className) hint.symm hboolean.symm hs.class_ne_any.symm
    (fun name hname heq => ?_) (by simp) hother hcode ht
  have himported := hname.2.2
  rw [heq, hs.class_ne_import] at himported
  cases himported

/-- Nothing is called on arrays of objects of the class. -/
theorem not_array_of_call (hs : s.Separate) {name : String} {args : List Node} {p : Position}
    (hnode : s.Reaches ⟨.call, ⟨[("name", .text name)]⟩, e :: args, p⟩) (h : Typed s e type)
    (hclass : type.name = s.table.className) (hlength : name = "length" → args = [] → type.isArray = false) :
    type = s.table.classType := by
  refine Ty.eq_mk hclass ?_
  rw [← Bool.not_eq_true]
  intro harray
  obtain ⟨type', htyped, hreached⟩ := hnode _ _ _ _ name rfl rfl
  obtain rfl := Except.ok.inj (h.typeOf.symm.trans htyped.typeOf)
  rcases hreached with ⟨-, rfl⟩ | ⟨rfl, rfl, -⟩ | ⟨hnot, -⟩ | ⟨hkind, imported, hname, himported⟩ | ⟨rfl, -⟩
  · cases harray
  · simp [hlength rfl rfl] at harray
  · simp [hnot] at harray
  · cases h with
    | @varRef imported' hnames q =>
      obtain rfl : imported' = imported := Except.ok.inj hname
      rcases hnames with hvariable | ⟨-, himport⟩
      · exact hs.arrays_ne_import _ himported hvariable (Ty.eq_mk hclass harray)
      · rw [himport.variableType] at harray
        cases harray
    | _ => cases hkind
  · cases harray

end Context.Separate

namespace Context
variable {s : Context} {scope : Jasmin.Scope} {invocation : Invocation} {target : Element} {name : String}
  {codes : List Element} {type : Ty} {i : Instruction}
open Jasmin Scope

/-- The descriptor of a call has a parameter for each argument, if a method of the class takes as many and gives a value
exactly if that is wanted, provided that the call is one of a method of the class. -/
theorem Separate.callAgrees (hs : s.Separate) (hscope : scope.Emits s)
    (hinvocation : ¬(invocation = .new ∨ invocation = .arrayLength))
    (hinit : name ≠ "<init>") (hcodes : ∀ code ∈ codes, ∀ t, code.type = .ok t → ';' ∉ t.name.toList)
    (hown : ∀ t m, target.type = .ok t → t.name = s.table.className → s.table.method? name = some m →
      m.params.length = codes.length ∧ (m.returnType = .void ↔ type = .void)) :
    scope.CallAgrees invocation target (some name) codes type := by
  rw [CallAgrees, if_neg hinvocation]
  intro descriptor hdescriptor
  obtain rfl := callDescriptor_eq hdescriptor
  have hplain {t : Ty} (h : ';' ∉ t.name.toList) : ';' ∉ (internalName scope.program.imports t.name).toList :=
    not_mem_internalName (hscope.imports ▸ hs.marks) h
  rw [Scope.methodDescriptor]
  simp only [signature, Option.some.injEq, hinit, if_false]
  generalize hfound : scope.program.methods.find? _ = found
  cases found with
  | none =>
    simp only [typesOf]
    rw [readDescriptor_methodDescriptor, List.length_map]
    rintro t ht
    obtain ⟨code, hcode, rfl⟩ := List.mem_map.1 ht
    refine hplain ?_
    unfold Element.typeOrVoid
    cases htype : code.type with
    | ok t => exact hcodes code hcode t htype
    | error e => exact (by decide : ';' ∉ ("void").toList)
  | some m =>
    have hmatches := List.find?_some hfound
    simp only [Bool.and_eq_true, decide_eq_true_eq] at hmatches
    obtain ⟨⟨hpresent, hclass⟩, hname⟩ := hmatches
    obtain ⟨info, hinfo, hm⟩ := hscope.methods m (List.mem_of_find?_eq_some hfound)
    obtain rfl : info.name = name := hm.name.symm.trans hname
    obtain ⟨t, ht⟩ : ∃ t, target.type = .ok t := by
      cases target with
      | absent => exact absurd rfl hpresent
      | _ => exact ⟨_, rfl⟩
    obtain ⟨hlength, hvoid⟩ := hown t info ht (by
      rw [← hscope.className, ← hclass, typeOrVoid_of_type ht]) hinfo
    simp only [typesOf]
    rw [readDescriptor_methodDescriptor, List.length_map, hm.params, hlength, hm.returnType]
    · simp [hvoid]
    · rintro t ht
      obtain ⟨p, hp, rfl⟩ := List.mem_map.1 ht
      exact hplain ((hs.spelled.params _ info hinfo p (hm.params ▸ hp)).not_mem (by decide))

theorem Passes.length_eq {P : Node → Prop} {params : List Symbol} {args : List Node} (h : s.Passes P params args codes) :
    params.length = codes.length := by
  induction h with
  | nil => rfl
  | cons hcode hfit hrest ih => simp [ih]

theorem Passes.exists_operand {P : Node → Prop} {params : List Symbol} {args : List Node} (h : s.Passes P params args codes)
    {code : Element} (hcode : code ∈ codes) : ∃ p ∈ params, ∃ e type, s.Operand P (some p.type) e type code := by
  induction h with
  | nil => cases hcode
  | @cons p e type _ params args codes hfirst hfit hrest ih =>
    rcases List.mem_cons.1 hcode with rfl | hcode
    · exact ⟨p, by simp, e, type, hfirst⟩
    · obtain ⟨p', hp', hoperand⟩ := ih hcode
      exact ⟨p', List.mem_cons_of_mem _ hp', hoperand⟩

/-- Arguments are no elements of arrays, and the names of their types have no semicolons. -/
theorem Separate.of_passes (hs : s.Separate) {m : MethodInfo} {args : List Node} (hm : s.table.method? name = some m)
    (h : s.Passes s.IsSettled m.params args codes) :
    (∀ code ∈ codes, code.IsFlat) ∧ ∀ code ∈ codes, ∀ t, code.type = .ok t → ';' ∉ t.name.toList := by
  refine ⟨fun code hcode => ?_, fun code hcode t ht => ?_⟩
  · obtain ⟨p, -, e, type, hoperand⟩ := h.exists_operand hcode
    exact hoperand.gives.isFlat
  · obtain ⟨p, hp, e, type, hoperand⟩ := h.exists_operand hcode
    exact hs.not_mem_type hoperand (by simpa using hs.spelled.params name m hm p hp) ht

theorem Separate.of_sends (hs : s.Separate) (h : s.Sends s.IsSettled codes) :
    (∀ code ∈ codes, code.IsFlat) ∧ ∀ code ∈ codes, ∀ t, code.type = .ok t → ';' ∉ t.name.toList := by
  refine ⟨fun code hcode => ?_, fun code hcode t ht => ?_⟩
  · obtain ⟨e, type, hoperand, -⟩ := h code hcode
    exact hoperand.gives.isFlat
  · obtain ⟨e, type, hoperand, -⟩ := h code hcode
    exact hs.not_mem_type hoperand (by simp) ht

/-- Calls are flat. -/
theorem Calls.isFlat (hs : s.Separate) (hscope : scope.Emits s) (h : s.Calls s.IsSettled invocation target name codes type) :
    scope.IsFlat (.call invocation target (some name) codes type) := by
  have hinit {receiver : Node} {args : List Node} {p : Position}
      (hnode : s.IsSettled ⟨.call, ⟨[("name", .text name)]⟩, receiver :: args, p⟩) : name ≠ "<init>" := by
    rintro rfl
    exact (hnode.1.2.name "<init>" rfl).not_mem (c := '<') (by decide) (by decide)
  have hpassed {m : MethodInfo} {args : List Node} (hm : s.table.method? name = some m)
      (hcodes : s.Passes s.IsSettled m.params args codes)
      (t : Ty) (m' : MethodInfo) (_ : target.type = .ok t) (_ : t.name = s.table.className)
      (hm' : s.table.method? name = some m') :
      m'.params.length = codes.length ∧ (m'.returnType = .void ↔ m.returnType = .void) := by
    obtain rfl := Option.some.inj (hm.symm.trans hm')
    exact ⟨hcodes.length_eq, Iff.rfl⟩
  cases h with
  | static hnode hm hreceiver hstatic hcodes =>
    obtain ⟨hflat, hmarks⟩ := hs.of_passes hm hcodes
    exact ⟨trivial, hflat, hs.callAgrees hscope (by simp) (hinit hnode) hmarks (hpassed hm hcodes)⟩
  | own hnode hm hreceiver hcodes =>
    obtain ⟨hflat, hmarks⟩ := hs.of_passes hm hcodes
    exact ⟨hreceiver.gives.isFlat, hflat, hs.callAgrees hscope (by simp) (hinit hnode) hmarks (hpassed hm hcodes)⟩
  | ownImport hnode hm hclass hcodes => exact absurd (congrArg Ty.name hclass) hs.class_ne_any
  | @foreign _ receiver args p receiverType _ _ _ hnode hreceiver hother hlength hcodes =>
    obtain ⟨hflat, hmarks⟩ := hs.of_sends hcodes
    refine ⟨hreceiver.gives.isFlat, hflat, hs.callAgrees hscope (by simp) (hinit hnode) hmarks fun t m ht hclass hm => ?_⟩
    -- a receiver with the name of the class is an object of the class, whose methods are not called here
    have hname := hs.name_of_receiver hreceiver ht hclass
    exact absurd (hs.not_array_of_call hnode.1.1 hreceiver.typed hname hlength) (hother (by simp [hm]))
  | @imported _ imported _ _ _ _ _ hnode himport hcodes =>
    obtain ⟨hflat, hmarks⟩ := hs.of_sends hcodes
    refine ⟨trivial, hflat, hs.callAgrees hscope (by simp) (hinit hnode) hmarks fun t m ht hclass hm => ?_⟩
    obtain rfl := Except.ok.inj ht
    have himported := himport.2.2
    rw [show imported = s.table.className from hclass, hs.class_ne_import] at himported
    cases himported

/-- Values that are computed are flat, and are pushed. -/
theorem Computes.isFlat (hs : s.Separate) (hscope : scope.Emits s) (h : s.Computes s.IsSettled i type) :
    scope.IsFlat i ∧ IsPushed i := by
  cases h with
  | field hf hinstance => exact ⟨hscope.isStatic.trans hinstance, trivial⟩
  | newArray name hsize hint =>
    exact ⟨⟨trivial, by simpa using hsize.gives.isFlat, by simp [CallAgrees, Ty.void]⟩, by simp [IsPushed, Ty.void]⟩
  | literal name count =>
    exact ⟨⟨trivial, by simp [Element.IsFlat], by simp [CallAgrees, Ty.void]⟩, by simp [IsPushed, Ty.void]⟩
  | @newObject name p hnode =>
    have hvalue : (⟨name, false⟩ : Ty) ≠ .void := by
      rintro heq
      have hkeyword := (hnode.1.2.created rfl name rfl).2
      rw [show name = "void" from congrArg Ty.name heq] at hkeyword
      exact absurd hkeyword (by decide)
    exact ⟨⟨trivial, by simp, by simpa [CallAgrees] using hvalue⟩, hvalue⟩
  | length harray htype =>
    exact ⟨⟨harray.gives.isFlat, by simp, by simp [CallAgrees, Ty.void, Ty.int]⟩, by simp [IsPushed, Ty.void, Ty.int]⟩
  | unary hoperand hboolean => exact ⟨hoperand.gives.isFlat, trivial⟩
  | binary hop hleft hright halike hwanted hadmits => exact ⟨⟨hleft.gives.isFlat, hright.gives.isFlat⟩, trivial⟩
  | element harray htype hname helement hindex hint => exact ⟨hindex.gives.isItem_eq, trivial⟩
  | call hcall hvalue => exact ⟨hcall.isFlat hs hscope, hvalue⟩

/-- Every instruction is flat. -/
theorem Makes.isFlat {returnType : Ty} (hs : s.Separate) (hscope : scope.Emits s)
    (h : s.Makes s.IsSettled returnType i) : scope.InstructionIsFlat i := by
  cases h with
  | temp name hvalue => exact hvalue.isFlat hs hscope
  | init temp name =>
    refine ⟨trivial, by simp, ?_⟩
    rw [CallAgrees, if_neg (by simp)]
    intro descriptor hdescriptor
    obtain rfl := callDescriptor_eq hdescriptor
    rw [Scope.methodDescriptor, signature, if_pos rfl]
    exact readDescriptor_methodDescriptor (by simp)
  | truth name hcode hboolean => exact ⟨hcode.gives.isFlat, trivial⟩
  | falsity name => exact ⟨trivial, trivial⟩
  | put array index hliteral hevery harray hcode hfit hadmits => exact ⟨rfl, _, rfl, hcode.gives.isFlat⟩
  | call hcall => exact hcall.isFlat hs hscope
  | test label h =>
    cases h with
    | comparison hop hleft hright halike hwanted hadmits => exact ⟨⟨hleft.gives.isFlat, hright.gives.isFlat⟩, trivial⟩
    | negation hcode hboolean => exact ⟨hcode.gives.isFlat, trivial⟩
    | truth hcode hboolean => exact ⟨hcode.gives.isFlat, trivial⟩
  | goto label => trivial
  | label name => trivial
  | assign hnode hname hcode hassigns => exact ⟨hcode.gives.isFlat, trivial⟩
  | update hname hop hother hliteral hwanted hfit => exact ⟨⟨trivial, hliteral.gives.isFlat⟩, trivial⟩
  | putField hnode hf hinstance hcode hassigns => exact ⟨hcode.gives.isFlat, hscope.isStatic.trans hinstance⟩
  | store harray htype hknown hname helement hindex hint hcode hfit =>
    exact ⟨hindex.gives.isItem_eq, _, rfl, hcode.gives.isFlat⟩
  | ret hnode hcode hvoid hfit => exact hcode.gives.isFlat
  | retNothing hvoid => trivial

end Context
end JmmCompiler

import Mathlib
import JmmCompiler.Proofs.MovedValues
import JmmCompiler.Proofs.OptimizedProgram
import JmmCompiler.Proofs.ReturnFlow
import JmmCompiler.Proofs.TypeNames
/-! Programs whose code is typed: from a text that is accepted, and whose trees keep to what is known, to the values that
the instructions of its methods move. -/
namespace JmmCompiler

namespace SymbolTable
variable (t : SymbolTable) (method : String)

/-- The values that a node of a method moves, with the types of the places that they go to. What is indexed is wanted as
an array. -/
def wants : Node → List (Ty × Node)
  | ⟨.assign, _, [target, value], _⟩ => [((t.typeOf (some method) target).toOption.getD .any, value)]
  | ⟨.returnStmt, _, [value], _⟩ => [(((t.method? method).map (·.returnType)).getD .any, value)]
  | ⟨.arrayAccess, _, array :: _, _⟩ => [(.intArray, array)]
  | ⟨.call, attributes, receiver :: args, p⟩ =>
    match (Node.name ⟨.call, attributes, receiver :: args, p⟩).toOption.bind t.method? with
    | some m =>
      if (t.isOwnReceiver (some method) receiver).toOption = some true then (m.fixed.map (·.type)).zip args else []
    | none => []
  | _ => []

/-- An element of what is not known. -/
def isUnknownElement (e : Node) : Bool :=
  decide (e.coreKind = .arrayAccess) && decide ((t.typeOf (some method) e).toOption = some .any)

/-- A node of a method that takes no value of a void call and has names of imports as receivers only. -/
structure KeepsToValues (n : Node) : Prop where
  values : n.kind = .binary ∨ n.kind = .arrayLiteral ∨ n.kind = .call →
    ∀ c ∈ n.operands, t.isVoidCall method c = false
  imports : ∀ c ∈ n.operands, (t.isClassReceiver method c).toOption ≠ some true

/-- A node in which, moreover, no array literal starts with what is not known, an empty literal is an array of numbers,
and no element of what is not known stands for an array. -/
structure KeepsToTypes (n : Node) : Prop extends t.KeepsToValues method n where
  literals : n.kind = .arrayLiteral → ∀ c ∈ n.children.head?, (t.typeOf (some method) c).toOption ≠ some .any
  empties : ∀ pair ∈ t.wants method n, pair.2.kind = .arrayLiteral → pair.2.children = [] → pair.1 = .intArray
  elements : ∀ pair ∈ t.wants method n, pair.1.isArray = true → t.isUnknownElement method pair.2 = false

/-- Whether a node keeps to values. -/
def keepsToValues (n : Node) : Bool :=
  (!(n.kind = .binary || n.kind = .arrayLiteral || n.kind = .call) || n.operands.all fun c => !t.isVoidCall method c) &&
    n.operands.all fun c => decide ((t.isClassReceiver method c).toOption ≠ some true)

/-- Whether a node keeps to what is known. -/
def keepsToTypes (n : Node) : Bool :=
  t.keepsToValues method n &&
    (!decide (n.kind = .arrayLiteral) ||
      n.children.head?.all fun c => decide ((t.typeOf (some method) c).toOption ≠ some .any)) &&
    (t.wants method n).all (fun pair => !(decide (pair.2.kind = .arrayLiteral) && pair.2.children.isEmpty) ||
      decide (pair.1 = .intArray)) &&
    (t.wants method n).all fun pair => !pair.1.isArray || !t.isUnknownElement method pair.2

variable {t method}

theorem keepsToValues_of {n : Node} (h : t.keepsToValues method n = true) : t.KeepsToValues method n := by
  simp only [keepsToValues, Bool.and_eq_true, Bool.or_eq_true, Bool.not_eq_true', List.all_eq_true, decide_eq_true_eq,
    decide_eq_false_iff_not, Bool.or_eq_false_iff] at h
  refine ⟨fun hkind => h.1.resolve_left ?_, h.2⟩
  rintro ⟨⟨hbinary, hliteral⟩, hcall⟩
  exact hkind.elim hbinary fun hkind => hkind.elim hliteral hcall

theorem keepsToTypes_of {n : Node} (h : t.keepsToTypes method n = true) : t.KeepsToTypes method n := by
  simp only [keepsToTypes, Bool.and_eq_true, Bool.or_eq_true, Bool.not_eq_true', List.all_eq_true, decide_eq_true_eq,
    decide_eq_false_iff_not, Bool.and_eq_false_iff, Option.all_eq_true] at h
  obtain ⟨⟨⟨hvalues, hliterals⟩, hempties⟩, helements⟩ := h
  refine ⟨keepsToValues_of hvalues, fun hkind => hliterals.resolve_left (absurd hkind),
    fun pair hpair hkind hnil => (hempties pair hpair).resolve_left ?_, fun pair hpair harray =>
      (helements pair hpair).resolve_left (by simp [harray])⟩
  rintro (hother | hother)
  · exact hother hkind
  · simp [hnil] at hother

end SymbolTable

namespace Context
variable {s : Context} {m : MethodInfo} {n e : Node} {type : Ty}

theorem IsImportRef.isClassReceiver (h : s.IsImportRef e) :
    (s.table.isClassReceiver s.method e).toOption = some true := by
  obtain ⟨name, hkind, hname, hbinding, hfield, himported⟩ := h
  rw [s.table.isClassReceiver_of_name s.method hkind hname]
  simp [hbinding, hfield, himported, Except.toOption]

theorem ne_ok_any (h : (s.table.typeOf (some s.method) e).toOption ≠ some .any) : s.typeOf e ≠ .ok .any := fun heq => by
  simp [show s.table.typeOf (some s.method) e = .ok .any from heq, Except.toOption] at h

/-- A node that keeps to values and does not start with what is not known is tame, if it writes known types. -/
theorem tame_of_keepsToValues (h : s.table.KeepsToValues s.method n)
    (hliterals : n.kind = .arrayLiteral → ∀ c ∈ n.children.head?, (s.table.typeOf (some s.method) c).toOption ≠ some .any)
    (hn : n.IsPart) (hwritten : ∀ type, n.writtenType? = some type → type.IsKnown) : s.Tame n where
  operands hkind c hc := by
    have hnocall : n.kind ≠ .call := by rcases hkind with hkind | hkind <;> simp [hkind]
    exact h.values (hkind.imp_right .inl) c (by simpa [Node.operands, hnocall] using hc)
  arguments _ hkind c hc := h.values (.inr (.inr hkind)) c (by simpa [Node.operands, hkind] using hc)
  imports c hc href := h.imports c hc href.isClassReceiver
  written := hwritten
  created hkind type htype := Node.Accepted.isReference_of_newObject hn hkind htype
  literals _ hkind _ c hc := ne_ok_any (hliterals hkind c hc)

theorem settles_of_wants (h : s.table.KeepsToTypes s.method n) (wanted : Ty) (hwants : (wanted, e) ∈ s.table.wants s.method n)
    (harray : wanted.isArray = true) (he : Typed s e type) : s.Settles e := by
  refine ⟨type, he, ?_⟩
  rintro rfl hkind
  have helement := h.elements _ hwants harray
  simp [SymbolTable.isUnknownElement, hkind, show s.table.typeOf (some s.method) e = .ok .any from he.typeOf,
    Except.toOption] at helement

/-- An array literal that is assigned to an array is an array of its type. -/
theorem Assigns.typeOf_literal {target : Ty} (h : s.Assigns target e) (hkind : e.kind = .arrayLiteral)
    (hpart : e.IsPart) (harray : target.isArray = true) (hknown : target.IsKnown)
    (hempty : e.children = [] → target = .intArray) (hfirst : ∀ c ∈ e.children.head?, s.typeOf c ≠ .ok .any) :
    s.typeOf e = .ok target := by
  have hnone : e.attributes = {} := by
    rcases hpart with hpart | hpart
    · cases hpart with
      | arrayLiteral => rfl
      | _ => cases hkind
    · cases hpart with
      | simple hn => cases hn <;> cases hkind
      | _ => cases hkind
  cases h with
  | @whole type hvalue hfit =>
    have hvalueArray := hvalue.isArray_of_literal hkind
    have htarget : target ≠ .any := fun heq => by simp [heq, Ty.any] at harray
    have htype : type ≠ .any := fun heq => by simp [heq, Ty.any] at hvalueArray
    rcases moves_of_compatible hfit htarget htype with rfl | ⟨-, hother, -⟩
    · exact hvalue.typeOf
    · simp [harray] at hother
  | @elementwise type hvalue hkind' harray' types helements hfit =>
    cases hvalue with
    | emptyLiteral p => exact hempty rfl ▸ (Typed.emptyLiteral (s := s) p).typeOf
    | @arrayLiteral first rest types' helements' hfit' hadmits p =>
      have htypes : types first = types' first :=
        Except.ok.inj ((helements first (by simp)).typeOf.symm.trans (helements' first (by simp)).typeOf)
      have hbase : target.base = types' first := by
        have hvalue : types' first ≠ .any := fun heq => hfirst first rfl (heq ▸ (helements' first (by simp)).typeOf)
        have htarget : target.base ≠ .any := fun heq => hknown.1 (congrArg Ty.name heq)
        have hassignable := hfit first (by simp)
        rw [htypes] at hassignable
        simpa [Ty.assignable, hvalue, htarget] using hassignable
      rw [(Typed.arrayLiteral helements' hfit' hadmits p).typeOf, ← hbase]
      exact congrArg Except.ok (Ty.eq_mk rfl harray).symm
    | gatheredLiteral => cases hnone
    | _ => cases hkind

end Context

/-! ## Trees -/

namespace Typed
variable {s : Context} {e : Node} {type : Ty} {P Q : Node → Prop}

/-- What holds of all typed expressions holds everywhere in one. -/
theorem everywhere_of (hP : ∀ e type, Typed s e type → e.Everywhere P → Q e)
    (himport : ∀ name p, Q ⟨.varRef, ⟨[("name", .text name)]⟩, [], p⟩) (h : Typed s e type) (he : e.Everywhere P) :
    e.Everywhere Q := by
  induction e using Node.induction_children generalizing type with
  | step e ih =>
    refine .intro (hP e type h he) fun c hc hkind => ?_
    rcases h.of_mem_children hc with ⟨t, ht⟩ | ⟨name, p, rfl, -⟩
    · exact ih c hc ht (he.child hc hkind)
    · exact .intro (himport name p) (by simp)

/-- A typed expression in a tree that keeps to what is known. -/
theorem keepsTypes (h : Typed s e type) (he : s.table.KeepsToTypes s.method e) : s.KeepsTypes e := by
  cases h with
  | arrayLiteral | gatheredLiteral | emptyLiteral =>
    exact .of_literal rfl fun _ c hc => Context.ne_ok_any (he.literals rfl c hc)
  | arrayAccess harray hindex htype hint hknown p =>
    refine .of_access rfl fun _ hc => ?_
    obtain rfl := Option.some.inj hc
    exact Context.settles_of_wants he .intArray (by simp [SymbolTable.wants]) rfl harray
  | @ownCall name m receiver args types hm hreceiver hargs haccepts p =>
    refine .of_call fun name' m' hname hm' _ pair hpair harray => ?_
    obtain rfl : name = name' := Except.ok.inj hname
    obtain rfl := Option.some.inj (hm.symm.trans hm')
    refine Context.settles_of_wants he pair.1.type ?_ harray (hargs pair.2 (List.of_mem_zip hpair).2)
    have hown : s.table.isOwnReceiver (some s.method) receiver = .ok true := by
      rw [s.table.isOwnReceiver_eq _ hreceiver.typeOf]
      simp
    simp only [SymbolTable.wants, hname, Except.toOption, Option.bind_some, hm, hown, if_true, List.zip_map_left]
    exact List.mem_map.2 ⟨pair, hpair, rfl⟩
  | lengthCall hreceiver hother harray p =>
    refine .of_call fun name' m' hname hm' hreceiver' pair hpair => ?_
    simp at hpair
  | @foreignCall name receiver type args types hreceiver hother hlength himports hargs hadmits p =>
    refine .of_call fun name' m' hname hm' hreceiver' => ?_
    obtain rfl : name = name' := Except.ok.inj hname
    exact absurd (Except.ok.inj (hreceiver.typeOf.symm.trans hreceiver')) (hother (by simp [hm']))
  | @importCall name imported args types hreceiver hother hargs hadmits p q =>
    refine .of_call fun name' m' hname hm' hreceiver' => ?_
    obtain rfl : name = name' := Except.ok.inj hname
    have hany : s.table.classType = .any := by
      rw [← hreceiver.variableType]
      exact (Except.ok.inj hreceiver').symm
    exact absurd hany (hother (by simp [hm']))
  | _ => exact .of_other (by simp) (by simp) (by simp) (by simp) (by simp)

theorem everywhere_keepsTypes (h : Typed s e type) (he : e.Everywhere (s.table.KeepsToTypes s.method)) :
    e.Everywhere s.KeepsTypes :=
  h.everywhere_of (fun _ _ h he => h.keepsTypes he.here)
    (fun _ _ => .of_other (by simp) (by simp) (by simp) (by simp) (by simp)) he

end Typed

namespace Fits
variable {s : Context} {m : MethodInfo} {n : Node}

/-- A statement of a method that fits strictly, in a tree that keeps to what is known. -/
theorem everywhere_keepsTypes (hs : s.Declared) (hstrict : s.strict = true) (hm : s.table.method? s.method = some m)
    (h : Fits s m.returnType n) (hn : n.Everywhere fun n => s.table.KeepsToTypes s.method n ∧ n.IsPart) :
    n.Everywhere s.KeepsTypes := by
  have hexpression {n e : Node} {type : Ty} (hn : n.Everywhere fun n => s.table.KeepsToTypes s.method n ∧ n.IsPart)
      (he : e ∈ n.children) (h : Typed s e type) : e.Everywhere s.KeepsTypes :=
    h.everywhere_keepsTypes ((hn.child he h.kind_ne).imp fun _ h => h.1)
  induction n using Node.induction_children with
  | step n ih =>
    refine .intro ?_ fun c hc hkind => ?_
    · cases h with
      | @assign name value hname hvalue p q =>
        refine .of_assign rfl fun target value' type heq htarget harray => ?_
        simp only [List.cons.injEq, and_true] at heq
        obtain ⟨rfl, rfl⟩ := heq
        obtain rfl : s.variableType name = type := Except.ok.inj htarget
        obtain ⟨type, htyped⟩ := hvalue.exists_typed
        have hwants : (s.variableType name, value) ∈ s.table.wants s.method
            ⟨.assign, {}, [⟨.varRef, ⟨[("name", .text name)]⟩, [], p⟩, value], q⟩ := by
          simp only [SymbolTable.wants, show s.table.typeOf (some s.method) ⟨.varRef, ⟨[("name", .text name)]⟩, [], p⟩ =
            .ok (s.variableType name) from htarget, Except.toOption, Option.getD_some, List.mem_singleton]
        refine ⟨Context.settles_of_wants hn.here.1 _ hwants harray htyped, fun hliteral => ?_⟩
        have hvariable : s.HasVariable name := hname.resolve_right fun himport => by simp [hstrict] at himport
        obtain ⟨hvalues, hpart⟩ := (hn.child (c := value) (by simp) htyped.kind_ne).here
        exact hvalue.typeOf_literal hliteral hpart harray (hs.names name hvariable).1
          (hn.here.1.empties _ hwants hliteral) fun c hc => Context.ne_ok_any (hvalues.literals hliteral c hc)
      | @returnValue value type hvalue hvoid hfit p =>
        refine .of_return rfl fun m' hm' harray e he => ?_
        obtain rfl := Option.some.inj (hm.symm.trans hm')
        obtain rfl := List.mem_singleton.1 he
        exact Context.settles_of_wants hn.here.1 m.returnType (by simp [SymbolTable.wants, hm]) harray hvalue
      | returnNothing hvoid p => exact .of_return rfl fun _ _ _ e he => by cases he
      | _ => exact .of_other (by simp) (by simp) (by simp) (by simp) (by simp)
    · rcases h.of_mem_children hc with hfits | ⟨t, ht⟩
      · exact ih c hc hfits (hn.child hc hkind)
      · exact hexpression hn hc ht

end Fits

/-! ## Programs -/

namespace Node.Accepted
variable {root : Node} {table : SymbolTable} {m : MethodInfo}

theorem method?_init (h : root.Accepted table) : table.method? "<init>" = none := by
  rw [Option.eq_none_iff_forall_not_mem]
  intro m hm
  obtain ⟨d, hmember, hkind, hdecl⟩ := h.exists_member (List.mem_of_find?_eq_some hm)
  have hname : m.name = "<init>" := by simpa using List.find?_some hm
  cases hmember with
  | field hn =>
    obtain ⟨_, _, p⟩ := hn
    cases hkind
  | @method name isPublic isStatic type params body hisName htype hparams hbody p =>
    obtain rfl : name = m.name := Except.ok.inj hdecl.name
    rw [hname] at hisName
    exact (Lexeme.IsName.isSpelled hisName).not_mem (c := '<') (by decide) (by decide)

/-- What holds of all nodes of a method holds everywhere in its statements. -/
theorem everywhere_of_method {Q : String → Node → Prop} {d n : Node} {path : Path} (hat : root.at? path = some d)
    (hkind : d.kind = .methodDecl) (hd : table.Declares d m) (hn : n ∈ d.statements)
    (hQ : ∀ v ∈ root.preorder, ∀ decl name, root.methodAt? v.1 v.2 = some decl → decl.name = .ok name → Q name v.2)
    (hwritten : ∀ type, root.Writes type → type.IsKnown) :
    n.Everywhere fun n => Q m.name n ∧ n.IsPart ∧ ∀ type, n.writtenType? = some type → type.IsKnown := by
  have hvisited := (everywhere_visited hat hkind).child (List.mem_of_mem_filter hn) (hd.shaped n hn).kind_ne
  refine (hvisited.and (hd.shaped n hn).everywhere_isPart).imp ?_
  rintro n ⟨⟨p, hp, hmethod⟩, hpart⟩
  exact ⟨hQ (p, n) hp d m.name hmethod hd.name, hpart, fun type htype => hwritten type ⟨(p, n), hp, htype⟩⟩

/-- The context of a method in a program that writes known types. -/
theorem known (h : root.Accepted table) (hm : table.method? m.name = some m)
    (hnames : ∀ m ∈ table.methods, ∀ v ∈ m.params ++ m.locals, table.field? v.name = none)
    (hwritten : ∀ type, root.Writes type → type.IsKnown) (hclass : table.className ≠ "any") :
    (table.context m).strictly.Known where
  strict := rfl
  unshadowed name v hv := by
    obtain ⟨hbound, rfl⟩ := mem_of_binding hm hv
    exact hnames m (List.mem_of_find?_eq_some hm) v hbound
  declared :=
    have hdeclared := h.declared hclass hwritten hm
    ⟨hdeclared.names, hdeclared.results, hdeclared.known, hdeclared.class_ne_void⟩
  regular := h.regular
  params name m hm p hp := by
    have hmethod := List.mem_of_find?_eq_some hm
    obtain ⟨path, decl, -, -, hdeclares⟩ := h.exists_declaration hmethod
    have hp := List.mem_append_left m.locals hp
    exact ⟨hwritten _ (h.writes_variable hmethod hp), hdeclares.values p hp⟩

theorem exact (h : root.Accepted table) (hm : table.method? m.name = some m)
    (hnames : ∀ m ∈ table.methods, ∀ v ∈ m.params ++ m.locals, table.field? v.name = none)
    (hwritten : ∀ type, root.Writes type → type.IsKnown)
    (hclass : table.className ≠ "any" ∧ table.className ∉ table.importNames) : (table.context m).strictly.Exact where
  toKnown := h.known hm hnames hwritten hclass.1
  class_ne_import := by
    rw [← Bool.not_eq_true]
    exact fun himported => hclass.2 (mem_importNames h.isName_className himported)
  no_init := h.method?_init

end Node.Accepted

namespace Lowers
variable {config : Config} {source : String} {root tree : Node} {table : SymbolTable} {code : CodeProgram}

/-- Every value that the code of a program moves has exactly the type of its destination, with or without folded
constants, if no variable hides a field, the types that are written are known, the class is neither unknown nor named
like an import, and all nodes of methods keep to what is known. -/
theorem moves_typed (h : Lowers config source root table tree code)
    (hnames : ∀ m ∈ table.methods, ∀ v ∈ m.params ++ m.locals, table.field? v.name = none)
    (hwritten : ∀ type, root.Writes type → type.IsKnown)
    (hclass : table.className ≠ "any" ∧ table.className ∉ table.importNames)
    (hkeeps : ∀ v ∈ root.preorder, ∀ decl name, root.methodAt? v.1 v.2 = some decl → decl.name = .ok name →
      table.KeepsToTypes name v.2) {m : CodeMethod} (hm : m ∈ code.methods) :
    (∃ info ∈ table.methods, m.IsFor info) ∧ ∀ i ∈ m.code, table.MovesTyped m.returnType i := by
  have haccepted := Node.accepted_of_analyze h.parsed h.analyzed
  have hmem {info : MethodInfo} (hinfo : table.method? info.name = some info) : info ∈ table.methods :=
    List.mem_of_find?_eq_some hinfo
  have hexact := fun info hinfo => haccepted.exact (m := info) hinfo hnames hwritten hclass
  have hmakes := haccepted.makes (s := fun info => (table.context info).strictly)
    (P := fun info => (table.context info).strictly.KeepsTypes) (fun info hinfo => by
      have hs := hexact info hinfo
      refine ⟨⟨rfl, rfl, Context.stable_keepsTypes, fun _ => ?_, fun _ name m last hm hrest => ?_,
        fun path d hat hkind hd n hn => ?_⟩,
        hs.unshadowed, fun _ => hs.declared⟩
      · exact haccepted.variablesKnown (hmem hinfo) fun type htype => (hwritten type htype).1
      · refine (hs.params name m hm last ?_).1
        rw [← MethodInfo.params_of_rest hrest]
        simp
      · have hnode := Node.Accepted.everywhere_of_method (Q := table.KeepsToTypes) hat hkind hd hn hkeeps hwritten
        have hfits := (hd.fits hn).strictly (haccepted.declared hclass.1 hwritten hinfo)
          (hnode.imp fun n hn =>
            Context.tame_of_keepsToValues (s := table.context info) hn.1.toKeepsToValues hn.1.literals hn.2.1 hn.2.2)
        exact ⟨hfits, hfits.everywhere_keepsTypes hs.declared rfl hinfo (hnode.imp fun n hn => ⟨hn.1, hn.2.1⟩)⟩)
    h.prepared h.generated
  obtain ⟨info, hinfo, hfor, hcode⟩ := hmakes m hm
  refine ⟨⟨info, hmem hinfo, hfor⟩, fun i hi => ?_⟩
  rw [hfor.returnType]
  rcases hcode i hi with hmakes | rfl
  · exact hmakes.movesTyped (hexact info hinfo) hinfo
  · trivial

/-- Whether all nodes of methods pass a test, with the names of the methods. -/
def testsMethods (root : Node) (test : String → Node → Bool) : Bool :=
  root.preorder.all fun v => ((root.methodAt? v.1 v.2).bind fun decl => decl.name.toOption).all (test · v.2)

theorem of_testsMethods {Q : String → Node → Prop} {test : String → Node → Bool} (h : testsMethods root test = true)
    (hQ : ∀ name n, test name n = true → Q name n) :
    ∀ v ∈ root.preorder, ∀ decl name, root.methodAt? v.1 v.2 = some decl → decl.name = .ok name → Q name v.2 := by
  intro v hv decl name hdecl hname
  have htest := List.all_eq_true.1 h v hv
  simp only [hdecl, Option.bind_some, hname, Except.toOption, Option.all_some] at htest
  exact hQ name v.2 htest

/-- An object that is returned for one of its superclass, and what an imported class gives to a parameter that gathers
arguments. -/
theorem moves_typed_gathers :
    ∃ root table tree code, Lowers ⟨true, 0, by decide⟩
        ("import Io;class A extends B\x7bint[] a;int g(int k,int... x)\x7ba=x;return k;\x7d" ++
          "B f(int n)\x7bboolean[] b;b=[n<1,Io.t()];if(b[0])n=this.g(Io.n(),Io.m()[n],2);return this;\x7d\x7d")
        root table tree code ∧ code.methods.length = 2 ∧
      ∀ m ∈ code.methods, (∃ info ∈ table.methods, m.IsFor info) ∧ ∀ i ∈ m.code, table.MovesTyped m.returnType i := by
  obtain ⟨root, table, tree, code, h, hfacts⟩ := exists_lowers (show (lowered? ⟨true, 0, by decide⟩
      ("import Io;class A extends B\x7bint[] a;int g(int k,int... x)\x7ba=x;return k;\x7d" ++
          "B f(int n)\x7bboolean[] b;b=[n<1,Io.t()];if(b[0])n=this.g(Io.n(),Io.m()[n],2);return this;\x7d\x7d")).map
      (fun r => (r.1.preorder.all (fun v => v.2.writtenType?.all fun type => decide type.IsKnown),
        testsMethods r.1 r.2.1.keepsToTypes, r.2.1, r.2.2.2.methods.length)) =
        some (true, true, ⟨"A", some "B", ["Io"], [⟨"a", .intArray⟩],
          [⟨"g", .int, [⟨"k", .int⟩, ⟨"x", .intArray⟩], [], false, false, true⟩,
            ⟨"f", ⟨"B", false⟩, [⟨"n", .int⟩], [⟨"b", ⟨"boolean", true⟩⟩], false, false, false⟩]⟩, 2) by decide +kernel)
  simp only [Prod.mk.injEq] at hfacts
  obtain ⟨hall, hkeeps, rfl, hlength⟩ := hfacts
  have hwritten : ∀ type, root.Writes type → type.IsKnown := fun type hwrites => by
    obtain ⟨v, hv, htype⟩ := hwrites
    have hknown := List.all_eq_true.1 hall v hv
    simpa [htype] using hknown
  exact ⟨root, _, tree, code, h, hlength, fun m hm => h.moves_typed (by decide) hwritten (by decide)
    (of_testsMethods hkeeps fun _ _ => SymbolTable.keepsToTypes_of) hm⟩

/-- Whether a program writes no unknown type, has variables with names of their own, keeps to values, and has code that
moves a value to a place of another type. -/
def movesOther (root : Node) (table : SymbolTable) (code : CodeProgram) : Bool :=
  (root.preorder.all fun v => v.2.writtenType?.all fun type => type.name != "any") &&
    (table.methods.all fun m => (m.params ++ m.locals).all fun v =>
      decide (table.field? v.name = none ∧ v.name ∉ table.importNames)) &&
    testsMethods root table.keepsToValues &&
    code.methods.any fun m => m.code.any fun i => !decide (table.MovesTyped m.returnType i)

/-- A program that writes no unknown type, has variables with names of their own and keeps to values has code that moves a
value to a place of another type. -/
def MovesOther (config : Config) (source : String) : Prop :=
  ∃ root table tree code, Lowers config source root table tree code ∧
    (∀ type, root.Writes type → type.name ≠ "any") ∧
    (∀ m ∈ table.methods, ∀ v ∈ m.params ++ m.locals, table.field? v.name = none ∧ v.name ∉ table.importNames) ∧
    (∀ v ∈ root.preorder, ∀ decl name, root.methodAt? v.1 v.2 = some decl → decl.name = .ok name →
      table.KeepsToValues name v.2) ∧
    ∃ m ∈ code.methods, ∃ i ∈ m.code, ¬table.MovesTyped m.returnType i

theorem exists_of_movesOther {config : Config} {source : String}
    (h : (lowered? config source).map (fun r => movesOther r.1 r.2.1 r.2.2.2) = some true) : MovesOther config source := by
  obtain ⟨root, table, tree, code, hlowers, hfacts⟩ := exists_lowers h
  simp only [movesOther, Bool.and_eq_true, List.all_eq_true, List.any_eq_true, decide_eq_true_eq, Bool.not_eq_true',
    decide_eq_false_iff_not] at hfacts
  obtain ⟨⟨⟨hwritten, hnames⟩, hvalues⟩, hcode⟩ := hfacts
  refine ⟨root, table, tree, code, hlowers, fun type hwrites => ?_, hnames,
    of_testsMethods hvalues fun _ _ => SymbolTable.keepsToValues_of, hcode⟩
  obtain ⟨v, hv, htype⟩ := hwrites
  have hknown := hwritten v hv
  simpa [htype] using hknown

theorem movesOther_literals :
    (lowered? {} "class A\x7bvoid f()\x7bboolean[] b;b=[];\x7d\x7d").map (fun r => movesOther r.1 r.2.1 r.2.2.2) = some true ∧
      (lowered? {} "import Io;class A\x7bvoid f()\x7bint[] a;a=[Io.n(),1];\x7d\x7d").map
        (fun r => movesOther r.1 r.2.1 r.2.2.2) = some true := ⟨by decide +kernel, by decide +kernel⟩

theorem movesOther_elements :
    (lowered? {} "import Io;class A\x7bvoid f()\x7bint[] a;a=Io.m()[0];\x7d\x7d").map (fun r => movesOther r.1 r.2.1 r.2.2.2) =
        some true ∧
      (lowered? {} "import Io;class A\x7bvoid f(void[] v)\x7bv[0]=Io.m()[0];\x7d\x7d").map
        (fun r => movesOther r.1 r.2.1 r.2.2.2) = some true := ⟨by decide +kernel, by decide +kernel⟩

theorem movesOther_classes :
    (lowered? {} "class any\x7bint f()\x7breturn this;\x7d\x7d").map (fun r => movesOther r.1 r.2.1 r.2.2.2) = some true ∧
      (lowered? {} "import A;class A\x7bvoid f(int k)\x7bA.f(true);\x7d\x7d").map (fun r => movesOther r.1 r.2.1 r.2.2.2) =
        some true := ⟨by decide +kernel, by decide +kernel⟩

/-- Values are moved to places of other types by an empty literal for an array of truth values, a literal that starts with
what is not known, an element of what is not known that is taken for an array or for nothing, a class with the name of the
unknown type, and a class with the name of an import. -/
theorem moves_other :
    MovesOther {} "class A\x7bvoid f()\x7bboolean[] b;b=[];\x7d\x7d" ∧
      MovesOther {} "import Io;class A\x7bvoid f()\x7bint[] a;a=[Io.n(),1];\x7d\x7d" ∧
      MovesOther {} "import Io;class A\x7bvoid f()\x7bint[] a;a=Io.m()[0];\x7d\x7d" ∧
      MovesOther {} "import Io;class A\x7bvoid f(void[] v)\x7bv[0]=Io.m()[0];\x7d\x7d" ∧
      MovesOther {} "class any\x7bint f()\x7breturn this;\x7d\x7d" ∧
      MovesOther {} "import A;class A\x7bvoid f(int k)\x7bA.f(true);\x7d\x7d" :=
  ⟨exists_of_movesOther movesOther_literals.1, exists_of_movesOther movesOther_literals.2,
    exists_of_movesOther movesOther_elements.1, exists_of_movesOther movesOther_elements.2,
    exists_of_movesOther movesOther_classes.1, exists_of_movesOther movesOther_classes.2⟩

end Lowers
end JmmCompiler

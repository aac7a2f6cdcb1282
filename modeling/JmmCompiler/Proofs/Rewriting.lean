import JmmCompiler.Checks.ControlFlow
import JmmCompiler.Proofs.Gathering
import JmmCompiler.Proofs.Simplifying
/-! What the stages before lowering do to a tree: expressions become constants, and calls of methods of the class
get other arguments. Statements keep their form, and no expression comes to have a type of the class or to lack a
value. -/
namespace JmmCompiler

theorem forall₂_comp {α β γ : Type} {R : α → β → Prop} {S : β → γ → Prop} {T : α → γ → Prop}
    (h : ∀ a b c, R a b → S b c → T a c) {as : List α} {bs : List β} {cs : List γ} (hR : List.Forall₂ R as bs)
    (hS : List.Forall₂ S bs cs) : List.Forall₂ T as cs := by
  induction hR generalizing cs with
  | nil =>
    cases hS
    exact .nil
  | cons hab _ ih =>
    cases hS with
    | cons hbc hrest => exact .cons (h _ _ _ hab hbc) (ih hrest)

namespace Ty

/-- The types of constants, and that of what cannot be known, with arrays of them. -/
def IsBasic (t : Ty) : Prop := t.name = "int" ∨ t.name = "boolean" ∨ t.name = "any"

/-- The type of a rewritten expression is the old one or, where constants are folded, a basic one. -/
def Settles (folds : Prop) (t t' : Ty) : Prop := t' = t ∨ folds ∧ t'.IsBasic

section
variable {folds : Prop} {t t' t'' : Ty}

theorem Settles.refl (folds : Prop) (t : Ty) : t.Settles folds t := .inl rfl

theorem Settles.trans (h : Settles folds t t') (h' : Settles folds t' t'') : Settles folds t t'' := by
  rcases h' with rfl | h'
  · exact h
  · exact .inr h'

theorem Settles.arrayOf (h : Settles folds t t') : Settles folds t.arrayOf t'.arrayOf := h.imp (congrArg _) id

theorem isBasic_any : any.IsBasic := .inr (.inr rfl)

theorem isBasic_int : int.IsBasic := .inl rfl

theorem isBasic_boolean : boolean.IsBasic := .inr (.inl rfl)

theorem Settles.indexed (h : Settles folds t t') : Settles folds t.indexed t'.indexed := by
  rcases h with rfl | ⟨hfolds, h⟩
  · exact .refl _ _
  · refine .inr ⟨hfolds, ?_⟩
    unfold Ty.indexed
    split
    · exact isBasic_any
    · exact h

theorem isBasic_foreign (name : String) (args : List Node) : (foreign name args).IsBasic := by
  unfold foreign
  split
  · exact isBasic_int
  · exact isBasic_any

theorem Settles.eq_void (h : Settles folds t void) : t = void := by
  rcases h with h | ⟨-, h | h | h⟩
  · exact h.symm
  · simp [void] at h
  · simp [void] at h
  · simp [void] at h

end

end Ty

namespace Node

/-- The kinds of what can become a constant. -/
def Evaluates (kind : Kind) : Prop := kind = .varRef ∨ kind = .paren ∨ kind = .unary ∨ kind = .binary

/-- What becomes of a tree in a method before it is lowered. Loops keep a condition and a body only, and nothing is
said of method declarations in the tree. -/
inductive Rewrites (folds : Prop) (t : SymbolTable) (method : Option String) : Node → Node → Prop
  | refl (n : Node) : Rewrites folds t method n n
  | trans {n n' n'' : Node} (h : Rewrites folds t method n n') (h' : Rewrites folds t method n' n'') :
      Rewrites folds t method n n''
  | child (kind : Kind) (attributes : Assoc Attribute) (before after : List Node) (p : Position) {c c' : Node}
      (h : Rewrites folds t method c c') :
      Rewrites folds t method ⟨kind, attributes, before ++ c :: after, p⟩ ⟨kind, attributes, before ++ c' :: after, p⟩
  | constant {n : Node} (hfolds : folds) (h : Evaluates n.kind) (c : Constant) (p : Position) :
      Rewrites folds t method n (c.node p)
  | gathered {attributes : Assoc Attribute} {receiver : Node} {args : List Node} {name : String} {m : MethodInfo}
      {p : Position} (hname : Node.name ⟨.call, attributes, receiver :: args, p⟩ = .ok name)
      (hm : t.method? name = some m) (hown : t.isOwnReceiver method receiver = .ok true) (args' : List Node)
      (hargs : ∀ c ∈ args', c ∈ args ∨ c.kind = .arrayLiteral ∧ ∀ e ∈ c.children, e ∈ args) :
      Rewrites folds t method ⟨.call, attributes, receiver :: args, p⟩ ⟨.call, attributes, receiver :: args', p⟩
  | trimmed (attributes : Assoc Attribute) (condition body : Node) (rest : List Node) (p : Position) :
      Rewrites folds t method ⟨.whileStmt, attributes, condition :: body :: rest, p⟩
        ⟨.whileStmt, attributes, [condition, body], p⟩
  | nested {n n' : Node} (h : n.kind = .methodDecl) (h' : n'.kind = .methodDecl) : Rewrites folds t method n n'

namespace Rewrites
variable {folds : Prop} {t : SymbolTable} {method : Option String} {n n' : Node} {cs cs' : List Node}

theorem forall₂_trans {cs cs' cs'' : List Node} (h : List.Forall₂ (Rewrites folds t method) cs cs')
    (h' : List.Forall₂ (Rewrites folds t method) cs' cs'') : List.Forall₂ (Rewrites folds t method) cs cs'' :=
  forall₂_comp (fun _ _ _ hc hc' => hc.trans hc') h h'

theorem children (h : List.Forall₂ (Rewrites folds t method) cs cs') (kind : Kind) (attributes : Assoc Attribute)
    (p : Position) : Rewrites folds t method ⟨kind, attributes, cs, p⟩ ⟨kind, attributes, cs', p⟩ := by
  have hall : ∀ before, Rewrites folds t method ⟨kind, attributes, before ++ cs, p⟩ ⟨kind, attributes, before ++ cs', p⟩ := by
    induction h with
    | nil => exact fun before => .refl _
    | @cons c c' cs cs' hc _ ih =>
      intro before
      refine (child kind attributes before cs p hc).trans ?_
      simpa using ih (before ++ [c'])
  exact hall []

theorem forall₂_refl (cs : List Node) : List.Forall₂ (Rewrites folds t method) cs cs :=
  List.forall₂_same.2 fun c _ => .refl c

theorem kind_node (c : Constant) (p : Position) :
    (c.node p).kind = .intLiteral ∨ (c.node p).kind = .boolLiteral := by
  cases c with
  | int n => exact .inl rfl
  | bool b => exact .inr rfl

/-- A tree keeps its kind unless it becomes a constant. -/
theorem kind_eq (h : Rewrites folds t method n n') :
    n'.kind = n.kind ∨ Evaluates n.kind ∧ (n'.kind = .intLiteral ∨ n'.kind = .boolLiteral) := by
  induction h with
  | refl n => exact .inl rfl
  | trans h h' ih ih' =>
    rcases ih' with heq | ⟨heval, hlit⟩
    · rwa [heq]
    · rcases ih with heq | ⟨-, hlit'⟩
      · exact .inr ⟨heq ▸ heval, hlit⟩
      · rcases hlit' with hlit' | hlit' <;> simp [Evaluates, hlit'] at heval
  | child kind attributes before after p h ih => exact .inl rfl
  | constant hfolds h c p => exact .inr ⟨h, kind_node c p⟩
  | gathered hname hm hown args' hargs => exact .inl rfl
  | trimmed attributes condition body rest p => exact .inl rfl
  | nested h h' => exact .inl (h'.trans h.symm)

/-- Statements keep their form: only what is in them is rewritten. -/
theorem parts (h : Rewrites folds t method n n') (hkind : n.kind.isStatement = true) (hloop : n.kind ≠ .whileStmt) :
    n'.kind = n.kind ∧ List.Forall₂ (Rewrites folds t method) n.children n'.children := by
  induction h with
  | refl n => exact ⟨rfl, forall₂_refl _⟩
  | trans h h' ih ih' =>
    obtain ⟨heq, hparts⟩ := ih hkind hloop
    obtain ⟨heq', hparts'⟩ := ih' (heq ▸ hkind) (heq ▸ hloop)
    exact ⟨heq'.trans heq, forall₂_trans hparts hparts'⟩
  | child kind attributes before after p h ih =>
    exact ⟨rfl, List.rel_append (forall₂_refl before) (.cons h (forall₂_refl after))⟩
  | constant hfolds h c p => rcases h with h | h | h | h <;> simp [h, Kind.isStatement] at hkind
  | gathered hname hm hown args' hargs => cases hkind
  | trimmed attributes condition body rest p => exact absurd rfl hloop
  | nested h h' => simp [h, Kind.isStatement] at hkind

/-- What is in a statement was in it before. -/
theorem exists_part (h : Rewrites folds t method n n') (hkind : n.kind.isStatement = true) :
    n'.kind = n.kind ∧ ∀ c' ∈ n'.children, ∃ c ∈ n.children, Rewrites folds t method c c' := by
  induction h with
  | refl n => exact ⟨rfl, fun c hc => ⟨c, hc, .refl c⟩⟩
  | trans h h' ih ih' =>
    obtain ⟨heq, hparts⟩ := ih hkind
    obtain ⟨heq', hparts'⟩ := ih' (heq ▸ hkind)
    refine ⟨heq'.trans heq, fun c'' hc'' => ?_⟩
    obtain ⟨c', hc', hrest⟩ := hparts' c'' hc''
    obtain ⟨c, hc, hfirst⟩ := hparts c' hc'
    exact ⟨c, hc, hfirst.trans hrest⟩
  | @child kind attributes before after p c c' h ih =>
    refine ⟨rfl, fun d hd => ?_⟩
    simp only [List.mem_append, List.mem_cons] at hd ⊢
    rcases hd with hd | rfl | hd
    · exact ⟨d, .inl hd, .refl d⟩
    · exact ⟨c, .inr (.inl rfl), h⟩
    · exact ⟨d, .inr (.inr hd), .refl d⟩
  | constant hfolds h c p => rcases h with h | h | h | h <;> simp [h, Kind.isStatement] at hkind
  | gathered hname hm hown args' hargs => cases hkind
  | trimmed attributes condition body rest p =>
    refine ⟨rfl, fun c hc => ⟨c, ?_, .refl c⟩⟩
    rcases List.mem_cons.1 hc with rfl | hc
    · simp
    · simp [List.mem_singleton.1 hc]
  | nested h h' => simp [h, Kind.isStatement] at hkind

/-- What becomes of a tree is a statement of a kind only if the tree is. -/
theorem kind_of_isStatement (h : Rewrites folds t method n n') (hkind : n'.kind.isStatement = true) : n.kind = n'.kind := by
  rcases h.kind_eq with heq | ⟨-, hlit | hlit⟩
  · exact heq.symm
  · rw [hlit] at hkind
    cases hkind
  · rw [hlit] at hkind
    cases hkind

theorem forall₂_statements (h : List.Forall₂ (Rewrites folds t method) cs cs') :
    List.Forall₂ (Rewrites folds t method) (cs.filter (·.kind.isStatement)) (cs'.filter (·.kind.isStatement)) := by
  induction h with
  | nil => exact .nil
  | @cons c c' cs cs' hc _ ih =>
    have hsame : c'.kind.isStatement = c.kind.isStatement := by
      rcases hc.kind_eq with heq | ⟨heval, hlit⟩
      · rw [heq]
      · rcases heval with h | h | h | h <;> rcases hlit with h' | h' <;> rw [h, h'] <;> rfl
    rw [List.filter_cons, List.filter_cons, hsame]
    split
    · exact .cons hc ih
    · exact ih

theorem isReturn_iff (h : Rewrites folds t method n n') : n'.kind = .returnStmt ↔ n.kind = .returnStmt := by
  rcases h.kind_eq with heq | ⟨heval, hlit⟩
  · rw [heq]
  · rcases heval with h | h | h | h <;> rcases hlit with h' | h' <;> simp [h, h']

theorem anyCompletes_eq (h : List.Forall₂ (fun c c' : Node => c'.completes = c.completes) cs cs') :
    anyCompletes cs' = anyCompletes cs := by
  induction h with
  | nil => rfl
  | cons hc _ ih => rw [anyCompletes, anyCompletes, hc, ih]

/-- Where every path ended in a return it still does. -/
theorem completes_eq (h : Rewrites folds t method n n') : n'.completes = n.completes := by
  induction n using Node.induction_children generalizing n' with
  | step n ih =>
    have hother {n : Node} (hkind : n.kind ≠ .returnStmt ∧ n.kind ≠ .block ∧ n.kind ≠ .ifStmt) :
        n.completes = false := by
      obtain ⟨kind, attributes, children, p⟩ := n
      cases kind <;> first | rfl | simp at hkind
    by_cases hkind : n.kind = .returnStmt ∨ n.kind = .block ∨ n.kind = .ifStmt
    · have hstatement : n.kind.isStatement = true ∧ n.kind ≠ .whileStmt := by
        rcases hkind with h | h | h <;> simp [h, Kind.isStatement]
      obtain ⟨heq, hparts⟩ := h.parts hstatement.1 hstatement.2
      obtain ⟨kind, attributes, children, p⟩ := n
      obtain ⟨kind', attributes', children', p'⟩ := n'
      obtain rfl : kind' = kind := heq
      have hsame : List.Forall₂ (fun c c' : Node => c'.completes = c.completes) children children' :=
        ((List.forall₂_and_left children children').2 ⟨@ih, hparts⟩).imp fun c c' hc => hc.1 hc.2
      rcases hkind with rfl | rfl | rfl
      · rfl
      · exact anyCompletes_eq hsame
      · rcases hsame with _ | ⟨_, _ | ⟨hthen, _ | ⟨helse, _ | ⟨_, _⟩⟩⟩⟩
        · rfl
        · rfl
        · rfl
        · rw [completes, completes, hthen, helse]
        · rfl
    · rw [not_or, not_or] at hkind
      rw [hother hkind]
      refine hother ⟨fun h' => ?_, fun h' => ?_, fun h' => ?_⟩
      · exact hkind.1 ((h.kind_of_isStatement (by rw [h']; rfl)).trans h')
      · exact hkind.2.1 ((h.kind_of_isStatement (by rw [h']; rfl)).trans h')
      · exact hkind.2.2 ((h.kind_of_isStatement (by rw [h']; rfl)).trans h')

/-! ## Types -/

/-- The type of an expression depends on its first child, and on the number of children. -/
theorem typeOf_congr (kind : Kind) (attributes : Assoc Attribute) (c : Node) (hlength : cs.length = cs'.length)
    (p p' : Position) :
    t.typeOf method ⟨kind, attributes, c :: cs, p⟩ = t.typeOf method ⟨kind, attributes, c :: cs', p'⟩ := by
  rw [SymbolTable.typeOf.eq_def, SymbolTable.typeOf.eq_def]
  cases kind with
  | call =>
    simp only [List.length_cons, hlength]
    rfl
  | _ => rfl

/-- What is known of the type of a rewritten expression. -/
def Settled (folds : Prop) (t : SymbolTable) (method : Option String) (n n' : Node) : Prop :=
  ∀ type, t.typeOf method n = .ok type → ∃ type', t.typeOf method n' = .ok type' ∧ type.Settles folds type'

theorem Settled.of_eq (h : t.typeOf method n' = t.typeOf method n) : Settled folds t method n n' :=
  fun type htype => ⟨type, h.trans htype, .refl _ _⟩

/-- The type of a call is that of the method that it reaches, or a basic one. -/
theorem typeOf_call_eq_ok {attributes : Assoc Attribute} {receiver : Node} {args : List Node} {p : Position}
    {type : Ty} : t.typeOf method ⟨.call, attributes, receiver :: args, p⟩ = .ok type ↔
      ∃ name, Node.name ⟨.call, attributes, receiver :: args, p⟩ = .ok name ∧
        match t.method? name with
        | none => type = Ty.foreign name args
        | some m => ∃ receiverType, t.typeOf method receiver = .ok receiverType ∧
            type = if receiverType = t.classType then m.returnType else Ty.foreign name args := by
  have hname : Node.name ⟨.call, attributes, receiver :: args, p⟩ = Node.name ⟨.call, attributes, [], p⟩ := rfl
  rw [SymbolTable.typeOf.eq_def, hname]
  simp only [bind_eq_ok]
  refine exists_congr fun name => and_congr_right fun _ => ?_
  cases hm : t.method? name with
  | none =>
    dsimp only
    rw [pure_eq_ok, eq_comm]
    simp [Ty.foreign]
  | some m =>
    dsimp only
    by_cases hkind : receiver.kind = .thisRef
    · rw [if_pos hkind, pure_eq_ok, t.typeOf_thisRef method hkind]
      simpa using eq_comm
    · rw [if_neg hkind, bind_eq_ok]
      refine exists_congr fun receiverType => and_congr_right fun _ => ?_
      by_cases htype : receiverType = t.classType
      · simpa [htype] using eq_comm
      · simpa [htype, Ty.foreign] using eq_comm

/-- A node whose first child is rewritten. -/
theorem settled_first (hclass : folds → ¬t.classType.IsBasic) {c c' : Node} (h : Settled folds t method c c') (kind : Kind)
    (attributes : Assoc Attribute) (cs : List Node) (p : Position) :
    Settled folds t method ⟨kind, attributes, c :: cs, p⟩ ⟨kind, attributes, c' :: cs, p⟩ := by
  intro type htype
  cases kind with
  | paren => exact h type htype
  | arrayLiteral =>
    rw [SymbolTable.typeOf.eq_def] at htype ⊢
    dsimp only at htype ⊢
    split at htype
    · simp only [bind_eq_ok, pure_eq_ok] at htype ⊢
      obtain ⟨first, hfirst, rfl⟩ := htype
      obtain ⟨first', hfirst', hsettles⟩ := h first hfirst
      exact ⟨_, ⟨first', hfirst', rfl⟩, hsettles.arrayOf⟩
    · simp only [bind_eq_ok, pure_eq_ok] at htype ⊢
      obtain ⟨first, hfirst, rfl⟩ := htype
      obtain ⟨first', hfirst', hsettles⟩ := h first hfirst
      exact ⟨_, ⟨first', hfirst', rfl⟩, hsettles.arrayOf⟩
    · exact ⟨type, htype, .refl _ _⟩
  | arrayAccess =>
    rw [SymbolTable.typeOf.eq_def] at htype ⊢
    simp only [bind_eq_ok, pure_eq_ok] at htype ⊢
    obtain ⟨array, harray, rfl⟩ := htype
    obtain ⟨array', harray', hsettles⟩ := h array harray
    exact ⟨_, ⟨array', harray', rfl⟩, hsettles.indexed⟩
  | call =>
    simp only [typeOf_call_eq_ok] at htype ⊢
    obtain ⟨name, hname, htype⟩ := htype
    cases hm : t.method? name with
    | none =>
      rw [hm] at htype
      exact ⟨type, ⟨name, hname, by rwa [hm]⟩, .refl _ _⟩
    | some m =>
      rw [hm] at htype
      obtain ⟨receiverType, hreceiver, rfl⟩ := htype
      obtain ⟨receiverType', hreceiver', hsettles⟩ := h receiverType hreceiver
      refine ⟨_, ⟨name, hname, by rw [hm]; exact ⟨receiverType', hreceiver', rfl⟩⟩, ?_⟩
      rcases hsettles with rfl | ⟨hfolds, hbasic⟩
      · exact .refl _ _
      · rw [if_neg fun heq : receiverType' = t.classType => hclass hfolds (heq ▸ hbasic)]
        exact .inr ⟨hfolds, Ty.isBasic_foreign name cs⟩
  | _ => exact ⟨type, htype, .refl _ _⟩

/-- A rewritten expression has its old type or a basic one. -/
theorem settled (hclass : folds → ¬t.classType.IsBasic) (h : Rewrites folds t method n n') : Settled folds t method n n' := by
  induction h with
  | refl n => exact .of_eq rfl
  | trans h h' ih ih' =>
    intro type htype
    obtain ⟨type', htype', hsettles⟩ := ih type htype
    obtain ⟨type'', htype'', hsettles'⟩ := ih' type' htype'
    exact ⟨type'', htype'', hsettles.trans hsettles'⟩
  | child kind attributes before after p h ih =>
    cases before with
    | nil => exact settled_first hclass ih kind attributes after p
    | cons first before => exact .of_eq (typeOf_congr kind attributes first (by simp) p p)
  | constant hfolds h c p =>
    intro type htype
    cases c with
    | int n => exact ⟨.int, rfl, .inr ⟨hfolds, Ty.isBasic_int⟩⟩
    | bool b => exact ⟨.boolean, rfl, .inr ⟨hfolds, Ty.isBasic_boolean⟩⟩
  | @gathered attributes receiver args name m p hname hm hown args' hargs =>
    have hreceiver : t.typeOf method receiver = .ok t.classType := by
      by_cases hkind : receiver.kind = .thisRef
      · exact t.typeOf_thisRef method hkind
      · simpa [SymbolTable.isOwnReceiver, hkind, map_eq_ok] using hown
    have htype (args : List Node) : t.typeOf method ⟨.call, attributes, receiver :: args, p⟩ = .ok m.returnType := by
      refine typeOf_call_eq_ok.2 ⟨name, hname, ?_⟩
      rw [hm]
      exact ⟨_, hreceiver, (if_pos rfl).symm⟩
    exact .of_eq ((htype args').trans (htype args).symm)
  | trimmed attributes condition body rest p =>
    intro type htype
    cases htype
  | nested h h' =>
    rename_i n n'
    intro type htype
    obtain ⟨kind, attributes, children, p⟩ := n
    obtain rfl : kind = .methodDecl := h
    cases htype

end Rewrites

/-! ## What rewrites -/

section
variable {folds : Prop} {t : SymbolTable} {method : Option String} {K : Constant → Prop} {n n' : Node} {cs cs' : List Node}

/-- Children that are rewritten one by one. -/
theorem forall₂_of_mapM {f : Node → Except Failure Node} (h : cs.mapM f = .ok cs')
    (hf : ∀ c ∈ cs, ∀ c', f c = .ok c' → Rewrites folds t method c c') : List.Forall₂ (Rewrites folds t method) cs cs' := by
  have hall := mapM_eq_ok_iff.1 h
  exact ((List.forall₂_and_left cs cs').2 ⟨hf, hall⟩).imp fun c c' hc => hc.1 c' hc.2

theorem Reduces.evaluates {c : Constant} (h : n.Reduces c) : Evaluates n.kind := by cases h <;> simp [Evaluates]

theorem Simplifies.rewrites (hfolds : folds) (h : Simplifies K n n') : Rewrites folds t method n n' := by
  induction h with
  | child kind attributes before after p h ih => exact .child kind attributes before after p ih
  | read attributes children p hc => exact .constant hfolds (.inl rfl) _ p
  | reduce h => exact .constant hfolds h.evaluates _ _
  | trim attributes condition body next rest p => exact .trimmed attributes condition body (next :: rest) p

/-- Folding and propagation rewrite. -/
theorem Simplified.rewrites (hfolds : folds) (h : Simplified K n n') : Rewrites folds t method n n' := by
  induction h with
  | refl => exact .refl _
  | tail _ hstep ih => exact ih.trans (hstep.rewrites hfolds)

theorem normalizeAllVarargs_eq_mapM (t : SymbolTable) (method : Option String) (cs : List Node) :
    t.normalizeAllVarargs method cs = cs.mapM (t.normalizeVarargs method) := by
  induction cs with
  | nil => rfl
  | cons c cs ih => rw [SymbolTable.normalizeAllVarargs, ih, List.mapM_cons]

theorem rewrites_normalizeCall {attributes : Assoc Attribute} {p : Position}
    (h : t.normalizeCall method ⟨.call, attributes, cs, p⟩ = .ok n') :
    Rewrites folds t method ⟨.call, attributes, cs, p⟩ n' := by
  rcases SymbolTable.normalizeCall_cases h with rfl | ⟨receiver, args, m, last, rfl, ⟨⟨name, hname, hm⟩, hown⟩, -, -, rfl⟩
  · exact .refl _
  · refine .gathered hname hm hown _ fun c hc => ?_
    rcases List.mem_append.1 hc with hc | hc
    · exact .inl (List.mem_of_mem_take hc)
    · obtain rfl := List.mem_singleton.1 hc
      exact .inr ⟨rfl, fun e he => List.mem_of_mem_drop he⟩

/-- The name of the method that the children of a node belong to, where the node is in a method itself. -/
def nameBelow (outer : Option String) (n : Node) : Except Failure (Option String) :=
  if n.kind = .methodDecl then n.name? else .ok outer

end

end Node

namespace SymbolTable
variable {t : SymbolTable} {outer : Option String} {kind : Kind} {attributes : Assoc Attribute} {cs : List Node} {p : Position}
  {n n' : Node}

/-- What becomes of a node: its children are rewritten in the method that they belong to, then a call is normalized. -/
theorem normalizeVarargs_eq_ok : t.normalizeVarargs outer ⟨kind, attributes, cs, p⟩ = .ok n' ↔
    ∃ below cs', Node.nameBelow outer ⟨kind, attributes, cs, p⟩ = .ok below ∧
      cs.mapM (t.normalizeVarargs below) = .ok cs' ∧
      if kind = .call then t.normalizeCall below ⟨kind, attributes, cs', p⟩ = .ok n'
      else n' = ⟨kind, attributes, cs', p⟩ := by
  have hname : Node.name? ⟨kind, attributes, [], p⟩ = Node.name? ⟨kind, attributes, cs, p⟩ := rfl
  rw [normalizeVarargs, hname]
  simp only [Node.normalizeAllVarargs_eq_mapM, Node.nameBelow]
  by_cases hdecl : kind = .methodDecl
  · subst hdecl
    simp only [if_true, reduceCtorEq, if_false, bind_eq_ok, pure_eq_ok, exists_and_left, eq_comm (b := n')]
  · by_cases hcall : kind = .call
    · simp only [hcall, if_true, if_false, bind_eq_ok, pure_eq_ok, Except.ok.injEq, exists_eq_left', exists_and_left,
        reduceCtorEq]
    · simp only [hdecl, hcall, if_false, bind_eq_ok, pure_eq_ok, Except.ok.injEq, exists_eq_left', exists_and_left,
        eq_comm (b := n')]

theorem kind_normalizeVarargs (h : t.normalizeVarargs outer n = .ok n') :
    n'.kind = n.kind ∧ n'.attributes = n.attributes := by
  obtain ⟨kind, attributes, cs, p⟩ := n
  obtain ⟨below, cs', -, -, h⟩ := normalizeVarargs_eq_ok.1 h
  split at h
  · rename_i hkind
    subst hkind
    rcases normalizeCall_cases h with rfl | ⟨receiver, args, m, last, -, -, -, -, rfl⟩ <;> exact ⟨rfl, rfl⟩
  · rw [h]
    exact ⟨rfl, rfl⟩

end SymbolTable

/-- Nothing is said of the method declarations in a tree, which are normal by their own names. -/
theorem Node.rewrites_normalizeVarargs {t : SymbolTable} {method : Option String} {n n' : Node} {folds : Prop}
    (h : t.normalizeVarargs method n = .ok n') : Rewrites folds t method n n' := by
  induction n using Node.induction_children generalizing n' with
  | step n ih =>
    obtain ⟨kind, attributes, children, p⟩ := n
    obtain ⟨below, children', hbelow, hchildren, h⟩ := SymbolTable.normalizeVarargs_eq_ok.1 h
    by_cases hdecl : kind = .methodDecl
    · subst hdecl
      rw [if_neg (by simp)] at h
      subst h
      exact .nested rfl rfl
    obtain rfl : method = below := Except.ok.inj ((if_neg hdecl).symm.trans hbelow)
    have hparts := Rewrites.children (forall₂_of_mapM hchildren fun c hc c' hc' => ih c hc hc') kind attributes p
    split at h
    · rename_i hcall
      subst hcall
      exact hparts.trans (rewrites_normalizeCall h)
    · subst h
      exact hparts

end JmmCompiler

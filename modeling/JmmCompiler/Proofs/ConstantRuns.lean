import JmmCompiler.Proofs.ConstantValues
/-! Runs of statements whose constants are folded. The bindings at a place of a method hold in every store that a run
comes to that place with, and so a run does not change when variables become the constants that they hold. -/
namespace JmmCompiler

namespace Act
variable {W α β : Type} {x : Act W α} {P Q : α → Prop}

/-- Whatever a computation gives has a property. -/
def Yields (x : Act W α) (P : α → Prop) : Prop := ∀ w a w', runOn x w = (.ok a, w') → P a

theorem yields_pure {a : α} (h : P a) : (pure a : Act W α).Yields P := by
  intro w b w' hb
  obtain ⟨rfl, rfl⟩ : a = b ∧ w = w' := by simpa using hb
  exact h

theorem yields_throw (trap : Trap) : (throw trap : Act W α).Yields P := by
  intro w a w' ha
  simp at ha

theorem yields_true (x : Act W α) : x.Yields fun _ => True := fun _ _ _ _ => trivial

theorem Yields.imp (h : x.Yields P) (hPQ : ∀ a, P a → Q a) : x.Yields Q := fun w a w' ha => hPQ a (h w a w' ha)

theorem Yields.bind {f : α → Act W β} {R : β → Prop} (h : x.Yields P) (hf : ∀ a, P a → (f a).Yields R) :
    (x >>= f).Yields R := by
  intro w b w' hb
  obtain ⟨a, w₁, ha, hrest⟩ := runOn_bind_eq_ok.1 hb
  exact hf a (h _ _ _ ha) _ _ _ hrest

/-- What comes after a computation matters for what the computation gives only. -/
theorem Yields.bind_congr {f g : α → Act W β} (h : x.Yields P) (hfg : ∀ a, P a → f a = g a) : (x >>= f) = (x >>= g) := by
  funext w
  change runOn (x >>= f) w = runOn (x >>= g) w
  rw [runOn_bind, runOn_bind]
  rcases hx : runOn x w with ⟨_ | a, w'⟩
  · rfl
  · exact congrFun (hfg a (h _ _ _ hx)) w'

end Act

namespace Flow
variable {W : Type} {P : Store → Prop}

/-- Where a statement leads on, it does with a store that has a property. -/
def Leads (P : Store → Prop) : Flow → Prop
  | next store => P store
  | returned _ | exhausted => True

theorem Leads.imp {Q : Store → Prop} {flow : Flow} (h : flow.Leads P) (hPQ : ∀ store, P store → Q store) : flow.Leads Q := by
  cases flow with
  | next store => exact hPQ store h
  | returned value => trivial
  | exhausted => trivial

theorem yields_sequence {parts : List (Store → Act W Flow)}
    (h : ∀ part ∈ parts, ∀ store, P store → (part store).Yields (Leads P)) {store : Store} (hstore : P store) :
    (sequence parts store).Yields (Leads P) := by
  induction parts generalizing store with
  | nil => exact Act.yields_pure hstore
  | cons part parts ih =>
    refine (h part (by simp) store hstore).bind fun flow hflow => ?_
    cases flow with
    | next store' => exact ih (fun part hpart => h part (by simp [hpart])) hflow
    | returned value => exact Act.yields_pure trivial
    | exhausted => exact Act.yields_pure trivial

theorem yields_loop {test : Store → Act W Bool} {body : Store → Act W Flow}
    (h : ∀ store, P store → (body store).Yields (Leads P)) (rounds : Nat) {store : Store} (hstore : P store) :
    (loop test body rounds store).Yields (Leads P) := by
  induction rounds generalizing store with
  | zero => exact Act.yields_pure trivial
  | succ n ih =>
    refine (Act.yields_true _).bind fun taken _ => ?_
    cases taken with
    | false => exact Act.yields_pure hstore
    | true =>
      refine (h store hstore).bind fun flow hflow => ?_
      cases flow with
      | next store' => exact ih hflow
      | returned value => exact Act.yields_pure trivial
      | exhausted => exact Act.yields_pure trivial

/-- Loops are the same whose rounds are, as long as the stores have a property that a round keeps. -/
theorem loop_congr {test test' : Store → Act W Bool} {body body' : Store → Act W Flow}
    (h : ∀ store, P store → test' store = test store ∧ body' store = body store ∧ (body store).Yields (Leads P))
    (rounds : Nat) {store : Store} (hstore : P store) : loop test' body' rounds store = loop test body rounds store := by
  induction rounds generalizing store with
  | zero => rfl
  | succ n ih =>
    obtain ⟨htest, hbody, hyields⟩ := h store hstore
    rw [loop, loop, htest, hbody]
    refine (Act.yields_true _).bind_congr fun taken _ => ?_
    cases taken with
    | false => rfl
    | true =>
      refine hyields.bind_congr fun flow hflow => ?_
      cases flow with
      | next store' => exact ih hflow
      | returned value => rfl
      | exhausted => rfl

end Flow

/-! ## What statements assign -/

namespace Node
variable {n c : Node} {name : String}

/-- Somewhere in a tree a variable is assigned. -/
def Assigns (n : Node) (name : String) : Prop :=
  ∃ path d, n.at? path = some d ∧ d.kind = .assign ∧ d.assignedName? = .ok (some name)

theorem Assigns.of_child (hc : c ∈ n.children) (h : c.Assigns name) : n.Assigns name := by
  obtain ⟨path, d, hat, hd⟩ := h
  obtain ⟨i, hi⟩ := List.getElem?_of_mem hc
  exact ⟨i :: path, d, by simp [at?, hi, hat], hd⟩

/-- All that is assigned in a tree is collected. -/
theorem Assigns.mem_assignedNames {names : List String} (h : n.Assigns name) (hnames : n.assignedNames = .ok names) :
    name ∈ names := by
  obtain ⟨path, d, hat, hkind, hname⟩ := h
  obtain ⟨below, hbelow, own, hown, rfl⟩ : ∃ below, (n.descendants [.assign]).mapM (fun v => v.2.assignedName?) = .ok below ∧
      ∃ own, (if n.kind = .assign then n.assignedName? else pure none) = .ok own ∧ (below ++ [own]).filterMap id = names := by
    unfold assignedNames at hnames
    by_cases hassign : n.kind = .assign
    · simpa only [hassign, if_true, bind_eq_ok, pure_eq_ok] using hnames
    · simpa only [hassign, if_false, bind_eq_ok, pure_eq_ok] using hnames
  refine List.mem_filterMap.2 ⟨some name, List.mem_append.2 ?_, rfl⟩
  cases path with
  | nil =>
    obtain rfl : n = d := by simpa [at?] using hat
    rw [if_pos hkind, hname] at hown
    exact .inr (List.mem_singleton.2 (Except.ok.inj hown))
  | cons i path =>
    obtain ⟨c, hc, hat⟩ := Option.bind_eq_some_iff.1 (show n.children[i]?.bind (·.at? path) = some d from hat)
    have hlocated : (([] : Path) ++ [i], c) ∈ located [] n :=
      List.mem_map.2 ⟨(c, i), by simpa [List.mem_zipIdx_iff_getElem?] using hc, rfl⟩
    have hdescends : ([] ++ [i] ++ path, d) ∈ n.descendants [.assign] :=
      List.mem_filter.2 ⟨mem_visit hlocated hat, by simp [hkind]⟩
    obtain ⟨found, hfound, heq⟩ := exists_of_mapM hbelow hdescends
    obtain rfl := Except.ok.inj (heq.symm.trans hname)
    exact .inl hfound

end Node

/-! ## Bindings that hold -/

namespace Bindings
variable {scope : List String} {b b' : Bindings} {store store' : Store} {name : String}

/-- Each variable is one of the method, and it is bound once and to a literal. -/
structure Within (scope : List String) (b : Bindings) : Prop where
  nodup : b.keys.Nodup
  scope : ∀ e ∈ b.entries, e.1 ∈ scope
  literal : ∀ e ∈ b.entries, ∃ (c : Constant) (p : Position), e.2 = c.node p

/-- The variables of a store have the values of the constants that they are bound to. -/
def Hold (store : Store) (b : Bindings) : Prop :=
  ∀ e ∈ b.entries, ∀ c, e.2.constant? = .ok (some c) → store.vars e.1 = c.value

theorem eq_of_same {c c' : Constant} {p p' : Position} (h : (c.node p).same (c'.node p') = true) : c = c' := by
  cases c <;> cases c' <;>
    simp_all [Constant.node, Node.same, Node.sameAttributes, Node.sameAll, Assoc.size, Assoc.find?, Assoc.findEntry, Json.same]

theorem within_empty (scope : List String) : Within scope {} := ⟨List.nodup_nil, by simp, by simp⟩

theorem hold_empty (store : Store) : Hold store {} := by simp [Hold]

theorem Within.filter (h : b.Within scope) (p : String × Node → Bool) : Within scope ⟨b.entries.filter p⟩ :=
  ⟨(List.filter_sublist.map Prod.fst).nodup h.nodup, fun e he => h.scope e (List.mem_of_mem_filter he),
    fun e he => h.literal e (List.mem_of_mem_filter he)⟩

theorem Hold.filter (h : b.Hold store) (p : String × Node → Bool) : Hold store ⟨b.entries.filter p⟩ :=
  fun e he => h e (List.mem_of_mem_filter he)

/-- Variables that are not bound may change. -/
theorem Hold.of_eq (h : b.Hold store) (hstore : ∀ e ∈ b.entries, store'.vars e.1 = store.vars e.1) : b.Hold store' := by
  intro e he c hc
  rw [hstore e he]
  exact h e he c hc

theorem mem_eraseAll {names : List String} {e : String × Node} :
    e ∈ (b.eraseAll names).entries ↔ e ∈ b.entries ∧ e.1 ∉ names := by
  induction names generalizing b with
  | nil => simp [eraseAll]
  | cons name names ih =>
    rw [eraseAll, List.foldl_cons, ← eraseAll, ih]
    simp [Assoc.erase, and_assoc]

theorem Within.eraseAll (h : b.Within scope) (names : List String) : Within scope (b.eraseAll names) := by
  induction names generalizing b with
  | nil => exact h
  | cons name names ih => exact ih (h.filter _)

theorem Hold.eraseAll (h : b.Hold store) (names : List String) : Hold store (b.eraseAll names) := fun e he =>
  h e (mem_eraseAll.1 he).1

/-- Bindings that agree with those that hold do hold. -/
theorem Hold.merge (hb : b.Within scope) (hb' : b'.Within scope) (h : b'.Hold store) : Hold store (b.merge b') := by
  intro e he c hc
  obtain ⟨hmem, hsame⟩ := List.mem_filter.1 he
  obtain ⟨c₁, p, heq⟩ := hb.literal e hmem
  rw [heq, Node.constant?_node] at hc
  obtain rfl := Option.some.inj (Except.ok.inj hc)
  cases hfind : b'.find? e.1 with
  | none => simp [hfind] at hsame
  | some n =>
    have hbound := Assoc.mem_of_findEntry hfind
    obtain ⟨c₂, p', rfl⟩ := hb'.literal _ hbound
    simp only [hfind, Option.any_some, heq] at hsame
    rw [h _ hbound c₂ (Node.constant?_node c₂ p'), eq_of_same hsame]

theorem mem_insert (h : b.keys.Nodup) {n : Node} {e : String × Node} (he : e ∈ (b.insert name n).entries) :
    e = (name, n) ∨ e ∈ b.entries ∧ e.1 ≠ name := by
  obtain ⟨entries⟩ := b
  simp only [Assoc.insert, Assoc.keys] at h he ⊢
  induction entries with
  | nil => exact .inl (List.mem_singleton.1 he)
  | cons first rest ih =>
    obtain ⟨hout, hnodup⟩ := List.nodup_cons.1 h
    rw [Assoc.insertEntry] at he
    split at he
    · rename_i hname
      rcases List.mem_cons.1 he with rfl | he
      · exact .inl rfl
      · refine .inr ⟨List.mem_cons_of_mem _ he, fun heq => hout ?_⟩
        exact List.mem_map.2 ⟨e, he, heq.trans hname.symm⟩
    · rename_i hname
      rcases List.mem_cons.1 he with rfl | he
      · exact .inr ⟨List.mem_cons_self, hname⟩
      · exact (ih hnodup he).imp_right fun h => ⟨List.mem_cons_of_mem _ h.1, h.2⟩

/-- The bindings after an assignment hold in the store after it. -/
theorem assign_spec {value : Node} {c? : Option Constant} (hb : b.Within scope) (hname : name ∈ scope)
    (hvalue : value.constant? = .ok c?) (hliteral : ∀ c, c? = some c → ∃ p, value = c.node p) :
    ∃ b', b.assign name value = .ok b' ∧ b'.Within scope ∧ ∀ (store : Store) (v : Value), b.Hold store →
      (∀ c, c? = some c → v = c.value) → b'.Hold (store.set name v) := by
  have hother (store : Store) (v : Value) {x : String} (hx : x ≠ name) : (store.set name v).vars x = store.vars x :=
    Function.update_of_ne hx _ _
  rw [assign, hvalue, ok_bind]
  cases c? with
  | none =>
    refine ⟨_, rfl, hb.filter _, fun store v hstore _ e he c hc => ?_⟩
    obtain ⟨hmem, hne⟩ := List.mem_filter.1 he
    rw [hother store v (by simpa using hne)]
    exact hstore e hmem c hc
  | some c =>
    obtain ⟨p, rfl⟩ := hliteral c rfl
    refine ⟨_, rfl, ⟨Assoc.nodup_keys_insert hb.nodup _ _, fun e he => ?_, fun e he => ?_⟩,
      fun store v hstore hv e he c' hc' => ?_⟩
    · rcases mem_insert hb.nodup he with rfl | ⟨he, -⟩
      · exact hname
      · exact hb.scope e he
    · rcases mem_insert hb.nodup he with rfl | ⟨he, -⟩
      · exact ⟨c, p, rfl⟩
      · exact hb.literal e he
    · rcases mem_insert hb.nodup he with rfl | ⟨he, hne⟩
      · obtain rfl := Option.some.inj (Except.ok.inj ((Node.constant?_node c p).symm.trans hc'))
        exact (Function.update_self _ _ _).trans (hv c rfl)
      · rw [hother store v hne]
        exact hstore e he c' hc'

end Bindings

/-! ## What statements do -/

namespace SymbolTable
variable {t : SymbolTable} {method : String} {W : Type} {ask : Query → Act W Value} {rounds : Nat} {store : Store}
  {kind : Kind} {attributes : Assoc Attribute} {cs cs' : List Node} {p : Position} {n n' : Node}

theorem plainExec_block : t.plainExec method ask rounds ⟨.block, attributes, cs, p⟩ store =
    Flow.sequence (cs.map (t.plainExec method ask rounds)) store := by
  rw [plainExec_eq]
  rfl

theorem plainExec_assign (target value : Node) :
    t.plainExec method ask rounds ⟨.assign, attributes, [target, value], p⟩ store =
      if target.kind = .varRef then do
        let name ← Act.ofExcept target.name
        t.assignVariable method ask store name (← t.plainEval method ask store value)
      else throw .fault := by
  rw [plainExec_eq]
  rfl

theorem plainExec_assign_congr {target target' value value' : Node}
    (htarget : (target'.kind = .varRef ↔ target.kind = .varRef) ∧ (target.kind = .varRef → target'.name = target.name))
    (hvalue : t.SameValue method ask store value value') :
    t.plainExec method ask rounds ⟨.assign, attributes, [target', value'], p⟩ store =
      t.plainExec method ask rounds ⟨.assign, attributes, [target, value], p⟩ store := by
  rw [plainExec_assign, plainExec_assign, hvalue.value]
  by_cases hvar : target.kind = .varRef
  · rw [if_pos hvar, if_pos (htarget.1.2 hvar), htarget.2 hvar]
  · rw [if_neg hvar, if_neg (fun hvar' => hvar (htarget.1.1 hvar'))]

theorem plainExec_ifThen (c n : Node) : t.plainExec method ask rounds ⟨.ifStmt, attributes, [c, n], p⟩ store = (do
    if ← t.plainHolds method ask c store then t.plainExec method ask rounds n store else return .next store) := by
  rw [plainExec_eq]
  rfl

theorem plainExec_ifElse (c n e : Node) : t.plainExec method ask rounds ⟨.ifStmt, attributes, [c, n, e], p⟩ store = (do
    if ← t.plainHolds method ask c store then t.plainExec method ask rounds n store
    else t.plainExec method ask rounds e store) := by
  rw [plainExec_eq]
  rfl

theorem plainExec_while (c n : Node) (rest : List Node) :
    t.plainExec method ask rounds ⟨.whileStmt, attributes, c :: n :: rest, p⟩ store =
      Flow.loop (t.plainHolds method ask c) (t.plainExec method ask rounds n) rounds store := by
  rw [plainExec_eq]
  rfl

theorem plainHolds_congr {c c' : Node} (h : t.SameValue method ask store c c') :
    t.plainHolds method ask c' store = t.plainHolds method ask c store := by
  rw [plainHolds, plainHolds, h.value]

/-- What is no statement does nothing. -/
theorem plainExec_other (h : n.kind.isStatement = false) : t.plainExec method ask rounds n store = throw .fault := by
  obtain ⟨kind, attributes, cs, p⟩ := n
  rw [plainExec_eq]
  cases kind <;> first | rfl | cases h

/-- Statements that consist of expressions. -/
theorem plainExec_operands (hkind : kind = .arrayAssign ∨ kind = .exprStmt ∨ kind = .returnStmt)
    (h : List.Forall₂ (t.SameValue method ask store) cs cs') :
    t.plainExec method ask rounds ⟨kind, attributes, cs', p⟩ store =
      t.plainExec method ask rounds ⟨kind, attributes, cs, p⟩ store := by
  rw [plainExec_eq, plainExec_eq]
  rcases hkind with rfl | rfl | rfl
  · rcases h with _ | ⟨ha, _ | ⟨hi, _ | ⟨hv, _ | ⟨_, _⟩⟩⟩⟩ <;> try rfl
    simp only [plainFlowOf, plainStore, ha.value, hi.value, hv.value]
  · rcases h with _ | ⟨he, -⟩
    · rfl
    · simp only [plainFlowOf, he.value]
  · rcases h with _ | ⟨he, -⟩
    · rfl
    · simp only [plainFlowOf, he.value]

/-- Such statements keep the variables. -/
theorem yields_plainExec_operands (hkind : kind = .arrayAssign ∨ kind = .exprStmt ∨ kind = .returnStmt) :
    (t.plainExec method ask rounds ⟨kind, attributes, cs, p⟩ store).Yields (Flow.Leads fun store' => store' = store) := by
  rw [plainExec_eq]
  rcases hkind with rfl | rfl | rfl
  · rcases cs with _ | ⟨array, _ | ⟨index, _ | ⟨value, _ | ⟨_, _⟩⟩⟩⟩ <;> try exact Act.yields_throw _
    refine (Act.yields_true _).bind fun _ _ => (Act.yields_true _).bind fun _ _ => (Act.yields_true _).bind fun _ _ => ?_
    exact (Act.yields_true _).bind fun _ _ => (Act.yields_true _).bind fun _ _ => Act.yields_pure rfl
  · rcases cs with _ | ⟨e, rest⟩
    · exact Act.yields_throw _
    · exact (Act.yields_true _).bind fun _ _ => Act.yields_pure rfl
  · rcases cs with _ | ⟨value, rest⟩
    · exact Act.yields_pure trivial
    · exact (Act.yields_true _).bind fun _ _ => Act.yields_pure trivial

/-- The variable of an assignment stays what it is. -/
theorem varRef_of_fold (h : n.fold = .ok n') :
    (n'.kind = .varRef ↔ n.kind = .varRef) ∧ (n.kind = .varRef → n'.name = n.name) := by
  obtain ⟨kind, attributes, cs, p⟩ := n
  rw [Node.fold, bind_eq_ok] at h
  obtain ⟨cs', -, h⟩ := h
  rcases Node.foldTop_cases h with ⟨rfl, -⟩ | ⟨c, hc, rfl⟩
  · exact ⟨Iff.rfl, fun _ => rfl⟩
  · have hkind : kind ≠ .varRef := by
      rintro rfl
      cases hc
    exact ⟨iff_of_false (kind_node_ne_varRef c _) hkind, fun hvar => absurd hvar hkind⟩

/-- Folding keeps what a statement does. -/
theorem plainExec_fold (h : n.fold = .ok n') (store : Store) :
    t.plainExec method ask rounds n' store = t.plainExec method ask rounds n store := by
  induction n using Node.induction_children generalizing n' store with
  | step n ih =>
    obtain ⟨kind, attributes, cs, p⟩ := n
    rw [Node.fold, Node.foldAll_eq_mapM, bind_eq_ok] at h
    obtain ⟨cs', hcs, h⟩ := h
    have hall := mapM_eq_ok_iff.1 hcs
    have hvalues (store : Store) : List.Forall₂ (t.SameValue method ask store) cs cs' := hall.imp fun _ _ hc => sameValue_fold hc
    have hruns : List.Forall₂ (fun c c' => ∀ store, t.plainExec method ask rounds c' store =
        t.plainExec method ask rounds c store) cs cs' :=
      ((List.forall₂_and_left cs cs').2 ⟨fun c hc c' (h : c.fold = .ok c') => ih c hc h, hall⟩).imp
        fun c c' hc => hc.1 c' hc.2
    by_cases hstatement : kind.isStatement = true
    · obtain rfl : n' = ⟨kind, attributes, cs', p⟩ := by
        rcases Node.foldTop_cases h with ⟨rfl, -⟩ | ⟨c, hc, rfl⟩
        · rfl
        · cases hc <;> cases hstatement
      cases kind with
      | block =>
        rw [plainExec_block, plainExec_block]
        congr 1
        clear hall hcs h hvalues ih
        induction hruns with
        | nil => rfl
        | cons hc _ ih => rw [List.map_cons, List.map_cons, funext hc, ih]
      | arrayAssign => exact plainExec_operands (.inl rfl) (hvalues store)
      | exprStmt => exact plainExec_operands (.inr (.inl rfl)) (hvalues store)
      | returnStmt => exact plainExec_operands (.inr (.inr rfl)) (hvalues store)
      | assign =>
        rcases hall with _ | ⟨htarget, _ | ⟨hvalue, _ | ⟨_, _⟩⟩⟩
        · rfl
        · rw [plainExec_eq, plainExec_eq]
          rfl
        · exact plainExec_assign_congr (varRef_of_fold htarget) (sameValue_fold hvalue)
        · rw [plainExec_eq, plainExec_eq]
          rfl
      | ifStmt =>
        rcases hall with _ | ⟨hcondition, hbranches⟩
        · rfl
        obtain ⟨-, hruns⟩ := List.forall₂_cons.1 hruns
        have htest : t.plainHolds method ask _ store = t.plainHolds method ask _ store :=
          plainHolds_congr (sameValue_fold hcondition)
        rcases hruns with _ | ⟨hthen, _ | ⟨helse, _ | ⟨_, _⟩⟩⟩
        · rw [plainExec_eq, plainExec_eq]
          rfl
        · rw [plainExec_ifThen, plainExec_ifThen, htest, funext hthen]
        · rw [plainExec_ifElse, plainExec_ifElse, htest, funext hthen, funext helse]
        · rw [plainExec_eq, plainExec_eq]
          rfl
      | whileStmt =>
        rcases hall with _ | ⟨hcondition, hbody⟩
        · rfl
        obtain ⟨-, hruns⟩ := List.forall₂_cons.1 hruns
        rcases hruns with _ | ⟨hrun, -⟩
        · rw [plainExec_eq, plainExec_eq]
          rfl
        · rw [plainExec_while, plainExec_while, funext hrun]
          congr 1
          exact funext fun store => plainHolds_congr (sameValue_fold hcondition)
      | _ => cases hstatement
    · have hother : n'.kind.isStatement = false := by
        rcases Node.foldTop_cases h with ⟨rfl, -⟩ | ⟨c, -, rfl⟩
        · simpa using hstatement
        · cases c <;> rfl
      rw [plainExec_other hother, plainExec_other (by simpa using hstatement)]

/-- An assignment changes one variable of the method at most. -/
theorem yields_assignVariable (name : String) (v : Value) :
    (t.assignVariable method ask store name v).Yields (Flow.Leads fun store' => store' = store.set name v ∨
      store' = store ∧ (t.binding? method name).isSome = false) := by
  unfold assignVariable
  by_cases hbound : (t.binding? method name).isSome = true
  · rw [if_pos hbound]
    exact Act.yields_pure (.inl rfl)
  · rw [if_neg hbound]
    have hkept : (Flow.next store).Leads fun store' => store' = store.set name v ∨
        store' = store ∧ (t.binding? method name).isSome = false := .inr ⟨rfl, by simpa using hbound⟩
    split
    · split
      · exact (Act.yields_true _).bind fun _ _ => Act.yields_pure hkept
      · exact Act.yields_throw _
    · exact Act.yields_throw _

/-- A statement leaves variables alone that it does not assign. -/
theorem yields_plainExec {K : String → Prop} (hK : ∀ x, n.Assigns x → ¬K x) (vars : String → Value)
    (hstore : ∀ x, K x → store.vars x = vars x) :
    (t.plainExec method ask rounds n store).Yields (Flow.Leads fun store' => ∀ x, K x → store'.vars x = vars x) := by
  induction n using Node.induction_children generalizing store with
  | step n ih =>
    have hbelow {c : Node} (hc : c ∈ n.children) {store : Store} (hstore : ∀ x, K x → store.vars x = vars x) :
        (t.plainExec method ask rounds c store).Yields (Flow.Leads fun store' => ∀ x, K x → store'.vars x = vars x) :=
      ih c hc (fun x hx => hK x (.of_child hc hx)) hstore
    obtain ⟨kind, attributes, cs, p⟩ := n
    have hfault (h : t.plainExec method ask rounds ⟨kind, attributes, cs, p⟩ store = throw .fault) :
        (t.plainExec method ask rounds ⟨kind, attributes, cs, p⟩ store).Yields
          (Flow.Leads fun store' => ∀ x, K x → store'.vars x = vars x) := h ▸ Act.yields_throw _
    have hoperands (hkind : kind = .arrayAssign ∨ kind = .exprStmt ∨ kind = .returnStmt) :
        (t.plainExec method ask rounds ⟨kind, attributes, cs, p⟩ store).Yields
          (Flow.Leads fun store' => ∀ x, K x → store'.vars x = vars x) :=
      (yields_plainExec_operands hkind).imp fun _ hflow => hflow.imp fun _ heq => heq ▸ hstore
    cases kind with
    | block =>
      rw [plainExec_block]
      refine Flow.yields_sequence (fun part hpart store hstore => ?_) hstore
      obtain ⟨c, hc, rfl⟩ := List.mem_map.1 hpart
      exact hbelow hc hstore
    | assign =>
      rcases cs with _ | ⟨target, _ | ⟨value, _ | ⟨_, _⟩⟩⟩
      · exact hfault rfl
      · exact hfault (by rw [plainExec_eq]; rfl)
      · rw [plainExec_assign]
        by_cases hvar : target.kind = .varRef
        · rw [if_pos hvar]
          cases hname : target.name with
          | error e => exact Act.yields_throw _
          | ok name =>
            have hassigns : Node.Assigns ⟨.assign, attributes, [target, value], p⟩ name :=
              ⟨[], _, rfl, rfl, by simp [Node.assignedName?, Node.child, hvar, hname, ok_bind]⟩
            rw [Act.ofExcept_ok, pure_bind]
            refine (Act.yields_true _).bind fun v _ => ?_
            refine (yields_assignVariable name v).imp fun _ hflow => hflow.imp fun store' hstore' x hx => ?_
            rcases hstore' with rfl | ⟨rfl, -⟩
            · have hne : x ≠ name := by
                rintro rfl
                exact hK x hassigns hx
              exact (Function.update_of_ne hne _ _).trans (hstore x hx)
            · exact hstore x hx
        · rw [if_neg hvar]
          exact Act.yields_throw _
      · exact hfault (by rw [plainExec_eq]; rfl)
    | arrayAssign => exact hoperands (.inl rfl)
    | exprStmt => exact hoperands (.inr (.inl rfl))
    | returnStmt => exact hoperands (.inr (.inr rfl))
    | ifStmt =>
      rcases cs with _ | ⟨condition, _ | ⟨thenPart, _ | ⟨elsePart, _ | ⟨_, _⟩⟩⟩⟩
      · exact hfault rfl
      · exact hfault (by rw [plainExec_eq]; rfl)
      · rw [plainExec_ifThen]
        refine (Act.yields_true _).bind fun taken _ => ?_
        cases taken with
        | true => exact hbelow (by simp) hstore
        | false => exact Act.yields_pure hstore
      · rw [plainExec_ifElse]
        refine (Act.yields_true _).bind fun taken _ => ?_
        cases taken with
        | true => exact hbelow (by simp) hstore
        | false => exact hbelow (by simp) hstore
      · exact hfault (by rw [plainExec_eq]; rfl)
    | whileStmt =>
      rcases cs with _ | ⟨condition, _ | ⟨body, rest⟩⟩
      · exact hfault rfl
      · exact hfault (by rw [plainExec_eq]; rfl)
      · rw [plainExec_while]
        exact Flow.yields_loop (fun store hstore => hbelow (by simp) hstore) rounds hstore
    | _ => exact hfault (plainExec_other rfl)

end SymbolTable
end JmmCompiler

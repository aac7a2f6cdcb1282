import JmmCompiler.Proofs.Execution
import JmmCompiler.Proofs.Strict
/-! Heaps in which fields and elements have values of their types. The operations on the heap and on values keep
them so, and do not go wrong on values of the right types. -/
namespace JmmCompiler

/-- What an object or an array stays as long as it lives: its class, or its element type and its length. -/
def Cell.form : Cell → String × Option Nat
  | object className _ => (className, none)
  | array element items => (element, some items.length)

/-- All that is on a heap stays, but for what is in it. -/
def Heap.Grows (heap heap' : Heap) : Prop :=
  ∀ (address : Nat) (cell : Cell), heap[address]? = some cell →
    ∃ cell' : Cell, heap'[address]? = some cell' ∧ cell'.form = cell.form

namespace Heap.Grows
variable {heap heap' heap'' : Heap}

theorem refl (heap : Heap) : heap.Grows heap := fun _ cell h => ⟨cell, h, rfl⟩

theorem trans (h : heap.Grows heap') (h' : heap'.Grows heap'') : heap.Grows heap'' := by
  intro address cell hcell
  obtain ⟨cell', hcell', hform⟩ := h address cell hcell
  obtain ⟨cell'', hcell'', hform'⟩ := h' address cell' hcell'
  exact ⟨cell'', hcell'', hform'.trans hform⟩

theorem append (heap : Heap) (cell : Cell) : heap.Grows (heap ++ [cell]) := by
  intro address old hold
  exact ⟨old, by rw [List.getElem?_append_left (List.getElem?_eq_some_iff.1 hold).1, hold], rfl⟩

theorem set {address : Nat} {old new : Cell} (hold : heap[address]? = some old)
    (hform : new.form = old.form) : heap.Grows (heap.set address new) := by
  intro other cell hcell
  by_cases heq : address = other
  · subst heq
    obtain rfl : old = cell := Option.some.inj (hold.symm.trans hcell)
    have hlt : address < heap.length := (List.getElem?_eq_some_iff.1 hold).1
    exact ⟨new, by simp [hlt], hform⟩
  · exact ⟨cell, by rw [List.getElem?_set_ne heq, hcell], rfl⟩

end Heap.Grows

section
variable {t : SymbolTable} {heap heap' : Heap} {type target : Ty} {v : Datum}

theorem Cell.isOf_congr {cell cell' : Cell} (h : cell'.form = cell.form) :
    cell'.isOf t type = cell.isOf t type := by
  cases cell with
  | object c fields =>
    cases cell' with
    | object c' fields' =>
      obtain rfl : c' = c := congrArg Prod.fst h
      rfl
    | array => cases congrArg Prod.snd h
  | array e items =>
    cases cell' with
    | object => cases congrArg Prod.snd h
    | array e' items' =>
      obtain rfl : e' = e := congrArg Prod.fst h
      have hlength : items'.length = items.length := Option.some.inj (congrArg Prod.snd h)
      have hempty : items'.isEmpty = items.isEmpty := by
        rw [Bool.eq_iff_iff, List.isEmpty_iff_length_eq_zero, List.isEmpty_iff_length_eq_zero, hlength]
      rw [Cell.isOf, Cell.isOf, hempty]

namespace Datum

theorem isOf_ref {address : Nat} (h : (ref address).isOf t heap type = true) :
    ∃ cell, heap[address]? = some cell ∧ cell.isOf t type = true := by
  cases hcell : heap[address]? with
  | none => simp [isOf, hcell] at h
  | some cell => exact ⟨cell, rfl, by simpa [isOf, hcell] using h⟩

theorem isOf_mono (hgrows : heap.Grows heap') (h : v.isOf t heap type = true) :
    v.isOf t heap' type = true := by
  cases v with
  | ref address =>
    obtain ⟨cell, hcell, hof⟩ := isOf_ref h
    obtain ⟨cell', hcell', hform⟩ := hgrows address cell hcell
    simp only [isOf, hcell', Option.any_some]
    rw [Cell.isOf_congr hform, hof]
  | _ => exact h

theorem Cell.isReference_of_isOf {cell : Cell} (h : cell.isOf t type = true) : type.isReference = true := by
  cases cell with
  | object c fields =>
    simp only [Cell.isOf, Bool.and_eq_true] at h
    exact h.1.1
  | array e items =>
    simp only [Cell.isOf, Bool.and_eq_true] at h
    simp [Ty.isReference, Ty.isPrimitive, h.1]

/-- A value is of the kind of its type. -/
theorem isOf_cases (h : v.isOf t heap type = true) :
    type = .int ∧ (∃ n, v = int n) ∨ type = .boolean ∧ (∃ b, v = bool b) ∨
      type.isReference = true ∧ (v = null ∨ ∃ address, v = ref address) := by
  cases v with
  | int n => exact .inl ⟨by simpa [isOf] using h, n, rfl⟩
  | bool b => exact .inr (.inl ⟨by simpa [isOf] using h, b, rfl⟩)
  | null => exact .inr (.inr ⟨h, .inl rfl⟩)
  | ref address =>
    obtain ⟨cell, -, hof⟩ := isOf_ref h
    exact .inr (.inr ⟨Cell.isReference_of_isOf hof, .inr ⟨address, rfl⟩⟩)

theorem isOf_int (h : v.isOf t heap .int = true) : ∃ n, v = int n := by
  rcases isOf_cases h with ⟨-, hv⟩ | ⟨htype, -⟩ | ⟨htype, -⟩
  · exact hv
  · exact absurd htype (by decide)
  · cases htype

theorem isOf_boolean (h : v.isOf t heap .boolean = true) : ∃ b, v = bool b := by
  rcases isOf_cases h with ⟨htype, -⟩ | ⟨-, hv⟩ | ⟨htype, -⟩
  · exact absurd htype (by decide)
  · exact hv
  · cases htype

theorem eq_null_or_ref (h : v.isOf t heap type = true) (htype : type.isReference = true) :
    v = null ∨ ∃ address, v = ref address := by
  rcases isOf_cases h with ⟨rfl, -⟩ | ⟨rfl, -⟩ | ⟨-, hv⟩
  · cases htype
  · cases htype
  · exact hv

/-- Types other than that of nothing have an initial value. -/
theorem initial_isOf (htype : type ≠ .void) : (initial type).isOf t heap type = true := by
  unfold initial
  split
  · simpa [isOf] using ‹_›
  split
  · simpa [isOf] using ‹_›
  · obtain ⟨name, isArray⟩ := type
    cases isArray with
    | true => rfl
    | false =>
      rename_i hint hboolean
      simp only [Ty.int, Ty.boolean, Ty.void, ne_eq, Ty.mk.injEq, and_true] at hint hboolean htype
      simp [isOf, Ty.isReference, Ty.isPrimitive, hint, hboolean, htype]

end Datum

/-- Fields and elements have values of their types. -/
def Cell.Keeps (t : SymbolTable) (heap : Heap) : Cell → Prop
  | object className fields => className = t.className →
      ∀ name field, t.field? name = some field → (fields name).isOf t heap field.type = true
  | array element items => ∀ v ∈ items, v.isOf t heap ⟨element, false⟩ = true

theorem Cell.Keeps.mono {cell : Cell} (h : cell.Keeps t heap) (hgrows : heap.Grows heap') :
    cell.Keeps t heap' := by
  cases cell with
  | object c fields => exact fun hc name field hfield => Datum.isOf_mono hgrows (h hc name field hfield)
  | array e items => exact fun v hv => Datum.isOf_mono hgrows (h v hv)

def Heap.IsTyped (t : SymbolTable) (heap : Heap) : Prop :=
  ∀ (address : Nat) (cell : Cell), heap[address]? = some cell → cell.Keeps t heap

namespace Heap.IsTyped

theorem append {cell : Cell} (h : heap.IsTyped t) (hcell : cell.Keeps t (heap ++ [cell])) :
    IsTyped t (heap ++ [cell]) := by
  intro address found hfound
  rcases List.getElem?_append .. ▸ hfound with hfound
  split at hfound
  · exact (h address found hfound).mono (.append heap cell)
  · obtain rfl : cell = found := by
      have := List.mem_of_getElem? hfound
      simpa [eq_comm] using this
    exact hcell

theorem set {address : Nat} {old new : Cell} (h : heap.IsTyped t) (hold : heap[address]? = some old)
    (hform : new.form = old.form) (hnew : new.Keeps t (heap.set address new)) :
    IsTyped t (heap.set address new) := by
  intro other found hfound
  by_cases heq : address = other
  · subst heq
    have hlt : address < heap.length := (List.getElem?_eq_some_iff.1 hold).1
    obtain rfl : new = found := by simpa [hlt] using hfound
    exact hnew
  · rw [List.getElem?_set_ne heq] at hfound
    exact (h other found hfound).mono (.set hold hform)

end Heap.IsTyped

/-! ## Safe runs -/

/-- A run that does not go wrong, keeps a heap typed, and ends as stated if it comes to an end. -/
def Run.Safe {α : Type} (t : SymbolTable) (heap : Heap) (x : Run α) (post : Heap → α → Prop) : Prop :=
  match runOn x heap with
  | (.ok a, heap') => heap.Grows heap' ∧ heap'.IsTyped t ∧ post heap' a
  | (.error halt, _) => halt ≠ .wrong ∧ halt ≠ .mistyped

namespace Run.Safe
variable {α β : Type} {x : Run α} {f : α → Run β} {a : α}
variable {P Q : Heap → α → Prop} {R : Heap → β → Prop}

theorem pure (hheap : heap.IsTyped t) (h : P heap a) : Safe t heap (Pure.pure a) P :=
  ⟨.refl heap, hheap, h⟩

theorem throw {halt : Halt} (h : halt ≠ .wrong ∧ halt ≠ .mistyped) :
    Safe t heap (MonadExcept.throw halt : Run α) P := h

theorem bind (hx : Safe t heap x P)
    (hf : ∀ heap' a, heap.Grows heap' → heap'.IsTyped t → P heap' a → Safe t heap' (f a) R) :
    Safe t heap (x >>= f) R := by
  unfold Safe at hx ⊢
  rw [runOn_bind]
  match hrun : runOn x heap with
  | (.error halt, heap') =>
    rw [hrun] at hx
    exact hx
  | (.ok a, heap') =>
    rw [hrun] at hx
    obtain ⟨hgrows, htyped, hpost⟩ := hx
    have hrest := hf heap' a hgrows htyped hpost
    unfold Safe at hrest
    dsimp only
    split at hrest
    · rename_i hok
      rw [hok]
      exact ⟨hgrows.trans hrest.1, hrest.2⟩
    · rename_i herror
      rw [herror]
      exact hrest

theorem get {f : Heap → Run β} (h : Safe t heap (f heap) R) : Safe t heap (MonadState.get >>= f) R := by
  unfold Safe at h ⊢
  rw [runOn_bind]
  exact h

theorem imp (hx : Safe t heap x P) (h : ∀ heap' a, heap.Grows heap' → P heap' a → Q heap' a) :
    Safe t heap x Q := by
  unfold Safe at hx ⊢
  split at hx
  · exact ⟨hx.1, hx.2.1, h _ _ hx.1 hx.2.2⟩
  · exact hx

end Run.Safe

/-! ## Operations -/

/-- The value of an expression of a type. A void call has none. -/
def Ty.Gives (t : SymbolTable) (heap : Heap) (type : Ty) : Option Datum → Prop
  | some v => v.isOf t heap type = true
  | none => type = .void

namespace Run

theorem safe_required {v : Option Datum} (hheap : heap.IsTyped t) (h : type.Gives t heap v)
    (htype : type ≠ .void) : Safe t heap (required v) fun heap' v => v.isOf t heap' type = true := by
  cases v with
  | some v => exact .pure hheap h
  | none => exact absurd h htype

theorem safe_number (hheap : heap.IsTyped t) (h : v.isOf t heap .int = true) :
    Safe t heap (number v) fun _ _ => True := by
  obtain ⟨n, rfl⟩ := Datum.isOf_int h
  exact .pure hheap trivial

theorem safe_truth (hheap : heap.IsTyped t) (h : v.isOf t heap .boolean = true) :
    Safe t heap (truth v) fun _ _ => True := by
  obtain ⟨b, rfl⟩ := Datum.isOf_boolean h
  exact .pure hheap trivial

/-- Operands of one type, which is the type that the operator wants. -/
theorem safe_ofOperator {o : Operator} {a b : Datum} (hheap : heap.IsTyped t)
    (ha : a.isOf t heap type = true) (hb : b.isOf t heap type = true)
    (hwanted : ∀ wanted ∈ o.operandType?, wanted = type) :
    Safe t heap (ofOperator o a b) fun heap' v => v.isOf t heap' o.resultType = true := by
  cases o with
  | arithmetic op =>
    obtain rfl : Ty.int = type := hwanted _ rfl
    obtain ⟨m, rfl⟩ := Datum.isOf_int ha
    obtain ⟨n, rfl⟩ := Datum.isOf_int hb
    simp only [ofOperator]
    cases op.evaluate? m n with
    | some k => exact .pure hheap rfl
    | none => exact .throw (by decide)
  | logical op =>
    obtain rfl : Ty.boolean = type := hwanted _ rfl
    obtain ⟨x, rfl⟩ := Datum.isOf_boolean ha
    obtain ⟨y, rfl⟩ := Datum.isOf_boolean hb
    cases op with
    | and => exact .pure hheap rfl
    | or => exact .pure hheap rfl
  | comparison op =>
    -- other than numbers only `==` and `!=` compare
    have hequality (htype : type ≠ .int) : op = .eq ∨ op = .ne := by
      cases op with
      | eq => exact .inl rfl
      | ne => exact .inr rfl
      | _ => exact absurd (hwanted .int rfl).symm htype
    rcases Datum.isOf_cases ha with ⟨rfl, m, rfl⟩ | ⟨rfl, x, rfl⟩ | ⟨htype, hrefa⟩
    · obtain ⟨n, rfl⟩ := Datum.isOf_int hb
      exact .pure hheap rfl
    · obtain ⟨y, rfl⟩ := Datum.isOf_boolean hb
      rcases hequality (by decide) with rfl | rfl
      · exact .pure hheap rfl
      · exact .pure hheap rfl
    · have hrefb := Datum.eq_null_or_ref hb htype
      have hint : type ≠ .int := fun heq => by cases heq ▸ htype
      rcases hequality hint with rfl | rfl
      all_goals
        rcases hrefa with rfl | ⟨_, rfl⟩
        all_goals
          rcases hrefb with rfl | ⟨_, rfl⟩
          all_goals exact .pure hheap rfl

/-- What is found at a value of a reference type. -/
theorem safe_cell (hheap : heap.IsTyped t) (hv : v.isOf t heap type = true) (htype : type.isReference = true) :
    Safe t heap (cell v) fun heap' found =>
      heap'[found.1]? = some found.2 ∧ found.2.isOf t type = true ∧ found.2.Keeps t heap' := by
  rcases Datum.eq_null_or_ref hv htype with rfl | ⟨address, rfl⟩
  · exact .throw (by decide)
  · obtain ⟨found, hfound, hof⟩ := Datum.isOf_ref hv
    have hrun : runOn (cell (.ref address)) heap = (.ok (address, found), heap) := by
      simp only [cell, runOn_bind, runOn_get, hfound, runOn_pure]
    unfold Safe
    rw [hrun]
    exact ⟨.refl heap, hheap, hfound, hof, hheap address found hfound⟩

theorem safe_allocate {new : Cell} (hheap : heap.IsTyped t) (hnew : new.Keeps t (heap ++ [new]))
    (hof : new.isOf t type = true) :
    Safe t heap (allocate new) fun heap' v => v.isOf t heap' type = true := by
  have hrun : runOn (allocate new) heap = (.ok (.ref heap.length), heap ++ [new]) := rfl
  unfold Safe
  rw [hrun]
  refine ⟨.append heap new, hheap.append hnew, ?_⟩
  simpa [Datum.isOf] using hof

/-- A cell gets new contents. -/
theorem safe_modify {address : Nat} {old new : Cell} (hheap : heap.IsTyped t)
    (hold : heap[address]? = some old) (hform : new.form = old.form) (hnew : new.Keeps t heap) :
    Safe t heap (modify (·.set address new)) fun _ _ => True := by
  have hgrows : heap.Grows (heap.set address new) := .set hold hform
  exact ⟨hgrows, hheap.set hold hform (hnew.mono hgrows), trivial⟩

section
variable (ht : t.Regular) {name : String} {field : Symbol} {value : Datum}

/-- An object of the class. -/
theorem exists_fields {found : Cell} (h : found.isOf t t.classType = true) :
    ∃ fields, found = .object t.className fields := by
  cases found with
  | object c fields =>
    simp only [Cell.isOf, SymbolTable.classType, Bool.and_eq_true, Bool.or_eq_true] at h
    have hclass : c = t.className := h.2.elim of_decide_eq_true fun h => of_decide_eq_true h.1
    exact ⟨fields, hclass ▸ rfl⟩
  | array e items => simp [Cell.isOf, SymbolTable.classType] at h

include ht in
theorem safe_getField (hheap : heap.IsTyped t) (hv : v.isOf t heap t.classType = true)
    (hfield : t.field? name = some field) :
    Safe t heap (getField v name) fun heap' value => value.isOf t heap' field.type = true := by
  refine (safe_cell hheap hv ht.classType).bind ?_
  rintro heap' found hgrows htyped ⟨hfound, hof, hkeeps⟩
  obtain ⟨address, found⟩ := found
  obtain ⟨fields, rfl⟩ := exists_fields hof
  exact .pure htyped (hkeeps rfl name field hfield)

include ht in
theorem safe_putField (hheap : heap.IsTyped t) (hv : v.isOf t heap t.classType = true)
    (hfield : t.field? name = some field) (hvalue : value.isOf t heap field.type = true) :
    Safe t heap (putField v name value) fun _ _ => True := by
  refine (safe_cell hheap hv ht.classType).bind ?_
  rintro heap' found hgrows htyped ⟨hfound, hof, hkeeps⟩
  obtain ⟨address, found⟩ := found
  obtain ⟨fields, rfl⟩ := exists_fields hof
  refine safe_modify htyped hfound rfl fun _ other symbol hsymbol => ?_
  by_cases heq : other = name
  · subst heq
    obtain rfl : field = symbol := Option.some.inj (hfield.symm.trans hsymbol)
    rw [Function.update_self]
    exact Datum.isOf_mono hgrows hvalue
  · rw [Function.update_of_ne heq]
    exact hkeeps rfl other symbol hsymbol

end

section
variable {element : String} {index : Int} {value : Datum} {items : List Datum}

/-- An array of elements of a type, or an empty one. -/
theorem exists_items {found : Cell} (h : found.isOf t type = true) (harray : type.isArray = true) :
    ∃ element items, found = .array element items ∧ (items ≠ [] → element = type.name) := by
  cases found with
  | object c fields => simp [Cell.isOf, harray] at h
  | array e items =>
    refine ⟨e, items, rfl, fun hne => ?_⟩
    simpa [Cell.isOf, harray, hne] using h

theorem isReference_of_isArray (h : type.isArray = true) : type.isReference = true := by
  simp [Ty.isReference, Ty.isPrimitive, h]

theorem safe_length (hheap : heap.IsTyped t) (hv : v.isOf t heap type = true) (harray : type.isArray = true) :
    Safe t heap (length v) fun heap' n => n.isOf t heap' .int = true := by
  refine (safe_cell hheap hv (isReference_of_isArray harray)).bind ?_
  rintro heap' found hgrows htyped ⟨hfound, hof, hkeeps⟩
  obtain ⟨address, found⟩ := found
  obtain ⟨element, items, rfl, hname⟩ := exists_items hof harray
  exact .pure htyped rfl

theorem safe_load (hheap : heap.IsTyped t) (hv : v.isOf t heap ⟨element, true⟩ = true) :
    Safe t heap (load v index) fun heap' value => value.isOf t heap' ⟨element, false⟩ = true := by
  refine (safe_cell hheap hv (isReference_of_isArray rfl)).bind ?_
  rintro heap' found hgrows htyped ⟨hfound, hof, hkeeps⟩
  obtain ⟨address, found⟩ := found
  obtain ⟨held, items, rfl, hname⟩ := exists_items hof rfl
  dsimp only
  split
  · exact .throw (by decide)
  split
  · rename_i value hvalue
    have hmem := List.mem_of_getElem? hvalue
    obtain rfl : held = element := hname (List.ne_nil_of_mem hmem)
    exact .pure htyped (hkeeps value hmem)
  · exact .throw (by decide)

theorem safe_store (hheap : heap.IsTyped t) (hv : v.isOf t heap ⟨element, true⟩ = true)
    (hvalue : value.isOf t heap ⟨element, false⟩ = true) :
    Safe t heap (store v index value) fun _ _ => True := by
  refine (safe_cell hheap hv (isReference_of_isArray rfl)).bind ?_
  rintro heap' found hgrows htyped ⟨hfound, hof, hkeeps⟩
  obtain ⟨address, found⟩ := found
  obtain ⟨held, items, rfl, hname⟩ := exists_items hof rfl
  dsimp only
  split
  · exact .throw (by decide)
  · rename_i hbounds
    have hne : items ≠ [] := by
      rintro rfl
      simp at hbounds
      omega
    obtain rfl : held = element := hname hne
    refine safe_modify htyped hfound (by simp [Cell.form]) fun other hother => ?_
    rcases List.mem_or_eq_of_mem_set hother with hmem | rfl
    · exact hkeeps other hmem
    · exact Datum.isOf_mono hgrows hvalue

theorem safe_newArray {size : Int} (hheap : heap.IsTyped t) (helement : element ≠ "void") :
    Safe t heap (newArray element size) fun heap' v => v.isOf t heap' ⟨element, true⟩ = true := by
  unfold newArray
  split
  · exact .throw (by decide)
  · refine safe_allocate hheap (fun v hv => ?_) (by simp [Cell.isOf])
    obtain rfl := (List.mem_replicate.1 hv).2
    exact Datum.initial_isOf (by simpa [Ty.void] using helement)

end

theorem safe_newObject (ht : t.Regular) {className : String} (hheap : heap.IsTyped t)
    (htype : (⟨className, false⟩ : Ty).isReference = true) :
    Safe t heap (t.newObject className) fun heap' v => v.isOf t heap' ⟨className, false⟩ = true := by
  refine safe_allocate hheap (fun _ name field hfield => ?_) (by simp [Cell.isOf, htype])
  simp only [hfield]
  exact Datum.initial_isOf (ht.fields name field hfield)

/-! ## Expressions one after the other -/

/-- An expression that gives values of a type from here on. -/
def Yields (t : SymbolTable) (heap : Heap) (type : Ty) (x : Run (Option Datum)) : Prop :=
  ∀ heap', heap.Grows heap' → heap'.IsTyped t → Safe t heap' x (type.Gives t)

variable {x : Run (Option Datum)} {parts : List (Run (Option Datum))} {element : String} {array : Datum}

theorem Yields.mono (h : Yields t heap type x) (hgrows : heap.Grows heap') : Yields t heap' type x :=
  fun later hlater => h later (hgrows.trans hlater)

/-- What goes on with the value of an expression. -/
theorem Yields.bind {α : Type} {f : Datum → Run α} {post : Heap → α → Prop} (h : Yields t heap type x)
    (hgrows : heap.Grows heap') (hheap : heap'.IsTyped t) (htype : type ≠ .void)
    (hf : ∀ later v, heap'.Grows later → later.IsTyped t → v.isOf t later type = true →
      Safe t later (f v) post) :
    Safe t heap' (x >>= fun v => Run.required v >>= f) post := by
  refine (h heap' hgrows hheap).bind fun heap₁ v hgrows₁ htyped₁ hv => ?_
  refine (safe_required htyped₁ hv htype).bind fun heap₂ v hgrows₂ htyped₂ hv => ?_
  exact hf heap₂ v (hgrows₁.trans hgrows₂) htyped₂ hv

theorem safe_all {types : List Ty} (hheap : heap.IsTyped t)
    (hparts : List.Forall₂ (fun x type => Yields t heap type x ∧ type ≠ .void) parts types) :
    Safe t heap (all parts) fun heap' values =>
      List.Forall₂ (fun v type => v.isOf t heap' type = true) values types := by
  induction parts generalizing heap types with
  | nil =>
    cases hparts
    exact .pure hheap .nil
  | cons x parts ih =>
    obtain ⟨type, rest, ⟨hx, hvoid⟩, hrest, rfl⟩ := List.forall₂_cons_left_iff.1 hparts
    simp only [all]
    refine hx.bind (.refl heap) hheap hvoid fun heap₁ v hgrows₁ htyped₁ hv => ?_
    refine (ih htyped₁ (hrest.imp fun _ _ h => ⟨h.1.mono hgrows₁, h.2⟩)).bind
      fun heap₂ values hgrows₂ htyped₂ hvalues => ?_
    exact .pure htyped₂ (.cons (Datum.isOf_mono hgrows₂ hv) hvalues)

theorem safe_fill {index : Nat} (hheap : heap.IsTyped t) (helement : element ≠ "void")
    (harray : array.isOf t heap ⟨element, true⟩ = true)
    (hparts : ∀ x ∈ parts, Yields t heap ⟨element, false⟩ x) :
    Safe t heap (fill array index parts) fun _ _ => True := by
  induction parts generalizing heap index with
  | nil => exact .pure hheap trivial
  | cons x parts ih =>
    have hvoid : (⟨element, false⟩ : Ty) ≠ .void := by simpa [Ty.void] using helement
    simp only [fill]
    refine (hparts x (by simp)).bind (.refl heap) hheap hvoid fun heap₁ v hgrows₁ htyped₁ hv => ?_
    have harray₁ := Datum.isOf_mono hgrows₁ harray
    refine (safe_store htyped₁ harray₁ hv).bind fun heap₂ _ hgrows₂ htyped₂ _ => ?_
    exact ih htyped₂ (Datum.isOf_mono hgrows₂ harray₁) fun y hy =>
      (hparts y (List.mem_cons_of_mem x hy)).mono (hgrows₁.trans hgrows₂)

theorem safe_arrayOf (hheap : heap.IsTyped t) (helement : element ≠ "void")
    (hparts : ∀ x ∈ parts, Yields t heap ⟨element, false⟩ x) :
    Safe t heap (arrayOf element parts) fun heap' v => v.isOf t heap' ⟨element, true⟩ = true := by
  refine (safe_newArray hheap helement).bind fun heap₁ array hgrows₁ htyped₁ harray => ?_
  have hfill : Safe t heap₁ (fill array 0 parts) fun _ _ => True :=
    safe_fill htyped₁ helement harray fun x hx => (hparts x hx).mono hgrows₁
  refine hfill.bind fun heap₂ _ hgrows₂ htyped₂ _ => ?_
  exact .pure htyped₂ (Datum.isOf_mono hgrows₂ harray)

end Run
end
end JmmCompiler

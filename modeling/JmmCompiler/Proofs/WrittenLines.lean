import JmmCompiler.Proofs.EmittedRun
/-! Which lines are written. The lines of an instruction name the slots of variables that the instruction mentions, and
call a method only if the instruction does. -/
namespace JmmCompiler

/-- The variables that an element mentions, at any depth. A class is none. -/
def Element.mentioned : Element → List String
  | literal .. | classRef .. | absent => []
  | var name _ => [name]
  | item array _ index => array :: index.mentioned

/-- The integers in an element, at any depth. -/
def Element.literals : Element → List Int
  | literal n _ => [n]
  | item _ _ index => index.literals
  | var .. | classRef .. | absent => []

namespace Instruction

/-- The variables that the operands of an instruction mention, at any depth. -/
def mentioned : Instruction → List String
  | single e | unary _ e _ | ret e _ => e.mentioned
  | binary _ l r _ => l.mentioned ++ r.mentioned
  | call _ receiver _ args _ => receiver.mentioned ++ args.flatMap Element.mentioned
  | getField object field => object.mentioned ++ field.mentioned
  | putField object field value => object.mentioned ++ field.mentioned ++ value.mentioned
  | assign dest value => dest.mentioned ++ value.mentioned
  | branch condition _ => condition.mentioned
  | goto _ | nop | label _ => []

/-- The integers in the operands of an instruction, at any depth. -/
def literals : Instruction → List Int
  | single e | unary _ e _ | ret e _ => e.literals
  | binary _ l r _ => l.literals ++ r.literals
  | call _ receiver _ args _ => receiver.literals ++ args.flatMap Element.literals
  | getField object field => object.literals ++ field.literals
  | putField object field value => object.literals ++ field.literals ++ value.literals
  | assign dest value => dest.literals ++ value.literals
  | branch condition _ => condition.literals
  | goto _ | nop | label _ => []

/-- Whether an instruction reads or writes a field, itself or for the value that it takes. -/
def accessesField : Instruction → Bool
  | getField .. | putField .. => true
  | assign _ value => value.accessesField
  | branch condition _ => condition.accessesField
  | _ => false

/-- Whether an instruction calls a method. Objects and arrays are made, and arrays measured, in other ways. -/
def invokes : Instruction → Bool
  | .assign _ value => value.invokes
  | .branch condition _ => condition.invokes
  | .call .virtual _ _ _ _ | .call .static _ _ _ _ => true
  | _ => false

/-- Where an instruction stores a value. -/
def dest? : Instruction → Option Element
  | assign dest _ => some dest
  | _ => none

end Instruction

namespace Jasmin

/-- Lines that call a method. Constructors are called in another way. -/
def Line.invokes : Line → Bool
  | invoke .virtual _ _ _ | invoke .static _ _ _ => true
  | _ => false

/-- The slot that a line names. -/
def Line.slot? : Line → Option Int
  | slot _ n | increment n _ => some n
  | _ => none

/-- The integer that a line gives. -/
def Line.const? : Line → Option Int
  | const n => some n
  | _ => none

namespace Emit
variable {α β : Type} {f : Emit α} {g : α → Emit β} {P : Line → Prop}

/-- What an emission that succeeds adds to a body are lines of a kind. -/
def Writes (P : Line → Prop) (f : Emit α) : Prop :=
  ∀ b a b', runOn f b = (.ok a, b') → ∃ added, b'.lines = b.lines ++ added ∧ ∀ l ∈ added, P l

theorem Writes.pure (a : α) : Writes P (Pure.pure a) := by
  intro b a' b' h
  simp only [runOn_pure, Prod.mk.injEq] at h
  obtain ⟨-, rfl⟩ := h
  exact ⟨[], by simp, by simp⟩

theorem Writes.throw (e : Failure) : Writes P (throw e : Emit α) := by
  intro b a b' h
  simp at h

theorem Writes.bind (hf : Writes P f) (hg : ∀ a, Writes P (g a)) : Writes P (f >>= g) := by
  intro b c b'' h
  obtain ⟨a, b', hfa, hga⟩ := runOn_bind_eq_ok.1 h
  obtain ⟨added, hlines, hadded⟩ := hf b a b' hfa
  obtain ⟨added', hlines', hadded'⟩ := hg a b' c b'' hga
  exact ⟨added ++ added', by rw [hlines', hlines, List.append_assoc], List.forall_mem_append.2 ⟨hadded, hadded'⟩⟩

/-- What follows on a result that does not touch the body. -/
theorem Writes.known {x : Except Failure α} (h : ∀ a, x = .ok a → Writes P (g a)) : Writes P (ofExcept x >>= g) := by
  intro b c b'' hrun
  obtain ⟨a, b', hx, hga⟩ := runOn_bind_eq_ok.1 hrun
  rw [runOn_ofExcept] at hx
  obtain ⟨rfl, rfl⟩ := Prod.mk.inj hx
  exact h a rfl b c b'' hga

theorem writes_line {l : Line} (h : P l) : Writes P (line l) := by
  intro b a b' hrun
  simp only [runOn_line, Prod.mk.injEq] at hrun
  obtain ⟨-, rfl⟩ := hrun
  exact ⟨[l], rfl, by simpa using h⟩

end Emit

namespace Scope
open Emit

/-- Variables and integers that are among those of two sets. -/
structure Drawn (X : Set String) (K : Set Int) (xs : List String) (ns : List Int) : Prop where
  mentioned : ∀ x ∈ xs, x ∈ X
  literals : ∀ n ∈ ns, n ∈ K

section
variable {X : Set String} {K : Set Int} {x : String} {xs ys : List String} {ns ms : List Int}

theorem drawn_append : Drawn X K (xs ++ ys) (ns ++ ms) ↔ Drawn X K xs ns ∧ Drawn X K ys ms := by
  constructor
  · rintro ⟨hmentioned, hliterals⟩
    rw [List.forall_mem_append] at hmentioned hliterals
    exact ⟨⟨hmentioned.1, hliterals.1⟩, hmentioned.2, hliterals.2⟩
  · rintro ⟨h, h'⟩
    exact ⟨List.forall_mem_append.2 ⟨h.mentioned, h'.mentioned⟩, List.forall_mem_append.2 ⟨h.literals, h'.literals⟩⟩

theorem drawn_cons : Drawn X K (x :: xs) ns ↔ x ∈ X ∧ Drawn X K xs ns := by
  constructor
  · rintro ⟨hmentioned, hliterals⟩
    exact ⟨hmentioned x (by simp), fun y hy => hmentioned y (by simp [hy]), hliterals⟩
  · rintro ⟨hx, h⟩
    exact ⟨List.forall_mem_cons.2 ⟨hx, h.mentioned⟩, h.literals⟩

end

/-- Lines of a kind are those of a method that names the slots of some variables and gives some integers only: the kind has
all lines that name such a slot or give such an integer or a truth value, and those that do neither and call no method. -/
structure Allows (s : Scope) (P : Line → Prop) (X : Set String) (K : Set Int) : Prop where
  other : ∀ l, l.slot? = none → l.const? = none → l.invokes = false → P l
  slot : ∀ x ∈ X, ∀ n, s.method.slot x = .ok n → ∀ op, P (.slot op n)
  increment : ∀ x ∈ X, ∀ n, s.method.slot x = .ok n → ∀ amount, fitsByte amount = true → P (.increment n amount)
  const : ∀ n ∈ K, P (.const n)
  zero : P (.const 0)
  one : P (.const 1)

namespace Allows
variable {s : Scope} {P : Line → Prop} {X : Set String} {K : Set Int} (hs : s.Allows P X K)
include hs

theorem writes_other {l : Line} (hslot : l.slot? = none) (hconst : l.const? = none) (hinvokes : l.invokes = false) :
    Writes P (line l) :=
  writes_line (hs.other l hslot hconst hinvokes)

theorem writes_slot (op : SlotOp) {name : String} (h : name ∈ X) : Writes P (s.slot op name) := by
  refine .known fun n hn => ?_
  unfold Emit.slot
  split
  · exact .throw _
  · exact writes_line (hs.slot name h n hn _)

theorem writes_numberJump (compared : Compared) (op label : String) : Writes P (numberJump compared op label) := by
  unfold numberJump
  split
  · exact hs.writes_other rfl rfl rfl
  · exact .throw _

theorem writes_referenceJump (op label : String) : Writes P (referenceJump op label) := by
  unfold referenceJump
  split
  · exact hs.writes_other rfl rfl rfl
  · exact hs.writes_other rfl rfl rfl
  · exact .throw _

theorem writes_load {e : Element} (h : Drawn X K e.mentioned e.literals) : Writes P (s.load e) := by
  induction e with
  | literal n type => exact writes_line (hs.const n (h.literals n (by simp [Element.literals])))
  | var name type => exact hs.writes_slot _ (h.mentioned name (by simp [Element.mentioned]))
  | classRef name type => exact .throw _
  | item array type index ih =>
    obtain ⟨harray, hindex⟩ := drawn_cons.1 h
    exact (hs.writes_slot _ harray).bind fun _ => (ih hindex).bind fun _ => hs.writes_other rfl rfl rfl
  | absent => exact .throw _

theorem writes_loadAll {es : List Element} (h : Drawn X K (es.flatMap Element.mentioned) (es.flatMap Element.literals)) :
    Writes P (s.loadAll es) := by
  induction es with
  | nil => exact .pure _
  | cons e es ih =>
    rw [List.flatMap_cons, List.flatMap_cons, drawn_append] at h
    exact (hs.writes_load h.1).bind fun _ => ih h.2

theorem writes_store {dest : Element} (h : ∀ x, dest.name = .ok x → x ∈ X) : Writes P (s.store dest) := by
  refine .known fun name hname => .known fun n hn => .known fun type _ => ?_
  unfold Emit.slot
  split
  · exact .throw _
  · exact writes_line (hs.slot name (h name hname) n hn _)

theorem writes_compareJump (op : String) {left right : Element} (hleft : Drawn X K left.mentioned left.literals)
    (hright : Drawn X K right.mentioned right.literals) (label : String) : Writes P (s.compareJump op left right label) := by
  unfold compareJump
  refine (hs.writes_load hleft).bind fun _ => .known fun type _ => ?_
  split
  · exact (hs.writes_load hright).bind fun _ => hs.writes_referenceJump op label
  · split
    · exact hs.writes_numberJump _ op label
    · exact (hs.writes_load hright).bind fun _ => hs.writes_numberJump _ op label

theorem writes_boolean {f : String → Emit Unit} (hf : ∀ label, Writes P (f label)) :
    Writes P (do
      let label ← newLabel "j_true"
      f label
      booleanResult label) := by
  intro b a b' h
  obtain ⟨b₂, hjump, rfl⟩ := runOn_boolean_eq_ok.1 h
  obtain ⟨added, hlines, hadded⟩ := hf _ _ _ _ hjump
  refine ⟨added ++ booleanLines b.nextLabel b₂.nextLabel, by simp [hlines, List.append_assoc], ?_⟩
  refine List.forall_mem_append.2 ⟨hadded, fun l hl => ?_⟩
  simp only [booleanLines, List.mem_cons, List.not_mem_nil, or_false] at hl
  rcases hl with rfl | rfl | rfl | rfl | rfl
  · exact hs.zero
  · exact hs.other _ rfl rfl rfl
  · exact hs.other _ rfl rfl rfl
  · exact hs.one
  · exact hs.other _ rfl rfl rfl

theorem writes_binary (op : String) {left right : Element} (hleft : Drawn X K left.mentioned left.literals)
    (hright : Drawn X K right.mentioned right.literals) : Writes P (s.binary op left right) := by
  unfold binary
  split
  · exact .throw _
  · split
    · exact (hs.writes_load hleft).bind fun _ => (hs.writes_load hright).bind fun _ => hs.writes_other rfl rfl rfl
    · exact hs.writes_boolean fun label => hs.writes_compareJump op hleft hright label

theorem writes_unary (op : String) {e : Element} (h : Drawn X K e.mentioned e.literals) : Writes P (s.unary op e) := by
  by_cases hop : op = "!"
  · subst hop
    rw [unary_not]
    exact hs.writes_boolean fun label => (hs.writes_load h).bind fun _ => hs.writes_other rfl rfl rfl
  · intro b a b' hrun
    simp [unary, hop] at hrun

theorem writes_field (op : FieldOp) (f : Element) : Writes P (s.field op f) :=
  .known fun _ _ => .known fun _ _ => hs.writes_other rfl rfl rfl

/-- The lines that make the value of an instruction. -/
theorem writes_value {i : Instruction} (h : Drawn X K i.mentioned i.literals)
    (haccesses : i.accessesField = true → P (.slot .aload 0))
    (hinvokes : i.invokes = true → ∀ op owner name descriptor, P (.invoke op owner name descriptor)) :
    Writes P (s.value i) := by
  cases i with
  | single e => exact hs.writes_load h
  | binary op left right type =>
    obtain ⟨hleft, hright⟩ := drawn_append.1 h
    exact hs.writes_binary op hleft hright
  | unary op e type => exact hs.writes_unary op h
  | getField object f => exact (writes_line (haccesses rfl)).bind fun _ => hs.writes_field _ f
  | call invocation receiver method args type =>
    obtain ⟨hreceiver, hargs⟩ := drawn_append.1 h
    cases invocation with
    | new =>
      simp only [value, call]
      split
      · split
        · rw [List.flatMap_cons, List.flatMap_cons, drawn_append] at hargs
          exact (hs.writes_load hargs.1).bind fun _ => hs.writes_other rfl rfl rfl
        · exact .throw _
      · exact hs.writes_other rfl rfl rfl
    | arrayLength => exact (hs.writes_load hreceiver).bind fun _ => hs.writes_other rfl rfl rfl
    | special =>
      exact (hs.writes_load hreceiver).bind fun _ => (hs.writes_loadAll hargs).bind fun _ => .known fun _ _ =>
        .known fun _ _ => hs.writes_other rfl rfl rfl
    | static =>
      exact (hs.writes_loadAll hargs).bind fun _ => .known fun _ _ => .known fun _ _ => writes_line (hinvokes rfl _ _ _ _)
    | virtual =>
      exact (hs.writes_load hreceiver).bind fun _ => (hs.writes_loadAll hargs).bind fun _ => .known fun _ _ =>
        .known fun _ _ => writes_line (hinvokes rfl _ _ _ _)
  | _ => exact .throw _

theorem writes_assign {dest : Element} {i : Instruction}
    (h : Drawn X K (dest.mentioned ++ i.mentioned) (dest.literals ++ i.literals))
    (hdest : ∀ x, dest.name = .ok x → x ∈ X) (haccesses : i.accessesField = true → P (.slot .aload 0))
    (hinvokes : i.invokes = true → ∀ op owner name descriptor, P (.invoke op owner name descriptor)) :
    Writes P (s.assign dest i) := by
  obtain ⟨hplace, hvalue⟩ := drawn_append.1 h
  have hplain : Writes P (s.assignVariable dest i) := by
    refine .known fun amount _ => ?_
    cases amount with
    | some amount =>
      refine .known fun name hname => .known fun n hn => ?_
      unfold Emit.increment
      split
      · rename_i hfits
        exact writes_line (hs.increment name (hdest name hname) n hn amount hfits)
      · exact .throw _
    | none => exact (hs.writes_value hvalue haccesses hinvokes).bind fun _ => hs.writes_store hdest
  cases dest with
  | item array type index =>
    obtain ⟨harray, hindex⟩ := drawn_cons.1 hplace
    exact (hs.writes_slot _ harray).bind fun _ => (hs.writes_load hindex).bind fun _ =>
      (hs.writes_value hvalue haccesses hinvokes).bind fun _ => hs.writes_other rfl rfl rfl
  | _ => exact hplain

theorem writes_branch {condition : Instruction} (h : Drawn X K condition.mentioned condition.literals)
    (haccesses : condition.accessesField = true → P (.slot .aload 0))
    (hinvokes : condition.invokes = true → ∀ op owner name descriptor, P (.invoke op owner name descriptor))
    (label : String) : Writes P (s.branch condition label) := by
  unfold branch
  split
  · rename_i op left right type
    obtain ⟨hleft, hright⟩ := drawn_append.1 h
    split
    · exact hs.writes_compareJump _ hleft hright label
    · exact (hs.writes_value h haccesses hinvokes).bind fun _ => hs.writes_other rfl rfl rfl
  · exact (hs.writes_load h).bind fun _ => hs.writes_other rfl rfl rfl
  · exact (hs.writes_value h haccesses hinvokes).bind fun _ => hs.writes_other rfl rfl rfl

/-- The lines of an instruction that mentions no other variables and stores into no others. -/
theorem writes_instruction {i : Instruction} (h : Drawn X K i.mentioned i.literals)
    (hdest : ∀ dest ∈ i.dest?, ∀ x, dest.name = .ok x → x ∈ X) (haccesses : i.accessesField = true → P (.slot .aload 0))
    (hinvokes : i.invokes = true → ∀ op owner name descriptor, P (.invoke op owner name descriptor)) :
    Writes P (s.instruction i) := by
  have hpopped (hvalue : Writes P (s.value i)) : Writes P (do
      s.value i
      Emit.plain .pop) := hvalue.bind fun _ => hs.writes_other rfl rfl rfl
  cases i with
  | assign dest i => exact hs.writes_assign h (hdest dest rfl) haccesses hinvokes
  | call invocation receiver method args type =>
    have hcall : Writes P (s.call invocation receiver method args type) := hs.writes_value h haccesses hinvokes
    refine hcall.bind fun _ => ?_
    split
    · exact hs.writes_other rfl rfl rfl
    · exact .pure _
  | putField object f e =>
    have he := (drawn_append.1 h).2
    exact (writes_line (haccesses rfl)).bind fun _ => (hs.writes_load he).bind fun _ => hs.writes_field _ f
  | ret e type =>
    simp only [instruction, ret]
    split
    · exact hs.writes_other rfl rfl rfl
    · exact (hs.writes_load h).bind fun _ => hs.writes_other rfl rfl rfl
  | branch condition label =>
    exact hs.writes_branch (show Drawn X K condition.mentioned condition.literals from h) haccesses hinvokes label
  | goto label => exact hs.writes_other rfl rfl rfl
  | nop => exact hs.writes_other rfl rfl rfl
  | label name => exact .throw _
  | single e => exact hpopped (hs.writes_value h haccesses hinvokes)
  | binary op left right type => exact hpopped (hs.writes_value h haccesses hinvokes)
  | unary op e type => exact hpopped (hs.writes_value h haccesses hinvokes)
  | getField object f => exact hpopped (hs.writes_value h haccesses hinvokes)

end Allows

/-- What holds of labels and of the lines of each instruction holds of all lines of a body. -/
theorem writes_body {s : Scope} {P : Line → Prop} (hlabel : ∀ name, P (.label name)) (hret : P (.plain .ret))
    (h : ∀ i ∈ s.method.code, Writes P (s.instruction i)) : Writes P s.body := by
  have hinstructions (is : List Instruction) (his : ∀ i ∈ is, Writes P (s.instruction i)) (index : Nat) :
      Writes P (s.instructions index is) := by
    induction is generalizing index with
    | nil => exact .pure _
    | cons i is ih =>
      obtain ⟨hi, hrest⟩ := List.forall_mem_cons.1 his
      intro b _ b' hrun
      obtain ⟨b₁, hfirst, hmore⟩ := runOn_instructions_cons.1 hrun
      obtain ⟨added, hlines, hadded⟩ := hi _ _ _ hfirst
      obtain ⟨added', hlines', hadded'⟩ := ih hrest (index + 1) _ _ _ hmore
      refine ⟨(s.method.labelsAt index).map .label ++ added ++ added', by simp [hlines', hlines], ?_⟩
      simp only [List.forall_mem_append, List.forall_mem_map]
      exact ⟨⟨fun name _ => hlabel name, hadded⟩, hadded'⟩
  refine (hinstructions _ h 0).bind fun _ => ?_
  split
  · exact writes_line hret
  · exact .pure _

end Scope
end Jasmin
end JmmCompiler

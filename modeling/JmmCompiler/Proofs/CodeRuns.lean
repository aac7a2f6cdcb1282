import JmmCompiler.Proofs.CodeSteps
import JmmCompiler.Proofs.Freshness
/-! Sequences of instructions as computations on the variables of a method. A value that is lowered stays what it is
while later code assigns temporaries only that were yet to be given out. -/
namespace JmmCompiler

theorem Machine.Delivers.imp {S W α : Type} {M : Machine S W} {n : Nat} {s : S} {r : Except Trap α × W}
    {after after' : α → W → S → Prop} (h : M.Delivers n s r after) (himp : ∀ a w t, after a w t → after' a w t) :
    M.Delivers n s r after' := by
  rcases r with ⟨trap | a, w⟩
  · exact h
  · obtain ⟨t, hreaches, ht⟩ := h
    exact ⟨t, hreaches, himp a w t ht⟩

/-- Steps behind what the machine carries out. -/
theorem Machine.Delivers.onward {S W α : Type} {M : Machine S W} {n : Nat} {s : S} {r : Except Trap α × W}
    {after after' : α → W → S → Prop} (h : M.Delivers n s r after)
    (honward : ∀ a w t, after a w t → ∃ u, M.Reaches 0 t u ∧ after' a w u) : M.Delivers n s r after' := by
  rcases r with ⟨trap | a, w⟩
  · exact h
  · obtain ⟨t, hreaches, ht⟩ := h
    obtain ⟨u, hu, ha⟩ := honward a w t ht
    exact ⟨u, hreaches.trans hu, ha⟩

/-- What is said of a value that follows from another. -/
theorem Machine.Delivers.of_map {S W α β : Type} {M : Machine S W} {n : Nat} {s : S} {x : Act W α} {f : α → β} {w : W}
    {after : β → W → S → Prop} (h : M.Delivers n s (runOn (do return f (← x)) w) after) :
    M.Delivers n s (runOn x w) fun a => after (f a) := by
  rw [runOn_bind] at h
  rcases hx : runOn x w with ⟨trap | a, w'⟩
  · rw [hx] at h
    exact h
  · rw [hx] at h
    exact h

namespace Query
variable {W : Type} (ask : Query → Act W Value)

@[simp] theorem setting_ask (request : Request) : (setting ask).ask request = ask request.query := rfl

@[simp] theorem setting_held (type : Ty) (value : Value) : (setting ask).held type value = pure value := rfl

end Query

namespace Element

/-- An element stands for a value. A variable without a slot is never read, and neither is the value of a call that
gives none. -/
def Gives (read : String → Option Value) (v : Value) : Element → Prop
  | literal n _ => v = .int n
  | var x _ => ∀ v', read x = some v' → v' = v
  | absent => True
  | classRef .. | item .. => False

/-- A value that is lowered is no temporary that is yet to be given out. -/
def Old (ns : Names) : Element → Prop
  | var x _ => ¬ns.Fresh x
  | literal .. | absent => True
  | classRef .. | item .. => False

theorem Old.later {ns ns' : Names} (h : ns.Later ns') {e : Element} (he : e.Old ns) : e.Old ns' := by
  cases e with
  | var x type => exact fun hx => he (h.fresh hx)
  | _ => exact he

theorem Old.not_fresh {ns : Names} {e : Element} {x : String} (he : e.Old ns) (hx : e.name = .ok x) : ¬ns.Fresh x := by
  cases e with
  | var y type => exact Except.ok.inj hx ▸ he
  | classRef y type => exact he.elim
  | item array type index => exact he.elim
  | literal n type => cases hx
  | absent => cases hx

end Element

namespace CodeMethod
variable {W α β : Type} {m : CodeMethod} {ask : Query → Act W Value} {ns ns' : Names}
  {memory memory₁ memory₂ : Int → Value} {e : Element} {v : Value} {x : String}

/-! ## Slots -/

/-- All of some names have slots. -/
def HasSlotsFor (m : CodeMethod) (names : Except Failure (List String)) : Prop :=
  ∃ xs, names = .ok xs ∧ ∀ x ∈ xs, ∃ n, m.slots.find? x = some n

/-- A method in which all that instructions mention has a slot of its own. -/
structure IsFinished (m : CodeMethod) : Prop where
  packed : m.slots.Packed
  mentions : ∀ (k : Nat) (i : Instruction), m.code[k]? = some i → m.HasSlotsFor i.defs ∧ m.HasSlotsFor i.uses

theorem hasSlotsFor_append {y z : Except Failure (List String)} (h : m.HasSlotsFor (do
    let a ← y
    return a ++ (← z))) : m.HasSlotsFor y ∧ m.HasSlotsFor z := by
  obtain ⟨xs, hxs, hslots⟩ := h
  simp only [bind_eq_ok, pure_eq_ok] at hxs
  obtain ⟨ys, hys, zs, hzs, rfl⟩ := hxs
  exact ⟨⟨ys, hys, fun x hx => hslots x (List.mem_append_left zs hx)⟩,
    ⟨zs, hzs, fun x hx => hslots x (List.mem_append_right ys hx)⟩⟩

theorem hasSlotsFor_call {invocation : Invocation} {receiver : Element} {method : Option String} {args : List Element}
    {type : Ty} (h : m.HasSlotsFor (Instruction.call invocation receiver method args type).uses) :
    m.HasSlotsFor (Instruction.optionalNames receiver) ∧ m.HasSlotsFor (List.flatten <$> args.mapM Element.names) := by
  refine hasSlotsFor_append ?_
  rw [Instruction.uses] at h
  simpa only [map_eq_pure_bind, bind_assoc, pure_bind] using h

theorem hasSlotsFor_of_mem {es : List Element} (h : m.HasSlotsFor (List.flatten <$> es.mapM Element.names)) (he : e ∈ es) :
    m.HasSlotsFor e.names := by
  obtain ⟨xs, hxs, hslots⟩ := h
  obtain ⟨names, hnames, rfl⟩ := map_eq_ok.1 hxs
  obtain ⟨found, hfound, hnames⟩ := exists_of_mapM hnames he
  exact ⟨found, hnames, fun x hx => hslots x (List.mem_flatten.2 ⟨found, hfound, hx⟩)⟩

theorem hasSlotsFor_of_optional (h : m.HasSlotsFor (Instruction.optionalNames e)) (he : e ≠ .absent) :
    m.HasSlotsFor e.names := by
  cases e with
  | absent => exact absurd rfl he
  | _ => exact h

theorem read_of_slot {n : Int} (h : m.slots.find? x = some n) (memory : Int → Value) :
    m.read memory x = some (memory n) := by
  rw [read, h, Option.map_some]

/-- An operand that can be read has the value that it stands for. -/
theorem operand_of_gives (ask : Query → Act W Value) (hslots : m.HasSlotsFor e.names) (h : e.Gives (m.read memory) v) :
    (Query.setting ask).operand (m.read memory) e = pure v := by
  cases e with
  | literal n type =>
    obtain rfl : v = .int n := h
    rfl
  | var x type =>
    obtain ⟨_, hnames, hx⟩ := hslots
    obtain rfl := Except.ok.inj hnames
    obtain ⟨n, hn⟩ := hx x List.mem_cons_self
    have hread := read_of_slot hn memory
    obtain rfl := h _ hread
    simp [Setting.operand, Setting.lookup, hread]
  | absent =>
    obtain ⟨_, hnames, -⟩ := hslots
    cases hnames
  | classRef name type => exact h.elim
  | item array type index => exact h.elim

theorem operands_of_gives (ask : Query → Act W Value) {es : List Element} {vs : List Value}
    (hslots : m.HasSlotsFor (List.flatten <$> es.mapM Element.names))
    (h : List.Forall₂ (fun e v => e.Gives (m.read memory) v) es vs) :
    (Query.setting ask).operands (m.read memory) es = pure vs := by
  replace hslots := fun e he => hasSlotsFor_of_mem (e := e) hslots he
  induction h with
  | nil => rfl
  | cons he _ ih =>
    obtain ⟨hhead, htail⟩ := List.forall_mem_cons.1 hslots
    simp only [Setting.operands, operand_of_gives ask hhead he, ih htail, pure_bind]

/-! ## What stays -/

/-- Nothing has changed but temporaries that were yet to be given out. -/
def Frame (m : CodeMethod) (ns : Names) (memory memory' : Int → Value) : Prop :=
  ∀ x, ¬ns.Fresh x → m.read memory' x = m.read memory x

theorem Frame.refl (ns : Names) (memory : Int → Value) : m.Frame ns memory memory := fun _ _ => rfl

theorem Frame.trans (h : m.Frame ns memory memory₁) (hlater : ns.Later ns') (h' : m.Frame ns' memory₁ memory₂) :
    m.Frame ns memory memory₂ :=
  fun x hx => (h' x fun hfresh => hx (hlater.fresh hfresh)).trans (h x hx)

theorem Frame.gives (h : m.Frame ns memory memory₁) (hold : e.Old ns) (he : e.Gives (m.read memory) v) :
    e.Gives (m.read memory₁) v := by
  cases e with
  | var x type => exact fun v' hv' => he v' ((h x hold).symm.trans hv')
  | literal n type => exact he
  | absent => trivial
  | classRef name type => exact he
  | item array type index => exact he

theorem frame_write (hm : m.IsFinished) (hx : ns.Fresh x) (memory : Int → Value) (v : Value) :
    m.Frame ns memory (m.write memory x v) := by
  intro y hy
  have hne : x ≠ y := by
    rintro rfl
    exact hy hx
  exact read_write_of_apart (hm.packed.apart hne) memory v

/-! ## Sequences -/

variable {is js : List Instruction} {y : Act W α} {g : α → Act W β} {P : α → (Int → Value) → Prop}
  {Q : β → (Int → Value) → Prop}

/-- Wherever a sequence of instructions stands, it carries out a computation, and is left at its end. -/
def Runs (m : CodeMethod) (ask : Query → Act W Value) (is : List Instruction) (memory : Int → Value) (y : Act W α)
    (P : α → (Int → Value) → Prop) : Prop :=
  ∀ pc w, m.Contains pc is → (m.machine ask).Delivers 0 (m.place pc memory w) (runOn y w) fun a w' s =>
    ∃ memory', s = m.place (pc + size is) memory' w' ∧ P a memory'

theorem Runs.nil {a : α} (h : P a memory) : m.Runs ask [] memory (pure a) P :=
  fun _ _ _ => .pure a ⟨memory, rfl, h⟩

theorem Runs.imp {P' : α → (Int → Value) → Prop} (h : m.Runs ask is memory y P)
    (himp : ∀ a memory, P a memory → P' a memory) :
    m.Runs ask is memory y P' := by
  intro pc w hcontains
  refine (h pc w hcontains).imp fun a w' s hs => ?_
  obtain ⟨memory', hs, ha⟩ := hs
  exact ⟨memory', hs, himp a memory' ha⟩

theorem Runs.append (hy : m.Runs ask is memory y P) (hg : ∀ a memory', P a memory' → m.Runs ask js memory' (g a) Q) :
    m.Runs ask (is ++ js) memory (y >>= g) Q := by
  intro pc w hcontains
  obtain ⟨his, hjs⟩ := contains_append.1 hcontains
  rw [size_append, ← Nat.add_assoc]
  refine ((hy pc w his).bind (n := 0) fun a w' s _ hs => ?_).weaken (Nat.zero_le _)
  obtain ⟨memory', rfl, ha⟩ := hs
  exact hg a memory' ha (pc + size is) w' hjs

/-- What follows from a computation without further instructions. -/
theorem Runs.map {f : α → β} (h : m.Runs ask is memory y P) (himp : ∀ a memory, P a memory → Q (f a) memory) :
    m.Runs ask is memory (do return f (← y)) Q := by
  have hnil (a : α) (memory' : Int → Value) (ha : P a memory') : m.Runs ask [] memory' (pure (f a)) Q :=
    .nil (himp a memory' ha)
  simpa only [List.append_nil] using h.append hnil

/-- An assignment to a variable, which then has the value. -/
theorem Runs.assign (hm : m.IsFinished) {type : Ty} {i : Instruction} {y : Act W Value}
    (h : m.HasSlotsFor i.uses → (Query.setting ask).value (m.read memory) i = y) :
    m.Runs ask [.assign (.var x type) i] memory y fun v memory' =>
      memory' = m.write memory x v ∧ m.read memory' x = some v := by
  intro pc w hcontains
  have hi : m.code[pc]? = some (.assign (.var x type) i) := hcontains.1
  obtain ⟨⟨_, hdefs, hslot⟩, huses⟩ := hm.mentions pc _ hi
  obtain ⟨n, hn⟩ : ∃ n, m.slots.find? x = some n := by
    obtain rfl : [x] = _ := Except.ok.inj hdefs
    exact hslot x List.mem_cons_self
  have hvalue : m.HasSlotsFor i.uses := by
    obtain ⟨xs, hxs, hslots⟩ := huses
    simp only [Instruction.uses, Element.isItem, bind_eq_ok, Bool.false_eq_true, if_false, pure_eq_ok, exists_eq_right] at hxs
    exact ⟨xs, hxs, hslots⟩
  rw [← h hvalue]
  refine ((delivers_assign hi).weaken (Nat.zero_le 1)).imp fun v w' s hs => ?_
  exact ⟨_, hs, rfl, read_write_self hn memory v⟩

/-- An instruction that assigns no variable and does not jump. -/
theorem Runs.effect (hm : m.IsFinished) {i : Instruction} (hlabel : ∀ name, i ≠ .label name)
    (hexits : m.exits i = .ok ([], true)) (hdefs : i.defs = .ok []) (value : α → Value)
    (hact : m.HasSlotsFor i.uses → (Query.setting ask).act (m.read memory) i = (do
      let a ← y
      pure (value a, .follow 0))) :
    m.Runs ask [i] memory y fun _ memory' => memory' = memory := by
  intro pc w hcontains
  have hplace : m.code[pc]? = some i ∧ size [i] = 1 := by
    cases i with
    | label name => exact absurd rfl (hlabel name)
    | _ => exact ⟨hcontains.1, rfl⟩
  obtain ⟨hi, hsize⟩ := hplace
  have hrun := delivers_effect (w := w) hi hexits hdefs (hact (hm.mentions pc i hi).2)
  rw [hsize]
  exact (hrun.weaken (Nat.zero_le 1)).imp fun a w' s hs => ⟨memory, hs, rfl⟩

/-- A jump on what is not true. -/
theorem delivers_branch_not {label : String} {type : Ty} {pc target : Nat} {w : W} (hm : m.IsFinished)
    (hi : m.code[pc]? = some (.branch (.unary "!" e type) label)) (hlabel : m.labels.find? label = some target)
    (htarget : target < m.code.length) (he : e.Gives (m.read memory) v) :
    (m.machine ask).Delivers 1 (m.place pc memory w) (runOn (Act.truth v) w) fun b w' s =>
      s = m.place (if b then pc + 1 else target) memory w' := by
  have hslots : m.HasSlotsFor e.names := (hm.mentions pc _ hi).2
  have h : (m.machine ask).Delivers 1 (m.place pc memory w) _ _ := delivers_branch hi hlabel htarget
  have htest : (do Act.truth (← (Query.setting ask).value (m.read memory) (.unary "!" e type))) =
      (do return !(← Act.truth v) : Act W Bool) := by
    have hnot (b : Bool) : (Act.truth (.ofBool !b) : Act W Bool) = pure !b := by cases b <;> rfl
    simp only [Setting.value, operand_of_gives ask hslots he, pure_bind, if_true, bind_assoc, hnot]
  rw [htest] at h
  refine h.of_map.imp fun b w' s hs => ?_
  rw [hs]
  cases b <;> rfl

/-- One of two sequences, the first where a value is true. -/
theorem Runs.choice (hm : m.IsFinished) (type : Ty) (other done : String) {y z : Act W α} (he : e.Gives (m.read memory) v)
    (hy : m.Runs ask is memory y P) (hz : m.Runs ask js memory z P) :
    m.Runs ask ([.branch (.unary "!" e type) other] ++ is ++ [.goto done, .label other] ++ js ++ [.label done]) memory
      (do if ← Act.truth v then y else z) P := by
  intro pc w hcontains
  simp only [contains_append, size_append, Contains, size, and_true] at hcontains
  obtain ⟨⟨⟨⟨hbranch, his⟩, hgoto, hother⟩, hjs⟩, hdone⟩ := hcontains
  refine ((delivers_branch_not hm hbranch hother.1 hother.2 he).bind (n := 0) fun b w' s _ hs => ?_).weaken (Nat.zero_le _)
  rw [hs]
  simp only [size_append, size]
  cases b with
  | true =>
    refine (hy (pc + 1) w' his).onward fun a w'' t ht => ?_
    obtain ⟨memory', rfl, ha⟩ := ht
    rw [Nat.add_assoc pc 1]
    exact ⟨_, (reaches_goto hgoto hdone.1 hdone.2).weaken (Nat.zero_le 1), memory', rfl, ha⟩
  | false =>
    refine (hz _ w' hjs).imp fun a w'' t ht => ?_
    rwa [Nat.add_assoc pc] at ht

end CodeMethod
end JmmCompiler

import JmmCompiler.Proofs.CodeSteps
import Mathlib.Order.Interval.Set.Defs
import Mathlib.Data.Set.Function
/-! Calls on a method that is being made, in any order and failed ones included. A label that waits goes to
the next instruction and stays there, and a finished method numbers its variables without a gap. -/
namespace JmmCompiler

namespace Slots

/-- Every slot below the size of the table belongs to a variable. -/
def Full (s : Slots) : Prop := ∀ n : Int, 0 ≤ n → n < s.size → ∃ x, s.find? x = some n

theorem full_empty : Full {} := by
  intro n h₀ h₁
  simp only [Assoc.size, List.length_nil, Int.ofNat_zero] at h₁
  omega

theorem Full.insert {s : Slots} (h : s.Full) {name : String} (hnew : s.find? name = none) :
    Full (Assoc.insert s name s.size) := by
  intro n h₀ h₁
  rw [Assoc.size_insert hnew] at h₁
  by_cases hlt : n < s.size
  · obtain ⟨x, hx⟩ := h n h₀ hlt
    have hne : name ≠ x := by
      rintro rfl
      simp [hnew] at hx
    exact ⟨x, by rw [Assoc.find?_insert, if_neg hne, hx]⟩
  · obtain rfl : n = s.size := by omega
    exact ⟨name, by rw [Assoc.find?_insert, if_pos rfl]⟩

/-- The names of a packed and full table go one to one onto the numbers below its size. -/
theorem bijOn {s : Slots} (hpacked : s.Packed) (hfull : s.Full) :
    Set.BijOn s.find? {x | s.find? x ≠ none} (some '' Set.Ico 0 (s.size : Int)) := by
  refine ⟨fun x hx => ?_, fun x hx y _ hxy => ?_, ?_⟩
  · obtain ⟨n, hn⟩ := Option.ne_none_iff_exists'.1 hx
    exact ⟨n, ⟨hpacked.nonneg x n hn, hpacked.lt_size x n hn⟩, hn.symm⟩
  · obtain ⟨n, hn⟩ := Option.ne_none_iff_exists'.1 hx
    exact hpacked.injective x y n hn (hxy.symm.trans hn)
  · rintro _ ⟨n, hn, rfl⟩
    obtain ⟨x, hx⟩ := hfull n hn.1 hn.2
    exact ⟨x, by simp [hx], hx⟩

end Slots

namespace CodeMethod

theorem full_foldl_addSlot {s : Slots} (h : s.Full) (names : List String) :
    (names.foldl addSlot s).Full := by
  induction names generalizing s with
  | nil => exact h
  | cons x xs ih =>
    refine ih ?_
    unfold addSlot
    split
    · exact h
    · rename_i hnew
      exact h.insert (Assoc.not_contains_iff.1 hnew)

theorem find?_foldl_addSlot_ne_none {s : Slots} {names : List String} {x : String} :
    (names.foldl addSlot s).find? x ≠ none ↔ s.find? x ≠ none ∨ x ∈ names := by
  constructor
  · induction names generalizing s with
    | nil => exact .inl
    | cons y ys ih =>
      intro h
      rcases ih h with h | h
      · unfold addSlot at h
        split at h
        · exact .inl h
        · rw [Assoc.find?_insert] at h
          by_cases hy : y = x
          · exact .inr (by simp [hy])
          · exact .inl (by simpa [hy] using h)
      · exact .inr (List.mem_cons_of_mem _ h)
  · rintro (h | h)
    · obtain ⟨n, hn⟩ := Option.ne_none_iff_exists'.1 h
      simp [find?_foldl_addSlot hn]
    · obtain ⟨n, hn⟩ := exists_find?_foldl_addSlot (s := s) h
      simp [hn]

/-! ## Calls -/

/-- The method that gets its slots in the end: labels that still wait go to an instruction without effect. -/
def withoutPending (m : CodeMethod) : CodeMethod := if m.pending.isEmpty then m else m.addInstruction .nop

/-- A computation that changes a method in place. What it did before it failed stays done. -/
abbrev Change := ExceptT Failure (StateM CodeMethod)

namespace Change
variable (m : CodeMethod)

def addLabel (label : String) : Change Unit := do
  let m ← get
  if m.labels.contains label || m.pending.contains label then throw (.duplicateLabel label)
  set { m with pending := m.pending ++ [label] }

def add : Instruction → Change Unit
  | .label name => addLabel name
  | i => modify (·.addInstruction i)

def extend : List Instruction → Change Unit
  | [] => pure ()
  | i :: is => do
    add i
    extend is

def finish : Change Unit := do
  if !(← get).pending.isEmpty then add .nop
  match (← get).assignSlots with
  | .ok m => set m
  | .error e => throw e

theorem runOn_get_bind (f : CodeMethod → Change Unit) : runOn (get >>= f) m = runOn (f m) m := rfl

/-- A method after a step that may fail, or the method that is left when it failed. -/
def settle (left : CodeMethod) : Except Failure CodeMethod → Except Failure Unit × CodeMethod
  | .ok m => (.ok (), m)
  | .error e => (.error e, left)

theorem runOn_addLabel (label : String) : runOn (addLabel label) m = settle m (m.addLabel label) := by
  unfold addLabel CodeMethod.addLabel
  rw [runOn_get_bind]
  split
  · rfl
  · rfl

theorem runOn_add (i : Instruction) : runOn (add i) m = settle m (m.add i) := by
  cases i with
  | label name => exact runOn_addLabel m name
  | _ => rfl

theorem runOn_extend_cons (i : Instruction) (is : List Instruction) :
    runOn (extend (i :: is)) m = match m.add i with
      | .ok m₁ => runOn (extend is) m₁
      | .error e => (.error e, m) := by
  rw [extend, runOn_bind, runOn_add]
  cases m.add i <;> rfl

theorem runOn_finish : runOn finish m = settle m.withoutPending m.finish := by
  have hslots : ∀ m₁ : CodeMethod, runOn (do
      match (← get).assignSlots with
      | .ok m => set m
      | .error e => throw e : Change Unit) m₁ = settle m₁ m₁.assignSlots := by
    intro m₁
    rw [runOn_get_bind]
    cases m₁.assignSlots <;> rfl
  unfold finish CodeMethod.finish withoutPending
  rw [runOn_get_bind]
  by_cases hp : m.pending.isEmpty = true
  · simp only [hp]
    exact hslots m
  · simp only [hp]
    exact hslots (m.addInstruction .nop)

end Change

/-- The calls that make a method. -/
inductive Call where
  | add (i : Instruction)
  | extend (is : List Instruction)
  | addLabel (label : String)
  | finish

namespace Call

def change : Call → Change Unit
  | add i => .add i
  | extend is => .extend is
  | addLabel label => .addLabel label
  | finish => .finish

/-- The method that a call returns. -/
def result (m : CodeMethod) : Call → Except Failure CodeMethod
  | add i => m.add i
  | extend is => m.extend is
  | addLabel label => m.addLabel label
  | finish => m.finish

/-- In place or not, a call succeeds with the same method and fails for the same reason. -/
theorem runOn_change (c : Call) (m : CodeMethod) :
    ∃ left, runOn c.change m = Change.settle left (c.result m) := by
  cases c with
  | add i => exact ⟨m, Change.runOn_add m i⟩
  | addLabel label => exact ⟨m, Change.runOn_addLabel m label⟩
  | finish => exact ⟨m.withoutPending, Change.runOn_finish m⟩
  | extend is =>
    simp only [change, result]
    induction is generalizing m with
    | nil => exact ⟨m, rfl⟩
    | cons i is ih =>
      rw [Change.runOn_extend_cons, CodeMethod.extend, List.foldlM_cons]
      cases m.add i with
      | error e => exact ⟨m, rfl⟩
      | ok m₁ => exact ih m₁

theorem runOn_eq_ok_iff (c : Call) (m m' : CodeMethod) :
    runOn c.change m = (.ok (), m') ↔ c.result m = .ok m' := by
  obtain ⟨left, h⟩ := c.runOn_change m
  rw [h]
  cases c.result m <;> simp [Change.settle]

end Call

/-- What calls leave of a method, one after the other. -/
def afterCalls (m : CodeMethod) (calls : List Call) : CodeMethod := calls.foldl (fun m c => (runOn c.change m).2) m

/-! ## What every call keeps -/

/-- Labels stand at instructions that are there, and a label that waits is no other one. -/
structure Anchored (m : CodeMethod) : Prop where
  below : ∀ label k, m.labels.find? label = some k → k < m.code.length
  waiting : m.Waiting
  nodup : m.pending.Nodup

/-- One method goes on with another: its instructions and labels stay, and the labels that wait go to the
next instruction as soon as there is one. -/
structure Grows (m m' : CodeMethod) : Prop where
  params : m'.params = m.params
  isStatic : m'.isStatic = m.isStatic
  code : m.code <+: m'.code
  labels : ∀ label k, m.labels.find? label = some k → m'.labels.find? label = some k
  pending : ∀ label ∈ m.pending,
    if m'.code.length = m.code.length then label ∈ m'.pending
    else m'.labels.find? label = some m.code.length

variable {m m' m'' : CodeMethod}

theorem Grows.refl (m : CodeMethod) : m.Grows m where
  params := rfl
  isStatic := rfl
  code := List.prefix_refl _
  labels _ _ h := h
  pending label h := by rwa [if_pos rfl]

theorem Grows.trans (h : m.Grows m') (h' : m'.Grows m'') : m.Grows m'' where
  params := h'.params.trans h.params
  isStatic := h'.isStatic.trans h.isStatic
  code := h.code.trans h'.code
  labels label k hk := h'.labels label k (h.labels label k hk)
  pending label hlabel := by
    have hfirst := h.pending label hlabel
    have hlength := h.code.length_le
    have hlength' := h'.code.length_le
    by_cases hsame : m'.code.length = m.code.length
    · rw [if_pos hsame] at hfirst
      rw [← hsame]
      exact h'.pending label hfirst
    · rw [if_neg hsame] at hfirst
      rw [if_neg (by omega)]
      exact h'.labels label _ hfirst

/-- A method that keeps its labels anchored, and goes on with what it was. -/
def Continues (m m' : CodeMethod) : Prop := m.Anchored → m'.Anchored ∧ m.Grows m'

theorem Continues.refl (m : CodeMethod) : m.Continues m := fun h => ⟨h, .refl m⟩

theorem Continues.trans (h : m.Continues m') (h' : m'.Continues m'') : m.Continues m'' := by
  intro hm
  obtain ⟨hm', hgrows⟩ := h hm
  obtain ⟨hm'', hgrows'⟩ := h' hm'
  exact ⟨hm'', hgrows.trans hgrows'⟩

theorem continues_addLabel {label : String} (h : m.addLabel label = .ok m') : m.Continues m' := by
  intro hm
  simp only [addLabel] at h
  split at h
  · simp at h
  rename_i hnew
  simp only [Bool.or_eq_true, not_or, List.contains_iff_mem] at hnew
  obtain rfl : { m with pending := m.pending ++ [label] } = m' := by simpa using h
  refine ⟨⟨hm.below, fun x hx => ?_, ?_⟩, ?_⟩
  · rcases List.mem_append.1 hx with hx | hx
    · exact hm.waiting x hx
    · obtain rfl := List.mem_singleton.1 hx
      exact Assoc.not_contains_iff.1 hnew.1
  · exact hm.nodup.append (List.nodup_singleton label) (List.disjoint_singleton.2 hnew.2)
  · exact ⟨rfl, rfl, List.prefix_refl _, fun _ _ h => h, fun x hx => by simp [hx]⟩

theorem continues_addInstruction (m : CodeMethod) (i : Instruction) : m.Continues (m.addInstruction i) := by
  intro hm
  have hlabels : ∀ name, (m.addInstruction i).labels.find? name =
      if name ∈ m.pending then some m.code.length else m.labels.find? name :=
    find?_foldl_insert m.labels m.pending m.code.length
  have hlength : (m.addInstruction i).code.length = m.code.length + 1 := by simp [addInstruction]
  refine ⟨⟨fun label k hk => ?_, ?_, List.nodup_nil⟩, ?_⟩
  · rw [hlabels] at hk
    split at hk
    · obtain rfl : m.code.length = k := by simpa using hk
      omega
    · have := hm.below label k hk
      omega
  · simp [Waiting, addInstruction]
  · refine ⟨rfl, rfl, List.prefix_append _ _, fun label k hk => ?_, fun label hlabel => ?_⟩
    · rw [hlabels, if_neg]
      · exact hk
      · intro hpending
        simp [hm.waiting label hpending] at hk
    · rw [if_neg (by omega), hlabels, if_pos hlabel]

theorem continues_add {i : Instruction} (h : m.add i = .ok m') : m.Continues m' := by
  cases i with
  | label name => exact continues_addLabel h
  | _ =>
    obtain rfl := Except.ok.inj h
    exact continues_addInstruction m _

theorem continues_withoutPending (m : CodeMethod) : m.Continues m.withoutPending := by
  unfold withoutPending
  split
  · exact .refl m
  · exact continues_addInstruction m .nop

theorem continues_finish (h : m.finish = .ok m') : m.Continues m' := by
  intro hm
  obtain ⟨hclosed, hgrows⟩ := continues_withoutPending m hm
  change m.withoutPending.assignSlots = .ok m' at h
  simp only [assignSlots, bind_eq_ok, pure_eq_ok] at h
  obtain ⟨names, -, rfl⟩ := h
  exact ⟨⟨hclosed.below, hclosed.waiting, hclosed.nodup⟩,
    ⟨hgrows.params, hgrows.isStatic, hgrows.code, hgrows.labels, hgrows.pending⟩⟩

theorem continues_settle {left : CodeMethod} {r : Except Failure CodeMethod} (hleft : m.Continues left)
    (hr : ∀ m', r = .ok m' → m.Continues m') : m.Continues (Change.settle left r).2 := by
  cases r with
  | error e => exact hleft
  | ok m' => exact hr m' rfl

theorem continues_call (c : Call) (m : CodeMethod) : m.Continues (runOn c.change m).2 := by
  cases c with
  | add i =>
    rw [Call.change, Change.runOn_add]
    exact continues_settle (.refl m) fun m' => continues_add
  | addLabel label =>
    rw [Call.change, Change.runOn_addLabel]
    exact continues_settle (.refl m) fun m' => continues_addLabel
  | finish =>
    rw [Call.change, Change.runOn_finish]
    exact continues_settle (continues_withoutPending m) fun m' => continues_finish
  | extend is =>
    rw [Call.change]
    induction is generalizing m with
    | nil => exact .refl m
    | cons i is ih =>
      rw [Change.runOn_extend_cons]
      cases hadd : m.add i with
      | error e => exact .refl m
      | ok m₁ => exact (continues_add hadd).trans (ih m₁)

theorem continues_afterCalls (m : CodeMethod) (calls : List Call) : m.Continues (m.afterCalls calls) := by
  induction calls generalizing m with
  | nil => exact .refl m
  | cons c cs ih => exact (continues_call c m).trans (ih _)

/-! ## The slots of a finished method -/

/-- `this`, where there is one, and the parameters. -/
def IsFixed (m : CodeMethod) (x : String) : Prop :=
  (m.isStatic = false ∧ x = "this") ∨ x ∈ m.params.map (·.name)

/-- An instruction of the method writes or reads a variable. -/
def IsMentioned (m : CodeMethod) (x : String) : Prop :=
  ∃ i ∈ m.code, (∃ ds, i.defs = .ok ds ∧ x ∈ ds) ∨ ∃ us, i.uses = .ok us ∧ x ∈ us

theorem foldl_insert_eq {s : Slots} {params : List Symbol} (hnodup : (params.map (·.name)).Nodup)
    (hnew : ∀ p ∈ params, s.find? p.name = none) :
    params.foldl (fun slots p => slots.insert p.name slots.size) s = (params.map (·.name)).foldl addSlot s := by
  induction params generalizing s with
  | nil => rfl
  | cons p ps ih =>
    obtain ⟨hp, hps⟩ := List.nodup_cons.1 hnodup
    have hpnone : ¬s.contains p.name = true := Assoc.not_contains_iff.2 (hnew p (by simp))
    rw [List.foldl_cons, List.map_cons, List.foldl_cons, addSlot, if_neg hpnone]
    refine ih hps fun q hq => ?_
    rw [Assoc.find?_insert, if_neg]
    · exact hnew q (by simp [hq])
    · intro heq
      exact hp (List.mem_map.2 ⟨q, hq, heq.symm⟩)

theorem full_fixedSlots (hnodup : (m.params.map (·.name)).Nodup) (hthis : "this" ∉ m.params.map (·.name)) :
    m.fixedSlots.Full := by
  unfold fixedSlots
  cases m.isStatic with
  | true =>
    simp only [if_true]
    rw [foldl_insert_eq hnodup (by simp)]
    exact full_foldl_addSlot Slots.full_empty _
  | false =>
    simp only [Bool.false_eq_true, if_false]
    rw [foldl_insert_eq hnodup]
    · exact full_foldl_addSlot (Slots.full_empty.insert rfl) _
    · intro p hp
      have hne : "this" ≠ p.name := fun heq => hthis (heq ▸ List.mem_map_of_mem hp)
      simp [Assoc.find?, Assoc.findEntry, hne]

theorem isMentioned_iff {names : List (List String)} (h : m.code.mapM mentions = .ok names) (x : String) :
    x ∈ names.flatten ↔ m.IsMentioned x := by
  rw [List.mem_flatten]
  constructor
  · rintro ⟨xs, hxs, hx⟩
    obtain ⟨i, hi, hmentions⟩ := exists_of_mem_mapM h hxs
    simp only [mentions, bind_eq_ok, pure_eq_ok] at hmentions
    obtain ⟨ds, hds, us, hus, rfl⟩ := hmentions
    rcases List.mem_append.1 hx with hx | hx
    · exact ⟨i, hi, .inl ⟨ds, hds, hx⟩⟩
    · exact ⟨i, hi, .inr ⟨us, hus, hx⟩⟩
  · rintro ⟨i, hi, hx⟩
    obtain ⟨xs, hxs, hmentions⟩ := exists_of_mapM h hi
    refine ⟨xs, hxs, ?_⟩
    simp only [mentions, bind_eq_ok, pure_eq_ok] at hmentions
    obtain ⟨ds, hds, us, hus, rfl⟩ := hmentions
    rcases hx with ⟨ds', hds', hx⟩ | ⟨us', hus', hx⟩
    · obtain rfl : ds = ds' := Except.ok.inj (hds.symm.trans hds')
      exact List.mem_append_left _ hx
    · obtain rfl : us = us' := Except.ok.inj (hus.symm.trans hus')
      exact List.mem_append_right _ hx

/-- The variables of a finished method go one to one onto the first numbers, and `this` and the parameters
onto the first of these. -/
theorem bijOn_slots {m₀ : CodeMethod} (h : m₀.finish = .ok m) (hnodup : (m.params.map (·.name)).Nodup)
    (hthis : "this" ∉ m.params.map (·.name)) :
    Set.BijOn m.slots.find? {x | m.IsFixed x ∨ m.IsMentioned x} (some '' Set.Ico 0 (m.slots.size : Int)) ∧
      Set.BijOn m.slots.find? {x | m.IsFixed x} (some '' Set.Ico 0 (m.reserved : Int)) ∧
      ∀ x, m.slots.find? x ≠ none ↔ m.IsFixed x ∨ m.IsMentioned x := by
  obtain ⟨names, hnames, hslots⟩ := finish_spec h
  obtain ⟨hpacked, hsize, hfixed⟩ := fixedSlots_spec hnodup hthis
  have hfull := full_fixedSlots hnodup hthis
  have hfind : ∀ x, m.slots.find? x ≠ none ↔ m.IsFixed x ∨ m.IsMentioned x := by
    intro x
    rw [hslots, find?_foldl_addSlot_ne_none, hfixed x, isMentioned_iff hnames]
    rfl
  refine ⟨?_, ?_, hfind⟩
  · have hall : Set.BijOn m.slots.find? {x | m.slots.find? x ≠ none} _ :=
      Slots.bijOn (packed_of_finish h hnodup hthis) (hslots ▸ full_foldl_addSlot hfull _)
    simpa only [hfind] using hall
  · have hfirst : Set.BijOn m.fixedSlots.find? {x | m.fixedSlots.find? x ≠ none} _ :=
      Slots.bijOn hpacked hfull
    rw [hsize] at hfirst
    simp only [hfixed] at hfirst
    refine hfirst.congr fun x hx => ?_
    obtain ⟨n, hn⟩ := Option.ne_none_iff_exists'.1 ((hfixed x).2 hx)
    rw [hn, find?_fixed_of_finish h hn]

/-! ## Any calls -/

/-- A method that nothing has been added to yet. -/
structure IsFresh (m : CodeMethod) : Prop where
  code : m.code = []
  labels : m.labels = {}
  slots : m.slots = {}
  pending : m.pending = []

theorem IsFresh.anchored (h : m.IsFresh) : m.Anchored where
  below label k hk := by simp [h.labels] at hk
  waiting label hlabel := by simp [h.pending] at hlabel
  nodup := by simp [h.pending]

/-- A label is refused when the method has it already, and then nothing changes. -/
theorem addLabel_refused_iff (m : CodeMethod) (label : String) :
    (m.labels.find? label ≠ none ∨ label ∈ m.pending) ↔
      runOn (Call.addLabel label).change m = (.error (.duplicateLabel label), m) := by
  rw [Call.change, Change.runOn_addLabel, addLabel]
  by_cases hnew : (m.labels.contains label || m.pending.contains label) = true
  · rw [if_pos hnew]
    simp only [Bool.or_eq_true, List.contains_iff_mem, Assoc.contains_iff] at hnew
    simpa [Change.settle, Option.ne_none_iff_exists'] using hnew
  · rw [if_neg hnew]
    simp only [Bool.or_eq_true, List.contains_iff_mem, Assoc.contains_iff] at hnew
    simpa [Change.settle, Option.ne_none_iff_exists'] using hnew

/-- A label that is accepted stands at the first instruction that comes after it, and waits for it till then. -/
theorem addLabel_stands {label : String} (hm : m.Anchored)
    (h : (runOn (Call.addLabel label).change m).1 = .ok ()) (calls : List Call) :
    let m' := m.afterCalls (.addLabel label :: calls)
    m.code <+: m'.code ∧ if m'.code.length = m.code.length then label ∈ m'.pending
      else m'.labels.find? label = some m.code.length := by
  rw [Call.change, Change.runOn_addLabel] at h
  cases hadd : m.addLabel label with
  | error e => simp [hadd, Change.settle] at h
  | ok m₁ =>
    obtain ⟨hm₁, hgrows₁⟩ := continues_addLabel hadd hm
    obtain ⟨-, hgrows⟩ := continues_afterCalls m₁ calls hm₁
    have hm' : m.afterCalls (.addLabel label :: calls) = m₁.afterCalls calls := by
      rw [afterCalls, List.foldl_cons, Call.change, Change.runOn_addLabel, hadd]
      rfl
    simp only [addLabel] at hadd
    split at hadd
    · simp at hadd
    obtain rfl : { m with pending := m.pending ++ [label] } = m₁ := by simpa using hadd
    simp only [hm']
    exact ⟨hgrows.code, hgrows.pending label (by simp)⟩

theorem afterCalls_add {i : Instruction} (h : m.add i = .ok m') (calls : List Call) :
    m.afterCalls (.add i :: calls) = m'.afterCalls calls := by
  rw [afterCalls, List.foldl_cons, Call.change, Change.runOn_add, h]
  rfl

theorem refused_of_add {i : Instruction} {e : Failure} (h : m.add i = .error e) :
    ∃ label, i = .label label ∧ (m.labels.find? label ≠ none ∨ label ∈ m.pending) := by
  cases i with
  | label label =>
    have hchange : runOn (Call.addLabel label).change m = (.error e, m) := by
      have hadd : m.addLabel label = .error e := h
      rw [Call.change, Change.runOn_addLabel, hadd]
      rfl
    refine ⟨label, rfl, (addLabel_refused_iff m label).2 ?_⟩
    simp only [add, addLabel] at h
    split at h
    · rw [hchange, ← Except.error.inj h]
    · simp at h
  | _ => simp [add] at h

/-- Adding a sequence adds its instructions one by one, up to a label that is refused. -/
theorem extend_adds (m : CodeMethod) (is : List Instruction) :
    ∃ done rest, is = done ++ rest ∧ m.afterCalls [.extend is] = m.afterCalls (done.map .add) ∧
      m.extend done = .ok (m.afterCalls (done.map .add)) ∧
      (rest ≠ [] → ∃ label, rest.head? = some (.label label) ∧
        ((m.afterCalls (done.map .add)).labels.find? label ≠ none ∨
          label ∈ (m.afterCalls (done.map .add)).pending)) := by
  induction is generalizing m with
  | nil => exact ⟨[], [], rfl, rfl, rfl, fun h => absurd rfl h⟩
  | cons i is ih =>
    cases hadd : m.add i with
    | error e =>
      refine ⟨[], i :: is, rfl, ?_, rfl, fun _ => ?_⟩
      · rw [afterCalls, List.foldl_cons, Call.change, Change.runOn_extend_cons, hadd]
        rfl
      · obtain ⟨label, rfl, hrefused⟩ := refused_of_add hadd
        exact ⟨label, rfl, hrefused⟩
    | ok m₁ =>
      obtain ⟨done, rest, rfl, hafter, hextend, hrest⟩ := ih m₁
      have hdone : m.afterCalls ((i :: done).map .add) = m₁.afterCalls (done.map .add) := by
        rw [List.map_cons, afterCalls_add hadd]
      refine ⟨i :: done, rest, rfl, ?_, ?_, ?_⟩
      · rw [hdone, ← hafter, afterCalls, List.foldl_cons, Call.change, Change.runOn_extend_cons, hadd]
        rfl
      · rw [hdone, ← hextend, extend, List.foldlM_cons, hadd]
        rfl
      · rwa [hdone]

theorem pending_finish (m : CodeMethod) : (m.afterCalls [.finish]).pending = [] := by
  have hclosed : m.withoutPending.pending = [] := by
    unfold withoutPending
    split
    · rename_i hp
      exact List.isEmpty_iff.1 hp
    · rfl
  change (runOn Call.finish.change m).2.pending = []
  rw [Call.change, Change.runOn_finish]
  cases hfinish : m.finish with
  | error e => exact hclosed
  | ok m' =>
    change m.withoutPending.assignSlots = .ok m' at hfinish
    simp only [assignSlots, bind_eq_ok, pure_eq_ok] at hfinish
    obtain ⟨names, -, rfl⟩ := hfinish
    exact hclosed

/-- Whatever calls make a method, and in whatever order: its labels are anchored, and a label that it has does
not move. A label that is accepted stands at the first instruction behind it; one that is refused changes
nothing; a sequence is added up to a label that is refused. Nothing waits in a method that is finished, and its
variables have the first slots, `this` and the parameters in front. -/
theorem calls_anchor_labels {m₀ : CodeMethod} (hfresh : m₀.IsFresh) (earlier later : List Call) :
    let m := m₀.afterCalls earlier
    (∀ (c : Call) m', runOn c.change m = (.ok (), m') ↔ c.result m = .ok m') ∧
    m.Anchored ∧
    (∀ label k, m.labels.find? label = some k → (m.afterCalls later).labels.find? label = some k) ∧
    (∀ label, (runOn (Call.addLabel label).change m).1 = .ok () →
      let m' := m.afterCalls (.addLabel label :: later)
      m.code <+: m'.code ∧ if m'.code.length = m.code.length then label ∈ m'.pending
        else m'.labels.find? label = some m.code.length) ∧
    (∀ label, (m.labels.find? label ≠ none ∨ label ∈ m.pending) ↔
      runOn (Call.addLabel label).change m = (.error (.duplicateLabel label), m)) ∧
    (∀ is, ∃ done rest, is = done ++ rest ∧ m.afterCalls [.extend is] = m.afterCalls (done.map .add) ∧
      (rest ≠ [] → ∃ label, rest.head? = some (.label label) ∧
        ((m.afterCalls (done.map .add)).labels.find? label ≠ none ∨
          label ∈ (m.afterCalls (done.map .add)).pending))) ∧
    (m.afterCalls [.finish]).pending = [] ∧
    (∀ m', m.finish = .ok m' → (m₀.params.map (·.name)).Nodup → "this" ∉ m₀.params.map (·.name) →
      m'.params = m₀.params ∧ m'.isStatic = m₀.isStatic ∧
      Set.BijOn m'.slots.find? {x | m'.IsFixed x ∨ m'.IsMentioned x} (some '' Set.Ico 0 (m'.slots.size : Int)) ∧
      Set.BijOn m'.slots.find? {x | m'.IsFixed x} (some '' Set.Ico 0 (m'.reserved : Int)) ∧
      ∀ x, m'.slots.find? x ≠ none ↔ m'.IsFixed x ∨ m'.IsMentioned x) := by
  intro m
  obtain ⟨hm, hgrows⟩ := continues_afterCalls m₀ earlier hfresh.anchored
  refine ⟨fun c => c.runOn_eq_ok_iff m, hm, (continues_afterCalls m later hm).2.labels,
    fun label h => addLabel_stands hm h later, addLabel_refused_iff m, fun is => ?_, pending_finish m,
    fun m' hfinish hnodup hthis => ?_⟩
  · obtain ⟨done, rest, his, hafter, -, hrest⟩ := extend_adds m is
    exact ⟨done, rest, his, hafter, hrest⟩
  · have hgrows' := hgrows.trans (continues_finish hfinish hm).2
    refine ⟨hgrows'.params, hgrows'.isStatic, ?_⟩
    rw [← hgrows'.params] at hnodup hthis
    exact bijOn_slots hfinish hnodup hthis

/-- A label in front of the first instruction, one within a sequence, one that is refused, and one that waits
until the end. -/
theorem calls_anchor_labels_loop :
    ∃ m₀ m : CodeMethod, m₀.IsFresh ∧
      (m₀.afterCalls [.addLabel "top", .extend [.assign (.var "i" .int) (.single (.var "n" .int)),
        .label "body", .goto "top"], .addLabel "top", .addLabel "end"]).finish = .ok m ∧
      m.labels.entries = [("top", 0), ("body", 1), ("end", 2)] ∧
      m.slots.entries = [("this", 0), ("n", 1), ("i", 2)] ∧
      Set.BijOn m.slots.find? {x | m.IsFixed x ∨ m.IsMentioned x} (some '' Set.Ico 0 (m.slots.size : Int)) := by
  have hfresh : IsFresh { name := "f", returnType := .int, params := [⟨"n", .int⟩] } := ⟨rfl, rfl, rfl, rfl⟩
  obtain ⟨m, hfinish, hlabels⟩ := exists_of_toOption
    (show (CodeMethod.finish (afterCalls { name := "f", returnType := .int, params := [⟨"n", .int⟩] }
      [.addLabel "top", .extend [.assign (.var "i" .int) (.single (.var "n" .int)), .label "body",
        .goto "top"], .addLabel "top", .addLabel "end"])).toOption.map
          (fun m => (m.labels.entries, m.slots.entries)) =
        some ([("top", 0), ("body", 1), ("end", 2)], [("this", 0), ("n", 1), ("i", 2)]) by decide +kernel)
  obtain ⟨-, -, -, -, -, -, -, hslots⟩ := calls_anchor_labels hfresh
    [.addLabel "top", .extend [.assign (.var "i" .int) (.single (.var "n" .int)), .label "body",
      .goto "top"], .addLabel "top", .addLabel "end"] []
  obtain ⟨-, -, hbijective, -⟩ := hslots m hfinish (by decide) (by decide)
  exact ⟨_, m, hfresh, hfinish, (Prod.mk.inj hlabels).1, (Prod.mk.inj hlabels).2, hbijective⟩

end CodeMethod
end JmmCompiler

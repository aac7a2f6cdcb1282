import JmmCompiler.Proofs.LoweredConditions
import JmmCompiler.Proofs.Lowerable
/-! The code of statements leads where the statements do. A loop that is left because it has gone too many rounds is a run
of its code that still goes on, with at least one step for each round. -/
namespace JmmCompiler

/-- How long a run is said to be at least: where a loop goes on, as long as its rounds. -/
def pace {W : Type} (n : Nat) : Except Trap Flow × W → Nat
  | (.ok .exhausted, _) => n
  | _ => 0

theorem pace_add {W : Type} (m n : Nat) (r : Except Trap Flow × W) : pace (m + n) r ≤ m + pace n r := by
  unfold pace
  split <;> simp

namespace Machine
variable {S W α : Type} {M : Machine S W} {m n : Nat} {s t : S} {after : Flow → W → S → Prop} {r : Except Trap Flow × W}

/-- The machine carries out a statement, in at least `n` steps where that goes on in a loop. -/
def Advances (M : Machine S W) (n : Nat) (s : S) (r : Except Trap Flow × W) (after : Flow → W → S → Prop) : Prop :=
  M.Delivers (pace n r) s r after

theorem Advances.weaken (h : M.Advances n s r after) (hmn : m ≤ n) : M.Advances m s r after := by
  refine Delivers.weaken h ?_
  obtain ⟨k, rfl⟩ := Nat.exists_eq_add_of_le hmn
  unfold pace
  split <;> omega

theorem Reaches.advances (h : M.Reaches m s t) (h' : M.Advances n t r after) : M.Advances (m + n) s r after :=
  (h.delivers h').weaken (pace_add m n r)

/-- What is computed before a statement counts as part of it. -/
theorem Delivers.advances {x : Act W α} {g : α → Act W Flow} {w : W} {before : α → W → S → Prop}
    (hx : M.Delivers m s (runOn x w) before)
    (hg : ∀ a w' t, runOn x w = (.ok a, w') → before a w' t → M.Advances n t (runOn (g a) w') after) :
    M.Advances (m + n) s (runOn (x >>= g) w) after := by
  rw [runOn_bind]
  rcases hr : runOn x w with ⟨trap | a, w'⟩
  · rw [hr] at hx
    exact fun htold => (hx htold).weaken (Nat.zero_le m)
  · rw [hr] at hx
    obtain ⟨t, hreaches, ht⟩ := hx
    exact hreaches.advances (hg a w' t hr ht)

end Machine

namespace MethodRun
variable {W : Type} (A : MethodRun W)

/-- Where a statement leads, its code does: behind its last instruction, with a memory that mirrors the store; out of the
method, with the value that is returned; or on and on. -/
def Arrives (behind : Nat) : Flow → W → Status Value W Outcome → Prop
  | .next store, w, s => ∃ memory, s = A.code.place behind memory w ∧ A.Mirrors store memory
  | .returned value, w, s => s = .halted (some (.returned value)) w
  | .exhausted, w, s => ∃ c, s = .running c ∧ c.heap = w

/-- Code that carries out a statement, and takes at least `n` steps where that goes on in a loop. -/
def Leads (n : Nat) (is : List Instruction) (x : Store → Act W Flow) : Prop :=
  ∀ store memory, A.Mirrors store memory → ∀ pc w, A.code.Contains pc is →
    (A.code.machine A.ask).Advances n (A.code.place pc memory w) (runOn (x store) w) (A.Arrives (pc + size is))

variable {A} {n : Nat} {is js : List Instruction} {x y : Store → Act W Flow} {store : Store} {memory : Int → Value} {w : W}
  {pc behind behind' : Nat}
open CodeMethod

/-- A statement behind another one. -/
theorem advances_sequence {z : Act W Flow} {s : Status Value W Outcome}
    (hz : (A.code.machine A.ask).Advances n s (runOn z w) (A.Arrives behind))
    (hy : ∀ store memory w', A.Mirrors store memory →
      (A.code.machine A.ask).Advances n (A.code.place behind memory w') (runOn (y store) w') (A.Arrives behind')) :
    (A.code.machine A.ask).Advances n s (runOn (do
      match ← z with
      | .next store => y store
      | flow => return flow) w) (A.Arrives behind') := by
  rw [runOn_bind]
  rcases hr : runOn z w with ⟨trap | flow, w'⟩
  · rw [hr] at hz
    exact hz
  · rw [hr] at hz
    cases flow with
    | next store =>
      obtain ⟨t, hreaches, memory, rfl, hmirrors⟩ := hz
      exact (hreaches.advances (hy store memory w' hmirrors)).weaken (Nat.le_add_left n _)
    | returned value => exact hz
    | exhausted => exact hz

theorem Leads.append (hx : A.Leads n is x) (hy : A.Leads n js y) : A.Leads n (is ++ js) fun store => do
    match ← x store with
    | .next store => y store
    | flow => return flow := by
  intro store memory hmirrors pc w hcontains
  obtain ⟨his, hjs⟩ := contains_append.1 hcontains
  rw [size_append, ← Nat.add_assoc]
  exact advances_sequence (hx store memory hmirrors pc w his) fun store memory w' hmirrors =>
    hy store memory hmirrors (pc + size is) w' hjs

/-- A computation after which the store is known. -/
theorem leads_of_runs {α : Type} {z : Store → Act W α} {f : Store → α → Store} (n : Nat)
    (h : ∀ store memory, A.Mirrors store memory →
      A.code.Runs A.ask is memory (z store) fun a memory' => A.Mirrors (f store a) memory') :
    A.Leads n is fun store => do
      let a ← z store
      return .next (f store a) := by
  intro store memory hmirrors pc w hcontains
  refine ((h store memory hmirrors pc w hcontains).advances (n := n) fun a w' t _ ht => ?_).weaken (Nat.le_add_left n 0)
  obtain ⟨memory', rfl, ha⟩ := ht
  exact ⟨_, .refl _, memory', rfl, ha⟩

/-- A value that is returned. -/
theorem leads_return {z : Store → Act W Value} {ns : Names} {e : Element} {type : Ty} (n : Nat)
    (h : ∀ store memory, A.Mirrors store memory → A.code.Runs A.ask is memory (z store) (A.Finds ns memory e))
    (he : e ≠ .absent) (htype : type ≠ .void) :
    A.Leads n (is ++ [.ret e type]) fun store => do
      let v ← z store
      return .returned (if type = .void then none else some v) := by
  intro store memory hmirrors pc w hcontains
  obtain ⟨his, hret, -⟩ := contains_append.1 hcontains
  refine ((h store memory hmirrors pc w his).advances (n := n) fun v w' t _ ht => ?_).weaken (Nat.le_add_left n 0)
  obtain ⟨memory', rfl, -, hv⟩ := ht
  have hslots := hasSlotsFor_of_optional (A.finished.mentions _ _ hret).2 he
  have hrun : (A.code.machine A.ask).Delivers 1 (A.code.place (pc + size is) memory' w') _ _ := delivers_ret hret he
  rw [if_neg htype, operand_of_gives A.ask hslots hv] at hrun
  obtain ⟨t, hreaches, rfl⟩ := hrun
  exact ⟨_, hreaches.weaken (Nat.zero_le 1), by simp [htype, Arrives]⟩

theorem leads_returnNothing (n : Nat) : A.Leads n [.ret .absent .void] fun _ => return .returned none := by
  intro store memory hmirrors pc w hcontains
  have hi : A.code.code[pc]? = some (.ret .absent .void) := hcontains.1
  have hrun : (A.code.machine A.ask).Delivers 1 (A.code.place pc memory w) (runOn (pure () : Act W Unit) w) fun _ w' s =>
      s = A.code.after pc memory (.null, .stop (.returned none)) w' := delivers_act hi rfl
  obtain ⟨t, hreaches, rfl⟩ := hrun
  exact ⟨_, hreaches.weaken (Nat.zero_le 1), rfl⟩

/-! ## Branches and loops -/

section
variable {ns : Names} {c : Node} {test first second : List Instruction} {label other done : String}

/-- A statement that is carried out only where a condition holds. -/
theorem leads_ifThen (hns : A.Reserves ns) (htest : A.Tests c label ns test) (hfirst : A.Leads n first x) :
    A.Leads n (test ++ [.goto done, .label label] ++ first ++ [.label done]) fun store => do
      if ← A.context.table.holds A.context.method A.ask c store then x store else return .next store := by
  intro store memory hmirrors pc w hcontains
  simp only [contains_append, size_append, Contains, size, and_true, ← Nat.add_assoc, Nat.add_zero] at hcontains ⊢
  obtain ⟨⟨⟨htestCode, hgoto, hlabel⟩, hfirstCode⟩, hdone⟩ := hcontains
  refine ((htest store memory hmirrors pc w _ htestCode hlabel.1 hlabel.2).advances (n := n) fun taken w' t _ ht => ?_).weaken
    (Nat.le_add_left n 1)
  obtain ⟨memory', rfl, hframe⟩ := ht
  have hmirrors' := hmirrors.frame hns hframe
  cases taken with
  | true => exact hfirst store memory' hmirrors' _ w' hfirstCode
  | false =>
    exact ⟨_, (reaches_goto hgoto hdone.1 hdone.2).weaken (Nat.zero_le 1), memory', rfl, hmirrors'⟩

/-- One of two statements. -/
theorem leads_ifElse (hns : A.Reserves ns) (htest : A.Tests c label ns test) (hfirst : A.Leads n first x)
    (hsecond : A.Leads n second y) :
    A.Leads n (test ++ [.label other] ++ second ++ [.goto done, .label label] ++ first ++ [.label done])
      (fun store => do if ← A.context.table.holds A.context.method A.ask c store then x store else y store) := by
  intro store memory hmirrors pc w hcontains
  simp only [contains_append, size_append, Contains, size, and_true, ← Nat.add_assoc, Nat.add_zero] at hcontains ⊢
  obtain ⟨⟨⟨⟨⟨htestCode, -⟩, hsecondCode⟩, hgoto, hlabel⟩, hfirstCode⟩, hdone⟩ := hcontains
  refine ((htest store memory hmirrors pc w _ htestCode hlabel.1 hlabel.2).advances (n := n) fun taken w' t _ ht => ?_).weaken
    (Nat.le_add_left n 1)
  obtain ⟨memory', rfl, hframe⟩ := ht
  have hmirrors' := hmirrors.frame hns hframe
  cases taken with
  | true => exact hfirst store memory' hmirrors' _ w' hfirstCode
  | false =>
    -- the second statement ends in front of a jump
    have hrun := hsecond store memory' hmirrors' _ w' hsecondCode
    refine Machine.Delivers.onward hrun fun flow w'' t ht => ?_
    cases flow with
    | next store' =>
      obtain ⟨memory'', rfl, hmirrors''⟩ := ht
      exact ⟨_, (reaches_goto hgoto hdone.1 hdone.2).weaken (Nat.zero_le 1), memory'', rfl, hmirrors''⟩
    | returned value => exact ⟨t, .refl t, ht⟩
    | exhausted => exact ⟨t, .refl t, ht⟩

/-- A loop. Every round takes a step at least, that of the test. -/
theorem leads_while (hns : A.Reserves ns) (htest : A.Tests c label ns test) (hfirst : A.Leads n first x) :
    A.Leads n ([.goto other, .label label] ++ first ++ [.label other] ++ test ++ [.label done])
      (Flow.loop (A.context.table.holds A.context.method A.ask c) x n) := by
  intro store memory hmirrors pc w hcontains
  simp only [contains_append, size_append, Contains, size, and_true, ← Nat.add_assoc, Nat.add_zero] at hcontains ⊢
  obtain ⟨⟨⟨⟨⟨hgoto, hlabel⟩, hfirstCode⟩, hother⟩, htestCode⟩, hdone⟩ := hcontains
  -- from the test on, the induction is on the rounds that are left
  have hrounds (k : Nat) (hk : k ≤ n) (store : Store) (memory : Int → Value) (w : W) (hmirrors : A.Mirrors store memory) :
      (A.code.machine A.ask).Advances k (A.code.place (pc + 1 + size first) memory w)
        (runOn (Flow.loop (A.context.table.holds A.context.method A.ask c) x k store) w)
        (A.Arrives (pc + 1 + size first + size test)) := by
    induction k generalizing store memory w with
    | zero => exact ⟨_, .refl _, _, if_pos hother.2, rfl⟩
    | succ k ih =>
      rw [Flow.loop]
      refine Machine.Advances.weaken (n := 1 + k) ?_ (Nat.add_comm k 1).le
      refine (htest store memory hmirrors _ w _ htestCode hlabel.1 hlabel.2).advances fun taken w' t _ ht => ?_
      obtain ⟨memory', rfl, hframe⟩ := ht
      have hmirrors' := hmirrors.frame hns hframe
      cases taken with
      | true =>
        have hround := (hfirst store memory' hmirrors' _ w' hfirstCode).weaken (Nat.le_of_succ_le hk)
        exact advances_sequence hround fun store memory w hmirrors => ih (Nat.le_of_succ_le hk) store memory w hmirrors
      | false => exact ⟨_, .refl _, memory', rfl, hmirrors'⟩
  have hstart : (A.code.machine A.ask).Reaches 1 (A.code.place pc memory w) _ := reaches_goto hgoto hother.1 hother.2
  exact (hstart.advances (hrounds n (Nat.le_refl n) store memory w hmirrors)).weaken (Nat.le_add_left n 1)

end

end MethodRun
end JmmCompiler

import JmmCompiler.Proofs.Results
import JmmCompiler.Proofs.Values
import Mathlib.Logic.Function.Iterate
/-! Machines that go from state to state, and computations that they carry out. -/
namespace JmmCompiler

/-- A machine over a world that stays where it is once it is trapped. -/
structure Machine (S W : Type) where
  next : S → S
  trapped : Trap → W → S
  next_trapped : ∀ trap w, next (trapped trap w) = trapped trap w
  /-- The traps with which something is said of the machine. -/
  Told : Trap → Prop := fun _ => True

namespace Machine
variable {S W α β : Type} {M : Machine S W} {m n : Nat} {s t u : S}

/-- A run of at least `n` steps leads from one state to another. -/
def Reaches (M : Machine S W) (n : Nat) (s t : S) : Prop := ∃ k, n ≤ k ∧ M.next^[k] s = t

theorem Reaches.refl (s : S) : M.Reaches 0 s s := ⟨0, Nat.le_refl 0, rfl⟩

theorem Reaches.trans (h : M.Reaches m s t) (h' : M.Reaches n t u) : M.Reaches (m + n) s u := by
  obtain ⟨j, hj, rfl⟩ := h
  obtain ⟨k, hk, rfl⟩ := h'
  exact ⟨k + j, by omega, Function.iterate_add_apply M.next k j s⟩

theorem Reaches.weaken (h : M.Reaches n s t) (hmn : m ≤ n) : M.Reaches m s t := by
  obtain ⟨k, hk, hrun⟩ := h
  exact ⟨k, by omega, hrun⟩

theorem Reaches.step (s : S) : M.Reaches 1 s (M.next s) := ⟨1, Nat.le_refl 1, rfl⟩

/-- A run that has come to rest can be taken to be as long as one likes. -/
theorem Reaches.rest (h : M.Reaches m s t) (ht : M.next t = t) (n : Nat) : M.Reaches n s t := by
  obtain ⟨k, -, hrun⟩ := h
  exact ⟨n + k, by omega, by rw [Function.iterate_add_apply, hrun, Function.iterate_fixed ht]⟩

/-- Two runs that come to rest do so in the same state. -/
theorem Reaches.unique (h : M.Reaches m s t) (h' : M.Reaches n s u) (ht : M.next t = t)
    (hu : M.next u = u) : t = u := by
  obtain ⟨j, -, hj⟩ := h
  obtain ⟨k, -, hk⟩ := h'
  have hlong : M.next^[k + j] s = t := by
    rw [Function.iterate_add_apply, hj, Function.iterate_fixed ht]
  rw [Nat.add_comm, Function.iterate_add_apply, hk, Function.iterate_fixed hu] at hlong
  exact hlong.symm

/-- The machine gets in at least `n` steps to a state that goes with the outcome of a computation, or it
ends in the same trap. -/
def Delivers (M : Machine S W) (n : Nat) (s : S) (r : Except Trap α × W) (after : α → W → S → Prop) : Prop :=
  match r with
  | (.ok a, w) => ∃ t, M.Reaches n s t ∧ after a w t
  | (.error trap, w) => M.Told trap → M.Reaches n s (M.trapped trap w)

variable {r : Except Trap α × W} {x : Act W α} {g : α → Act W β} {w : W} {after : α → W → S → Prop}
  {after' : β → W → S → Prop}

theorem Delivers.weaken (h : M.Delivers n s r after) (hmn : m ≤ n) : M.Delivers m s r after := by
  rcases r with ⟨trap | a, w⟩
  · exact fun htold => (h htold).weaken hmn
  · obtain ⟨t, hreaches, ht⟩ := h
    exact ⟨t, hreaches.weaken hmn, ht⟩

/-- Steps in front of what the machine carries out. -/
theorem Reaches.delivers (h : M.Reaches m s t) (h' : M.Delivers n t r after) :
    M.Delivers (m + n) s r after := by
  rcases r with ⟨trap | a, w⟩
  · exact fun htold => h.trans (h' htold)
  · obtain ⟨u, hreaches, hu⟩ := h'
    exact ⟨u, h.trans hreaches, hu⟩

theorem Delivers.bind (hx : M.Delivers m s (runOn x w) after)
    (hg : ∀ a w' t, runOn x w = (.ok a, w') → after a w' t →
      M.Delivers n t (runOn (g a) w') after') :
    M.Delivers (m + n) s (runOn (x >>= g) w) after' := by
  rw [runOn_bind]
  rcases hr : runOn x w with ⟨trap | a, w'⟩
  · rw [hr] at hx
    exact fun htold => (hx htold).rest (M.next_trapped trap w') _
  · rw [hr] at hx
    obtain ⟨t, hreaches, ht⟩ := hx
    exact hreaches.delivers (hg a w' t hr ht)

theorem Delivers.pure (a : α) (h : after a w s) : M.Delivers 0 s (runOn (Pure.pure a : Act W α) w) after :=
  ⟨s, .refl s, h⟩

end Machine
end JmmCompiler

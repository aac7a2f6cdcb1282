import JmmCompiler.Lowering.Names
import JmmCompiler.Proofs.Results
import Mathlib.Data.List.Perm.Basic
import Mathlib.Data.List.Nodup
import Std.Data.String.ToNat
/-! Names of temporaries are given out once, and never a reserved one. -/
namespace JmmCompiler

/-- What a lowering makes of the names that it starts from. -/
theorem lower_bind_eq_ok {α β : Type} {x : Lower α} {f : α → Lower β} {ns ns' : Names} {b : β} :
    (x >>= f).run ns = .ok (b, ns') ↔ ∃ a ns₁, x.run ns = .ok (a, ns₁) ∧ (f a).run ns₁ = .ok (b, ns') := by
  rw [StateT.run_bind, bind_eq_ok]
  constructor
  · rintro ⟨⟨a, ns₁⟩, ha, hb⟩
    exact ⟨a, ns₁, ha, hb⟩
  · rintro ⟨a, ns₁, ha, hb⟩
    exact ⟨(a, ns₁), ha, hb⟩

@[simp] theorem lower_pure_eq_ok {α : Type} {a b : α} {ns ns' : Names} :
    (pure a : Lower α).run ns = .ok (b, ns') ↔ a = b ∧ ns = ns' := by
  rw [StateT.run_pure, pure_eq_ok, Prod.mk.injEq]

@[simp] theorem lower_lift_eq_ok {α : Type} {x : Except Failure α} {b : α} {ns ns' : Names} :
    (liftM x : Lower α).run ns = .ok (b, ns') ↔ x = .ok b ∧ ns = ns' := by
  cases x with
  | error e => simp [liftM, monadLift, MonadLift.monadLift, StateT.run, StateT.lift, bind, Except.bind]
  | ok a =>
    simp [liftM, monadLift, MonadLift.monadLift, StateT.run, StateT.lift, bind, Except.bind, pure,
      Except.pure]

@[simp] theorem lower_throw_ne_ok {α : Type} {e : Failure} {b : α} {ns ns' : Names} :
    (throw e : Lower α).run ns ≠ .ok (b, ns') := by
  intro h
  cases h

namespace Names

theorem tempName_injective {ns : Names} {i j : Nat} (h : ns.tempName i = ns.tempName j) : i = j :=
  Nat.repr_injective ((String.append_right_inj _).1 h)

/-- The number of the next temporary is not that of a reserved name. -/
theorem freeTemp_spec (ns : Names) : ns.nextTemp ≤ ns.freeTemp ∧ ns.tempName ns.freeTemp ∉ ns.reserved := by
  unfold freeTemp
  generalize hnumbers : (List.range (ns.reserved.length + 1)).map (ns.nextTemp + ·) = numbers
  cases hfind : numbers.find? fun i => !ns.reserved.contains (ns.tempName i) with
  | some i =>
    have hmem := List.mem_of_find?_eq_some hfind
    have hfree := List.find?_some hfind
    rw [← hnumbers, List.mem_map] at hmem
    obtain ⟨j, -, rfl⟩ := hmem
    exact ⟨Nat.le_add_right _ _, by simpa using hfree⟩
  | none =>
    -- there are more candidates than reserved names
    have hsub : numbers.map ns.tempName ⊆ ns.reserved := by
      intro x hx
      obtain ⟨i, hi, rfl⟩ := List.mem_map.1 hx
      simpa using List.find?_eq_none.1 hfind i hi
    have hnodup : (numbers.map ns.tempName).Nodup := by
      refine List.Nodup.map (fun _ _ h => tempName_injective h) ?_
      rw [← hnumbers]
      exact List.nodup_range.map fun _ _ h => Nat.add_left_cancel h
    have hle := (List.subperm_of_subset hnodup hsub).length_le
    rw [List.length_map, ← hnumbers, List.length_map, List.length_range] at hle
    omega

/-- A name that may still be given to a temporary. -/
def Fresh (ns : Names) (x : String) : Prop := ∃ i, ns.nextTemp ≤ i ∧ x = ns.tempName i ∧ x ∉ ns.reserved

/-- Names after more of them have been given out. -/
structure Later (ns ns' : Names) : Prop where
  stem : ns'.stem = ns.stem
  reserved : ns'.reserved = ns.reserved
  nextTemp : ns.nextTemp ≤ ns'.nextTemp

theorem Later.refl (ns : Names) : ns.Later ns := ⟨rfl, rfl, Nat.le_refl _⟩

theorem Later.trans {ns ns₁ ns₂ : Names} (h : ns.Later ns₁) (h' : ns₁.Later ns₂) : ns.Later ns₂ :=
  ⟨h'.stem.trans h.stem, h'.reserved.trans h.reserved, Nat.le_trans h.nextTemp h'.nextTemp⟩

theorem Later.fresh {ns ns' : Names} (h : ns.Later ns') {x : String} (hx : ns'.Fresh x) : ns.Fresh x := by
  obtain ⟨i, hi, rfl, hreserved⟩ := hx
  refine ⟨i, Nat.le_trans h.nextTemp hi, ?_, h.reserved ▸ hreserved⟩
  simp only [tempName, h.stem]

theorem temp_spec {ns ns' : Names} {x : String} (h : Lower.temp.run ns = .ok (x, ns')) :
    ns.Later ns' ∧ ns.Fresh x ∧ ¬ns'.Fresh x := by
  obtain ⟨rfl, rfl⟩ : ns.tempName ns.freeTemp = x ∧ { ns with nextTemp := ns.freeTemp + 1 } = ns' := by
    simpa [Lower.temp, temp, modifyGet, MonadStateOf.modifyGet, StateT.modifyGet, StateT.run, pure,
      Except.pure] using h
  obtain ⟨hle, hfree⟩ := ns.freeTemp_spec
  refine ⟨⟨rfl, rfl, Nat.le_succ_of_le hle⟩, ⟨_, hle, rfl, hfree⟩, ?_⟩
  rintro ⟨i, hi, heq, -⟩
  have := tempName_injective heq
  simp only at hi
  omega

theorem label_later {ns ns' : Names} {k : Nat} (h : Lower.label.run ns = .ok (k, ns')) : ns.Later ns' := by
  obtain ⟨rfl, rfl⟩ : ns.nextLabel = k ∧ { ns with nextLabel := ns.nextLabel + 1 } = ns' := by
    simpa [Lower.label, label, modifyGet, MonadStateOf.modifyGet, StateT.modifyGet, StateT.run, pure,
      Except.pure] using h
  exact ⟨rfl, rfl, Nat.le_refl _⟩

theorem not_fresh_of_reserved {ns : Names} {x : String} (h : x ∈ ns.reserved) : ¬ns.Fresh x := by
  rintro ⟨_, _, _, hx⟩
  exact hx h

theorem not_fresh_this {ns : Names} (h : ns.stem = "tmp") : ¬ns.Fresh "this" := by
  rintro ⟨i, -, heq, -⟩
  have hchars := congrArg String.toList heq
  simp [tempName, h] at hchars

end Names
end JmmCompiler

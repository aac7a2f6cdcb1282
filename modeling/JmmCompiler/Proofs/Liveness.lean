import JmmCompiler.Liveness
import JmmCompiler.Proofs.Machine
import JmmCompiler.Proofs.Results
import Mathlib.Data.Finset.Card
/-! Liveness solves its equations: what is live after an instruction is what is live before one of its
successors, and what is live before it is what it uses, and what is live after it unless it defines
that. -/
namespace JmmCompiler

/-- A growing chain of sets of fewer than `n` numbers that stands still once it does not grow has come to
rest after `n` steps. -/
theorem chain_rest {n : Nat} {s : Nat → Finset Nat} (hn : ∀ k, s k ⊆ Finset.range n)
    (hgrow : ∀ k, s k ⊆ s (k + 1)) (hrest : ∀ k, s k = s (k + 1) → s (k + 1) = s (k + 2)) :
    s n = s (n + 1) := by
  by_contra hne
  have hstrict : ∀ k, k ≤ n → s k ≠ s (k + 1) := by
    intro k hk heq
    have hlater : ∀ j, s (k + j) = s (k + j + 1) := by
      intro j
      induction j with
      | zero => exact heq
      | succ j ih => exact hrest _ ih
    apply hne
    have h := hlater (n - k)
    rwa [show k + (n - k) = n by omega] at h
  have hcard : ∀ k, k ≤ n + 1 → k ≤ (s k).card := by
    intro k
    induction k with
    | zero => simp
    | succ k ih =>
      intro hk
      have hlt : (s k).card < (s (k + 1)).card :=
        Finset.card_lt_card ((hgrow k).ssubset_of_ne (hstrict k (by omega)))
      have := ih (by omega)
      omega
  have hle := Finset.card_le_card (hn (n + 1))
  have hge := hcard (n + 1) le_rfl
  rw [Finset.card_range] at hle
  omega

namespace FlowPoint

theorem mem_liveAfter {point : FlowPoint} {before : List NameSet} {x : String} :
    x ∈ point.liveAfter before ↔ ∃ s ∈ point.successors, x ∈ before[s]?.getD ∅ := by
  simp [liveAfter]

theorem mem_liveBefore {point : FlowPoint} {before : List NameSet} {x : String} :
    x ∈ point.liveBefore before ↔
      x ∈ point.uses ∨ x ∈ point.liveAfter before ∧ x ∉ point.defs := by
  simp [liveBefore]

/-! ## One sweep -/

/-- What is live before an instruction. -/
def liveAt (sets : List LiveSets) (i : Nat) : NameSet := (sets.map (·.before))[i]?.getD ∅

variable {points : List FlowPoint} {sets : List LiveSets} {p : FlowPoint} {i j k : Nat} {x : String}

theorem mem_liveAfter_before : x ∈ p.liveAfter (sets.map (·.before)) ↔ ∃ s ∈ p.successors, x ∈ liveAt sets s :=
  mem_liveAfter

@[simp] theorem length_refresh : (refresh points i sets).length = sets.length := by
  unfold refresh
  split <;> simp

@[simp] theorem length_foldr_refresh (is : List Nat) : (is.foldr (refresh points) sets).length = sets.length := by
  induction is with
  | nil => rfl
  | cons i is ih => rw [List.foldr_cons, length_refresh, ih]

@[simp] theorem length_sweep : (sweep points sets).length = sets.length := length_foldr_refresh _

theorem getElem?_refresh_of_ne (h : j ≠ i) : (refresh points i sets)[j]? = sets[j]? := by
  unfold refresh
  split
  · exact List.getElem?_set_ne h.symm
  · rfl

theorem getElem?_refresh (hlen : sets.length = points.length) (hp : points[i]? = some p) :
    (refresh points i sets)[i]? = some ⟨p.liveBefore (sets.map (·.before)), p.liveAfter (sets.map (·.before))⟩ := by
  have hi : i < sets.length := hlen ▸ (List.getElem?_eq_some_iff.1 hp).1
  simp [refresh, hp, hi]

theorem liveAt_refresh (hlen : sets.length = points.length) :
    liveAt (refresh points i sets) j =
      if j = i then (points[i]?.map (·.liveBefore (sets.map (·.before)))).getD ∅ else liveAt sets j := by
  split
  · subst j
    cases hp : points[i]? with
    | some p => simp [liveAt, List.getElem?_map, getElem?_refresh hlen hp]
    | none =>
      have hi : sets[i]? = none := by rwa [List.getElem?_eq_none_iff, hlen, ← List.getElem?_eq_none_iff]
      simp [liveAt, refresh, hp, hi]
  · simp only [liveAt, List.getElem?_map, getElem?_refresh_of_ne ‹_›]

/-- What every instruction that is found anew keeps, a sweep keeps. -/
theorem sweep_induction {motive : List LiveSets → Prop} (h : motive sets)
    (step : ∀ i sets, motive sets → motive (refresh points i sets)) : motive (sweep points sets) := by
  unfold sweep
  induction List.range points.length with
  | nil => exact h
  | cons i is ih => exact step i _ ih

/-- An instruction is found anew once: those after it in the code come before it, and then it stays. -/
theorem getElem?_foldr_refresh_of_le (h : k ≤ j) :
    ((List.range k).foldr (refresh points) sets)[j]? = sets[j]? := by
  induction k generalizing sets with
  | zero => rfl
  | succ k ih =>
    rw [List.range_succ, List.foldr_append, ih (by omega)]
    exact getElem?_refresh_of_ne (by omega)

/-- Where a sweep changes nothing before the instructions, every set is what its equation says. -/
theorem getElem?_foldr_refresh (hlen : sets.length = points.length) (hk : k ≤ points.length)
    (h : ((List.range k).foldr (refresh points) sets).map (·.before) = sets.map (·.before)) (hj : j < k) :
    ((List.range k).foldr (refresh points) sets)[j]? =
      points[j]?.map fun p => ⟨p.liveBefore (sets.map (·.before)), p.liveAfter (sets.map (·.before))⟩ := by
  induction k generalizing sets with
  | zero => omega
  | succ k ih =>
    rw [List.range_succ, List.foldr_append, List.foldr_cons, List.foldr_nil] at h ⊢
    obtain ⟨p, hp⟩ : ∃ p, points[k]? = some p := ⟨_, List.getElem?_eq_getElem (by omega)⟩
    have hother (i : Nat) (hi : i ≠ k) : (refresh points k sets)[i]? = sets[i]? := getElem?_refresh_of_ne hi
    have hsame : (refresh points k sets).map (·.before) = sets.map (·.before) := by
      refine List.ext_getElem? fun i => ?_
      by_cases hi : i = k
      · subst hi
        rw [← h, List.getElem?_map, List.getElem?_map, getElem?_foldr_refresh_of_le le_rfl]
      · rw [List.getElem?_map, List.getElem?_map, hother i hi]
    by_cases hjk : j = k
    · subst hjk
      rw [getElem?_foldr_refresh_of_le le_rfl, getElem?_refresh hlen hp, hp]
      rfl
    · rw [ih (by simpa using hlen) (by omega) (h.trans hsame.symm) (by omega), hsame]

/-- The sets that the equations give for what is live before the instructions. -/
def solved (points : List FlowPoint) (before : List NameSet) : List LiveSets :=
  points.map fun p => ⟨p.liveBefore before, p.liveAfter before⟩

theorem sweep_eq_solved (hlen : sets.length = points.length)
    (h : (sweep points sets).map (·.before) = sets.map (·.before)) :
    sweep points sets = solved points (sets.map (·.before)) := by
  refine List.ext_getElem? fun j => ?_
  by_cases hj : j < points.length
  · rw [sweep, getElem?_foldr_refresh hlen le_rfl h hj, solved, List.getElem?_map]
  · rw [List.getElem?_eq_none (by simp; omega), List.getElem?_eq_none (by simp [solved]; omega)]

/-! ## The sweeps -/

/-- Nothing is live that its equation does not make live. -/
structure Rising (points : List FlowPoint) (sets : List LiveSets) : Prop where
  length : sets.length = points.length
  rising : ∀ (i : Nat) (p : FlowPoint), points[i]? = some p → ∀ x ∈ liveAt sets i, x ∈ p.liveBefore (sets.map (·.before))

theorem rising_start (points : List FlowPoint) : Rising points (start points) := by
  refine ⟨by simp [start], fun i p hp x hx => ?_⟩
  simp only [liveAt, start, List.map_map, List.getElem?_map, hp, Option.map_some, Option.getD_some] at hx
  exact absurd hx (NameSet.notMem_empty x)

theorem liveBefore_mono {sets' : List LiveSets} (h : ∀ i, ∀ x ∈ liveAt sets i, x ∈ liveAt sets' i)
    (hx : x ∈ p.liveBefore (sets.map (·.before))) : x ∈ p.liveBefore (sets'.map (·.before)) := by
  rw [mem_liveBefore, mem_liveAfter_before] at hx ⊢
  exact hx.imp_right fun ⟨⟨s, hs, hxs⟩, hdef⟩ => ⟨⟨s, hs, h s x hxs⟩, hdef⟩

theorem Rising.refresh (h : Rising points sets) (i : Nat) :
    Rising points (refresh points i sets) ∧ ∀ j, ∀ x ∈ liveAt sets j, x ∈ liveAt (refresh points i sets) j := by
  have hgrows (j : Nat) (x : String) (hx : x ∈ liveAt sets j) : x ∈ liveAt (FlowPoint.refresh points i sets) j := by
    rw [liveAt_refresh h.length]
    split
    · subst j
      cases hp : points[i]? with
      | some p => exact h.rising i p hp x hx
      | none =>
        have hi : sets[i]? = none := by rwa [List.getElem?_eq_none_iff, h.length, ← List.getElem?_eq_none_iff]
        simp [liveAt, hi] at hx
    · exact hx
  refine ⟨⟨by simpa using h.length, fun j p hp x hx => liveBefore_mono hgrows ?_⟩, hgrows⟩
  rw [liveAt_refresh h.length] at hx
  split at hx
  · subst j
    simpa [hp] using hx
  · exact h.rising j p hp x hx

theorem Rising.sweep (h : Rising points sets) :
    Rising points (sweep points sets) ∧ ∀ j, ∀ x ∈ liveAt sets j, x ∈ liveAt (sweep points sets) j :=
  sweep_induction (motive := fun s => Rising points s ∧ ∀ j, ∀ x ∈ liveAt sets j, x ∈ liveAt s j)
    ⟨h, fun _ _ => id⟩ fun i _ hs => ⟨(hs.1.refresh i).1, fun j x hx => (hs.1.refresh i).2 j x (hs.2 j x hx)⟩

/-- A sweep finds a variable live where it does by the places where the variable was live. -/
theorem liveAt_sweep_congr {sets' : List LiveSets} (hlen : sets.length = points.length)
    (hlen' : sets'.length = points.length) (h : ∀ i, x ∈ liveAt sets i ↔ x ∈ liveAt sets' i) (i : Nat) :
    x ∈ liveAt (sweep points sets) i ↔ x ∈ liveAt (sweep points sets') i := by
  unfold sweep
  generalize List.range points.length = is
  induction is generalizing i with
  | nil => exact h i
  | cons k is ih =>
    rw [List.foldr_cons, List.foldr_cons, liveAt_refresh (by simpa using hlen), liveAt_refresh (by simpa using hlen')]
    split
    · cases points[k]? with
      | none => simp
      | some p => simp only [Option.map_some, Option.getD_some, mem_liveBefore, mem_liveAfter_before, ih]
    · exact ih i

/-- The sets after `k` sweeps. -/
def swept (points : List FlowPoint) (k : Nat) : List LiveSets := (sweep points)^[k] (start points)

theorem swept_succ (points : List FlowPoint) (k : Nat) : swept points (k + 1) = sweep points (swept points k) :=
  Function.iterate_succ_apply' _ _ _

theorem rising_swept (points : List FlowPoint) (k : Nat) : Rising points (swept points k) := by
  induction k with
  | zero => exact rising_start points
  | succ k ih => exact swept_succ points k ▸ ih.sweep.1

/-- The instructions before which a variable is live after `k` sweeps. -/
def livePlaces (points : List FlowPoint) (x : String) (k : Nat) : Finset Nat :=
  (Finset.range points.length).filter fun i => x ∈ liveAt (swept points k) i

theorem mem_livePlaces : i ∈ livePlaces points x k ↔ x ∈ liveAt (swept points k) i := by
  simp only [livePlaces, Finset.mem_filter, Finset.mem_range, and_iff_right_iff_imp]
  intro h
  by_contra hi
  have hnone : (swept points k)[i]? = none := by rw [List.getElem?_eq_none_iff, (rising_swept points k).length]; omega
  simp [liveAt, hnone] at h

/-- As many sweeps as there are instructions find what is live before them. -/
theorem before_swept_length (points : List FlowPoint) :
    (sweep points (swept points points.length)).map (·.before) = (swept points points.length).map (·.before) := by
  have hplaces (x : String) : livePlaces points x points.length = livePlaces points x (points.length + 1) := by
    apply chain_rest (n := points.length)
    · intro k
      exact Finset.filter_subset _ _
    · intro k i hi
      rw [mem_livePlaces, swept_succ]
      exact (rising_swept points k).sweep.2 i x (mem_livePlaces.1 hi)
    · intro k hk
      have hsame (i : Nat) : x ∈ liveAt (swept points k) i ↔ x ∈ liveAt (swept points (k + 1)) i := by
        rw [← mem_livePlaces, ← mem_livePlaces, hk]
      ext i
      have h := liveAt_sweep_congr (rising_swept points k).length (rising_swept points (k + 1)).length hsame i
      rwa [← swept_succ, ← swept_succ, ← mem_livePlaces, ← mem_livePlaces] at h
  rw [← swept_succ]
  refine List.ext_getElem (by simp [(rising_swept points _).length]) fun i h₁ h₂ => NameSet.ext fun x => ?_
  have hat (k : Nat) (h : i < ((swept points k).map (·.before)).length) :
      x ∈ ((swept points k).map (·.before))[i] ↔ i ∈ livePlaces points x k := by
    rw [mem_livePlaces, liveAt, List.getElem?_eq_getElem h, Option.getD_some]
  rw [hat _ h₁, hat _ h₂, hplaces]

/-- The sweep after the next one changes nothing. -/
theorem sweep_swept (points : List FlowPoint) :
    sweep points (swept points (points.length + 1)) = swept points (points.length + 1) := by
  have hlen := (rising_swept points points.length).length
  have hbefore := before_swept_length points
  have hsolved := sweep_eq_solved hlen hbefore
  rw [← swept_succ] at hbefore hsolved
  have hagain : (sweep points (swept points (points.length + 1))).map (·.before) =
      (swept points (points.length + 1)).map (·.before) := by
    refine List.ext_getElem (by simp) fun i h₁ h₂ => NameSet.ext fun x => ?_
    have hsame (i : Nat) : x ∈ liveAt (swept points points.length) i ↔ x ∈ liveAt (swept points (points.length + 1)) i := by
      rw [liveAt, liveAt, hbefore]
    have h := liveAt_sweep_congr hlen (rising_swept points (points.length + 1)).length hsame i
    rw [← swept_succ] at h
    simpa only [liveAt, List.getElem?_eq_getElem h₁, List.getElem?_eq_getElem h₂, Option.getD_some] using h.symm
  rw [sweep_eq_solved (rising_swept points _).length hagain, hbefore, ← hsolved]

/-- Sweeping stops at the first sets that a sweep does not change. -/
theorem exists_iterate (fuel k : Nat) {d : Nat} (hd : d ≤ fuel)
    (h : sweep points (swept points (k + d)) = swept points (k + d)) :
    ∃ j ≤ k + d, iterate points fuel (swept points k) = swept points j ∧ sweep points (swept points j) = swept points j := by
  induction fuel generalizing k d with
  | zero =>
    obtain rfl : d = 0 := by omega
    exact ⟨k, le_rfl, rfl, h⟩
  | succ fuel ih =>
    simp only [iterate]
    split
    · exact ⟨k, by omega, rfl, ‹_›⟩
    · rename_i hne
      cases d with
      | zero => exact absurd h hne
      | succ d =>
        rw [← swept_succ]
        obtain ⟨j, hj, hiterate, hrest⟩ := ih (k + 1) (d := d) (by omega) (by rwa [Nat.add_assoc, Nat.add_comm 1])
        exact ⟨j, by omega, hiterate, hrest⟩

/-- The loop ends after some sweeps, of which the last changed nothing. -/
theorem exists_solve (points : List FlowPoint) :
    ∃ k ≤ points.length + 1, solve points = swept points k ∧ sweep points (swept points k) = swept points k := by
  have h := sweep_swept points
  rw [← Nat.zero_add (points.length + 1)] at h
  obtain ⟨k, hk, hsolve, hrest⟩ := exists_iterate (points.length + 2) 0 (by omega) h
  exact ⟨k, by omega, hsolve, hrest⟩

/-- The sets before each instruction that the sweeps end with. -/
def solution (points : List FlowPoint) : List NameSet := (solve points).map (·.before)

theorem solve_eq (points : List FlowPoint) : solve points = solved points (solution points) := by
  obtain ⟨k, -, hsolve, hrest⟩ := exists_solve points
  rw [solution, hsolve]
  have h := sweep_eq_solved (rising_swept points k).length (congrArg (List.map (·.before)) hrest)
  rwa [hrest] at h

end FlowPoint

namespace Liveness

/-- The variables live before an instruction. -/
def before (l : Liveness) (i : Nat) : NameSet := (l.sets[i]?.map (·.before)).getD ∅

/-- The variables live after an instruction. -/
def after (l : Liveness) (i : Nat) : NameSet := (l.sets[i]?.map (·.after)).getD ∅

end Liveness

namespace CodeMethod
variable {m : CodeMethod} {l : Liveness}

theorem liveness_sets (h : m.liveness = .ok l) :
    l.sets = l.points.map fun p =>
      ⟨p.liveBefore (FlowPoint.solution l.points), p.liveAfter (FlowPoint.solution l.points)⟩ := by
  unfold liveness at h
  cases hp : m.flowPoints with
  | error e => rw [hp] at h; cases h
  | ok points => rw [hp] at h; cases h; exact FlowPoint.solve_eq points

/-- What liveness knows of the instruction at an index. -/
theorem point_of_liveness (h : m.liveness = .ok l) {k : Nat} {i : Instruction}
    (hi : m.code[k]? = some i) :
    ∃ ds us js, i.defs = .ok ds ∧ i.uses = .ok us ∧ m.successors k = .ok js ∧
      l.points[k]? = some ⟨NameSet.ofList ds, NameSet.ofList us, js⟩ := by
  simp only [liveness, flowPoints, bind_eq_ok, pure_eq_ok] at h
  obtain ⟨points, ⟨defs, hdefs, uses, huses, next, hnext, rfl⟩, rfl⟩ := h
  have hk : k < m.code.length := (List.getElem?_eq_some_iff.1 hi).1
  obtain ⟨ds, hds, hids⟩ := getElem?_of_mapM hdefs hi
  obtain ⟨us, hus, hius⟩ := getElem?_of_mapM huses hi
  obtain ⟨js, hjs, hijs⟩ := getElem?_of_mapM hnext (List.getElem?_range hk)
  have hzip : (defs.zip (uses.zip next))[k]? = some (ds, us, js) :=
    List.getElem?_zip_eq_some.2 ⟨hds, List.getElem?_zip_eq_some.2 ⟨hus, hjs⟩⟩
  refine ⟨ds, us, js, hids, hius, hijs, ?_⟩
  rw [List.getElem?_map, hzip]
  rfl

/-- The successors of an instruction are known where its jump target is. -/
theorem exists_successors {k : Nat} {i : Instruction} (hi : m.code[k]? = some i)
    (htarget : ∀ label, i.target? = some label → ∃ j, m.labels.find? label = some j) :
    ∃ js, m.successors k = .ok js := by
  have hexits : ∃ e, m.exits i = .ok e := by
    cases i with
    | goto label =>
      obtain ⟨j, hj⟩ := htarget label rfl
      exact ⟨([j], false), by simp [exits, labelIndex, hj]⟩
    | branch condition label =>
      obtain ⟨j, hj⟩ := htarget label rfl
      exact ⟨([j], true), by simp [exits, labelIndex, hj]⟩
    | _ => exact ⟨_, rfl⟩
  obtain ⟨e, he⟩ := hexits
  unfold successors
  rw [hi]
  exact ⟨_, bind_eq_ok.2 ⟨e, he, rfl⟩⟩

/-- Liveness has an answer where every instruction has definitions and uses, and every jump a target. -/
theorem exists_liveness
    (hnames : ∀ (k : Nat) (i : Instruction), m.code[k]? = some i →
      ∃ ds us, i.defs = .ok ds ∧ i.uses = .ok us)
    (htargets : ∀ i ∈ m.code, ∀ label, i.target? = some label → ∃ j, m.labels.find? label = some j) :
    ∃ l, m.liveness = .ok l := by
  obtain ⟨defs, hdefs⟩ : ∃ defs, m.code.mapM Instruction.defs = .ok defs := by
    refine exists_mapM_eq_ok fun i hi => ?_
    obtain ⟨k, hk⟩ := List.mem_iff_getElem?.1 hi
    obtain ⟨ds, -, hds, -⟩ := hnames k i hk
    exact ⟨ds, hds⟩
  obtain ⟨uses, huses⟩ : ∃ uses, m.code.mapM Instruction.uses = .ok uses := by
    refine exists_mapM_eq_ok fun i hi => ?_
    obtain ⟨k, hk⟩ := List.mem_iff_getElem?.1 hi
    obtain ⟨-, us, -, hus⟩ := hnames k i hk
    exact ⟨us, hus⟩
  obtain ⟨next, hnext⟩ : ∃ next, (List.range m.code.length).mapM m.successors = .ok next := by
    refine exists_mapM_eq_ok fun k hk => ?_
    have hk := List.getElem?_eq_getElem (List.mem_range.1 hk)
    exact exists_successors hk (htargets _ (List.mem_of_getElem? hk))
  have hpoints : ∃ points, m.flowPoints = .ok points :=
    ⟨_, bind_eq_ok.2 ⟨defs, hdefs, bind_eq_ok.2 ⟨uses, huses, bind_eq_ok.2 ⟨next, hnext, rfl⟩⟩⟩⟩
  obtain ⟨points, hpoints⟩ := hpoints
  exact ⟨_, bind_eq_ok.2 ⟨points, hpoints, rfl⟩⟩

theorem before_eq (h : m.liveness = .ok l) (i : Nat) :
    l.before i = (FlowPoint.solution l.points)[i]?.getD ∅ := by
  rw [FlowPoint.solution, FlowPoint.solve_eq]
  simp only [Liveness.before, liveness_sets h, FlowPoint.solved, List.getElem?_map, Option.map_map]

theorem mem_after_iff (h : m.liveness = .ok l) {i : Nat} {p : FlowPoint} (hp : l.points[i]? = some p)
    {x : String} : x ∈ l.after i ↔ ∃ s ∈ p.successors, x ∈ l.before s := by
  simp only [before_eq h, ← FlowPoint.mem_liveAfter]
  simp [Liveness.after, liveness_sets h, hp]

theorem mem_before_iff (h : m.liveness = .ok l) {i : Nat} {p : FlowPoint}
    (hp : l.points[i]? = some p) {x : String} :
    x ∈ l.before i ↔ x ∈ p.uses ∨ x ∈ l.after i ∧ x ∉ p.defs := by
  simp [Liveness.before, Liveness.after, liveness_sets h, hp, FlowPoint.mem_liveBefore]

end CodeMethod
end JmmCompiler

import Mathlib.Data.List.Forall2
/-! Stages that may fail: a sequence of them succeeds when each does. -/
namespace JmmCompiler
variable {ε α β : Type}

@[simp] theorem bind_eq_ok {x : Except ε α} {f : α → Except ε β} {b : β} :
    (x >>= f) = .ok b ↔ ∃ a, x = .ok a ∧ f a = .ok b := by
  cases x with
  | error e => simp [bind, Except.bind]
  | ok a => simp [bind, Except.bind]

theorem ok_bind (a : α) (f : α → Except ε β) : (Except.ok a >>= f) = f a := rfl

@[simp] theorem pure_eq_ok {a b : α} : (pure a : Except ε α) = .ok b ↔ a = b := by
  simp [pure, Except.pure]

theorem map_eq_ok {x : Except ε α} {f : α → β} {b : β} :
    f <$> x = .ok b ↔ ∃ a, x = .ok a ∧ f a = b := by
  cases x <;> simp [Functor.map, Except.map]

theorem exists_of_mem_forall₂ {R : α → β → Prop} {xs : List α} {ys : List β} (h : List.Forall₂ R xs ys) {y : β}
    (hy : y ∈ ys) : ∃ x ∈ xs, R x y := by
  obtain ⟨i, hi, rfl⟩ := List.getElem_of_mem hy
  have hlt : i < xs.length := h.length_eq ▸ hi
  exact ⟨_, List.getElem_mem hlt, h.get hlt hi⟩

theorem mapM_eq_ok_iff {f : α → Except ε β} {xs : List α} {ys : List β} :
    xs.mapM f = .ok ys ↔ List.Forall₂ (fun x y => f x = .ok y) xs ys := by
  induction xs generalizing ys with
  | nil => rw [List.mapM_nil, pure_eq_ok, List.forall₂_nil_left_iff, eq_comm]
  | cons x xs ih =>
    simp only [List.mapM_cons, bind_eq_ok, pure_eq_ok, ih]
    constructor
    · rintro ⟨y, hy, ys, hys, rfl⟩
      exact .cons hy hys
    · rintro (_ | ⟨hy, hys⟩)
      exact ⟨_, hy, _, hys, rfl⟩

theorem exists_mapM_eq_ok {f : α → Except ε β} {xs : List α} (h : ∀ x ∈ xs, ∃ y, f x = .ok y) :
    ∃ ys, xs.mapM f = .ok ys := by
  induction xs with
  | nil => exact ⟨[], rfl⟩
  | cons x xs ih =>
    obtain ⟨y, hy⟩ := h x (by simp)
    obtain ⟨ys, hys⟩ := ih fun z hz => h z (by simp [hz])
    exact ⟨y :: ys, mapM_eq_ok_iff.2 (.cons hy (mapM_eq_ok_iff.1 hys))⟩

theorem exists_forall₂ {f : α → Except ε β} {xs : List α} {R : α → β → Prop} (h : ∀ x ∈ xs, ∃ y, f x = .ok y ∧ R x y) :
    ∃ ys, xs.mapM f = .ok ys ∧ List.Forall₂ R xs ys := by
  obtain ⟨ys, hys⟩ := exists_mapM_eq_ok fun x hx => (h x hx).imp fun _ h => h.1
  refine ⟨ys, hys, ((List.forall₂_and_left xs ys).2 ⟨h, mapM_eq_ok_iff.1 hys⟩).imp fun x y hxy => ?_⟩
  obtain ⟨⟨y', hy', hR⟩, hy⟩ := hxy
  exact Except.ok.inj (hy'.symm.trans hy) ▸ hR

theorem getElem?_of_mapM {f : α → Except ε β} {xs : List α} {ys : List β} (h : xs.mapM f = .ok ys)
    {i : Nat} {x : α} (hx : xs[i]? = some x) : ∃ y, ys[i]? = some y ∧ f x = .ok y := by
  have hall := mapM_eq_ok_iff.1 h
  clear h
  induction hall generalizing i with
  | nil => simp at hx
  | cons hy _ ih =>
    cases i with
    | zero =>
      obtain rfl : _ = x := by simpa using hx
      exact ⟨_, rfl, hy⟩
    | succ i => exact ih (by simpa using hx)

theorem exists_of_mapM {f : α → Except ε β} {xs : List α} {ys : List β} (h : xs.mapM f = .ok ys) {x : α}
    (hx : x ∈ xs) : ∃ y ∈ ys, f x = .ok y := by
  obtain ⟨i, hi⟩ := List.getElem?_of_mem hx
  obtain ⟨y, hy, hfx⟩ := getElem?_of_mapM h hi
  exact ⟨y, List.mem_of_getElem? hy, hfx⟩

theorem exists_of_mem_mapM {f : α → Except ε β} {xs : List α} {ys : List β} (h : xs.mapM f = .ok ys) {y : β}
    (hy : y ∈ ys) : ∃ x ∈ xs, f x = .ok y := exists_of_mem_forall₂ (mapM_eq_ok_iff.1 h) hy

/-- What each result determines is determined by all of them. -/
theorem mapM_eq_ok_map {γ : Type} {f : α → Except ε β} {g : α → Except ε γ} {k : β → γ} {xs : List α}
    {ys : List β} (h : xs.mapM f = .ok ys) (hk : ∀ x y, f x = .ok y → g x = .ok (k y)) :
    xs.mapM g = .ok (ys.map k) := by
  rw [mapM_eq_ok_iff, List.forall₂_map_right_iff]
  exact (mapM_eq_ok_iff.1 h).imp fun x y hxy => hk x y hxy

theorem length_of_mapM {f : α → Except ε β} {xs : List α} {ys : List β} (h : xs.mapM f = .ok ys) :
    ys.length = xs.length := (mapM_eq_ok_iff.1 h).length_eq.symm

theorem exists_of_toOption {x : Except ε α} {f : α → β} {b : β} (h : x.toOption.map f = some b) :
    ∃ a, x = .ok a ∧ f a = b := by
  cases x with
  | error e => cases h
  | ok a => exact ⟨a, rfl, Option.some.inj h⟩

theorem eq_ok_of_toOption {x : Except ε α} {a : α} (h : x.toOption = some a) : x = .ok a := by
  cases x with
  | error e => cases h
  | ok b => exact congrArg Except.ok (Option.some.inj h)

/-- What a computation over a state makes of a state. -/
def runOn {σ : Type} (x : ExceptT ε (StateM σ) α) (s : σ) : Except ε α × σ := x.run s

section
variable {σ : Type} {s s' : σ}

@[simp] theorem runOn_pure (a : α) : runOn (pure a : ExceptT ε (StateM σ) α) s = (.ok a, s) := rfl

@[simp] theorem runOn_throw (e : ε) :
    runOn (throw e : ExceptT ε (StateM σ) α) s = (.error e, s) := rfl

theorem runOn_bind (x : ExceptT ε (StateM σ) α) (f : α → ExceptT ε (StateM σ) β) (s : σ) :
    runOn (x >>= f) s =
      match runOn x s with
      | (.ok a, t) => runOn (f a) t
      | (.error e, t) => (.error e, t) := by
  change ExceptT.bind x f s = match x s with
    | (.ok a, t) => f a t
    | (.error e, t) => (.error e, t)
  unfold ExceptT.bind
  change (match x s with | (a, t) => ExceptT.bindCont f a t) = _
  rcases x s with ⟨_ | _, _⟩ <;> rfl

@[simp] theorem runOn_bind_eq_ok {x : ExceptT ε (StateM σ) α} {f : α → ExceptT ε (StateM σ) β} {b : β} :
    runOn (x >>= f) s = (.ok b, s') ↔
      ∃ a t, runOn x s = (.ok a, t) ∧ runOn (f a) t = (.ok b, s') := by
  rw [runOn_bind]
  rcases runOn x s with ⟨_ | a, t⟩
  · simp
  · simp

end

end JmmCompiler

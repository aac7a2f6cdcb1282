import JmmCompiler.Code.Method
import JmmCompiler.Proofs.Results
import Mathlib.Data.List.Nodup
/-! Slots of variables. A finished method gives every variable a slot of its own, `this` and the
parameters in front. -/
namespace JmmCompiler

namespace Assoc
variable {α : Type}

theorem findEntry_eq_none_iff {es : List (String × α)} {name : String} :
    findEntry name es = none ↔ name ∉ es.map (·.1) := by
  induction es with
  | nil => simp [findEntry]
  | cons e es ih => grind [findEntry]

theorem mem_keys_iff {m : Assoc α} {name : String} : name ∈ m.keys ↔ m.find? name ≠ none := by
  rw [find?, Ne, findEntry_eq_none_iff, keys, not_not]

theorem contains_iff {m : Assoc α} {name : String} :
    m.contains name = true ↔ ∃ v, m.find? name = some v := by
  rw [contains, Option.isSome_iff_exists]

theorem not_contains_iff {m : Assoc α} {name : String} :
    ¬m.contains name = true ↔ m.find? name = none := by
  rw [contains, Bool.not_eq_true, Option.isSome_eq_false_iff, Option.isNone_iff_eq_none]

theorem mem_of_findEntry {es : List (String × α)} {name : String} {v : α}
    (h : findEntry name es = some v) : (name, v) ∈ es := by
  induction es with
  | nil => simp [findEntry] at h
  | cons e es ih => grind [findEntry]

theorem length_insertEntry {es : List (String × α)} {name : String} {v : α}
    (h : findEntry name es = none) : (insertEntry name v es).length = es.length + 1 := by
  induction es with
  | nil => rfl
  | cons e es ih => grind [findEntry, insertEntry]

theorem insertEntry_of_findEntry {es : List (String × α)} {name : String} {v : α}
    (h : findEntry name es = none) : insertEntry name v es = es ++ [(name, v)] := by
  induction es with
  | nil => rfl
  | cons e es ih => grind [findEntry, insertEntry]

theorem size_insert {m : Assoc α} {name : String} {v : α} (h : m.find? name = none) :
    (m.insert name v).size = m.size + 1 :=
  length_insertEntry h

theorem keys_insertEntry {es : List (String × α)} {name : String} {v : α} :
    (insertEntry name v es).map (·.1) =
      if findEntry name es = none then es.map (·.1) ++ [name] else es.map (·.1) := by
  induction es with
  | nil => simp [insertEntry, findEntry]
  | cons e es ih => grind [findEntry, insertEntry]

theorem keys_insert {m : Assoc α} {name : String} {v : α} :
    (m.insert name v).keys = if m.find? name = none then m.keys ++ [name] else m.keys :=
  keys_insertEntry

theorem nodup_keys_insert {m : Assoc α} (h : m.keys.Nodup) (name : String) (v : α) :
    (m.insert name v).keys.Nodup := by
  rw [keys_insert]
  split
  · rename_i hnone
    refine h.append (List.nodup_singleton name) ?_
    rw [List.disjoint_singleton, mem_keys_iff, not_not]
    exact hnone
  · exact h

/-- Of maps with distinct keys, the entries that are inserted win over those that were there. -/
theorem find?_insertAll {m n : Assoc α} (h : n.keys.Nodup) (name : String) :
    (m.insertAll n).find? name = (n.find? name).or (m.find? name) := by
  obtain ⟨es⟩ := n
  simp only [insertAll, find?, keys] at *
  induction es generalizing m with
  | nil => rfl
  | cons e es ih =>
    obtain ⟨hout, hes⟩ := List.nodup_cons.1 h
    rw [List.foldl_cons, ih hes]
    have he := findEntry_eq_none_iff.2 hout
    have hins := find?_insert m e.1 name e.2
    simp only [find?] at hins
    rw [hins, findEntry]
    grind

end Assoc

namespace Slots

/-- The slots are numbered from 0 on, without a gap that another variable could fall into, and no two
variables share one. -/
structure Packed (s : Slots) : Prop where
  injective : ∀ x y n, s.find? x = some n → s.find? y = some n → x = y
  nonneg : ∀ x n, s.find? x = some n → 0 ≤ n
  lt_size : ∀ x n, s.find? x = some n → n < s.size

theorem packed_empty : Packed {} := ⟨by simp, by simp, by simp⟩

theorem Packed.insert {s : Slots} (h : s.Packed) {name : String} (hnew : s.find? name = none) :
    Packed (Assoc.insert s name s.size) := by
  have hsize : (Assoc.insert s name (s.size : Int)).size = s.size + 1 := Assoc.size_insert hnew
  constructor
  · intro x y n hx hy
    rw [Assoc.find?_insert] at hx hy
    have hlt := h.lt_size
    have hinj := h.injective
    grind
  · intro x n hx
    rw [Assoc.find?_insert] at hx
    have hnonneg := h.nonneg
    grind
  · intro x n hx
    rw [Assoc.find?_insert] at hx
    have hlt := h.lt_size
    grind

end Slots

namespace CodeMethod

theorem packed_addSlot {s : Slots} (h : s.Packed) (name : String) : (addSlot s name).Packed := by
  unfold addSlot
  split
  · exact h
  · rename_i hnew
    exact h.insert (Assoc.not_contains_iff.1 hnew)

theorem packed_foldl_addSlot {s : Slots} (h : s.Packed) (names : List String) :
    (names.foldl addSlot s).Packed := by
  induction names generalizing s with
  | nil => exact h
  | cons x xs ih => exact ih (packed_addSlot h x)

theorem find?_addSlot {s : Slots} {name x : String} {n : Int} (h : s.find? x = some n) :
    (addSlot s name).find? x = some n := by
  unfold addSlot
  split
  · exact h
  · rename_i hnew
    rw [Assoc.find?_insert]
    have := Assoc.not_contains_iff.1 hnew
    grind

theorem find?_foldl_addSlot {s : Slots} {names : List String} {x : String} {n : Int}
    (h : s.find? x = some n) : (names.foldl addSlot s).find? x = some n := by
  induction names generalizing s with
  | nil => exact h
  | cons y ys ih => exact ih (find?_addSlot h)

theorem exists_find?_foldl_addSlot {s : Slots} {names : List String} {x : String} (h : x ∈ names) :
    ∃ n, (names.foldl addSlot s).find? x = some n := by
  induction names generalizing s with
  | nil => simp at h
  | cons y ys ih =>
    rcases List.mem_cons.1 h with rfl | h
    · have hx : ∃ n, (addSlot s x).find? x = some n := by
        unfold addSlot
        split
        · rename_i hc
          exact Assoc.contains_iff.1 hc
        · exact ⟨_, by rw [Assoc.find?_insert, if_pos rfl]⟩
      obtain ⟨n, hn⟩ := hx
      have hfold : (ys.foldl addSlot (addSlot s x)).find? x = some n := find?_foldl_addSlot hn
      exact ⟨n, hfold⟩
    · exact ih h

theorem packed_foldl_insert {s : Slots} (h : s.Packed) {params : List Symbol}
    (hnodup : (params.map (·.name)).Nodup) (hnew : ∀ p ∈ params, s.find? p.name = none) :
    let t : Slots := params.foldl (fun slots p => slots.insert p.name slots.size) s
    t.Packed ∧ t.size = s.size + params.length ∧
      ∀ x, t.find? x ≠ none ↔ s.find? x ≠ none ∨ x ∈ params.map (·.name) := by
  induction params generalizing s with
  | nil => simp [h]
  | cons p ps ih =>
    obtain ⟨hp, hps⟩ := List.nodup_cons.1 hnodup
    have hpnone := hnew p (by simp)
    have hrest : ∀ q ∈ ps, (Assoc.insert s p.name (s.size : Int)).find? q.name = none := by
      intro q hq
      rw [Assoc.find?_insert, if_neg]
      · exact hnew q (by simp [hq])
      · intro heq
        exact hp (List.mem_map.2 ⟨q, hq, heq.symm⟩)
    obtain ⟨hpacked, hsize, hfind⟩ := ih (h.insert hpnone) hps hrest
    refine ⟨hpacked, ?_, ?_⟩
    · rw [List.foldl_cons, hsize, Assoc.size_insert hpnone, List.length_cons]
      omega
    · intro x
      rw [List.foldl_cons, hfind x, Assoc.find?_insert]
      grind

variable {m : CodeMethod}

/-- `this` and the parameters take the first slots, one each. -/
theorem fixedSlots_spec (hnodup : (m.params.map (·.name)).Nodup)
    (hthis : "this" ∉ m.params.map (·.name)) :
    m.fixedSlots.Packed ∧ m.fixedSlots.size = m.reserved ∧
      ∀ x, m.fixedSlots.find? x ≠ none ↔
        (m.isStatic = false ∧ x = "this") ∨ x ∈ m.params.map (·.name) := by
  unfold fixedSlots reserved
  cases hs : m.isStatic with
  | true =>
    obtain ⟨hpacked, hsize, hfind⟩ := packed_foldl_insert Slots.packed_empty hnodup (by simp)
    refine ⟨hpacked, ?_, ?_⟩
    · exact hsize
    · intro x
      simpa using hfind x
  | false =>
    have hbase : Slots.Packed ⟨[("this", 0)]⟩ := Slots.packed_empty.insert rfl
    have hnew : ∀ p ∈ m.params, (⟨[("this", 0)]⟩ : Slots).find? p.name = none := by
      intro p hp
      have hne : "this" ≠ p.name := fun heq => hthis (heq ▸ List.mem_map_of_mem hp)
      simp [Assoc.find?, Assoc.findEntry, hne]
    obtain ⟨hpacked, hsize, hfind⟩ := packed_foldl_insert hbase hnodup hnew
    refine ⟨hpacked, hsize, ?_⟩
    intro x
    simp only [Bool.false_eq_true, if_false]
    rw [hfind x]
    simp [Assoc.find?, Assoc.findEntry, eq_comm]

/-- What `finish` makes of a method: perhaps one more instruction, and slots. -/
theorem finish_spec {m₀ : CodeMethod} (h : m₀.finish = .ok m) :
    ∃ names, m.code.mapM mentions = .ok names ∧
      m.slots = names.flatten.foldl addSlot m.fixedSlots := by
  unfold finish assignSlots at h
  generalize (if m₀.pending.isEmpty = true then m₀ else m₀.addInstruction .nop) = m₁ at h
  simp only [bind_eq_ok, pure_eq_ok] at h
  obtain ⟨names, hn, rfl⟩ := h
  exact ⟨names, hn, rfl⟩

theorem packed_of_finish {m₀ : CodeMethod} (h : m₀.finish = .ok m)
    (hnodup : (m.params.map (·.name)).Nodup) (hthis : "this" ∉ m.params.map (·.name)) :
    m.slots.Packed := by
  obtain ⟨names, -, hslots⟩ := finish_spec h
  rw [hslots]
  exact packed_foldl_addSlot (fixedSlots_spec hnodup hthis).1 _

theorem find?_fixed_of_finish {m₀ : CodeMethod} (h : m₀.finish = .ok m) {x : String} {n : Int}
    (hx : m.fixedSlots.find? x = some n) : m.slots.find? x = some n := by
  obtain ⟨names, -, hslots⟩ := finish_spec h
  rw [hslots]
  exact find?_foldl_addSlot hx

/-- Every instruction of a finished method has definitions and uses, and all of them have slots. -/
theorem mentions_of_finish {m₀ : CodeMethod} (h : m₀.finish = .ok m) {k : Nat} {i : Instruction}
    (hi : m.code[k]? = some i) :
    ∃ ds us, i.defs = .ok ds ∧ i.uses = .ok us ∧ ∀ x ∈ ds ++ us, ∃ n, m.slots.find? x = some n := by
  obtain ⟨names, hn, hslots⟩ := finish_spec h
  obtain ⟨xs, hxs, hmentions⟩ := getElem?_of_mapM hn hi
  simp only [mentions, bind_eq_ok, pure_eq_ok] at hmentions
  obtain ⟨ds, hds, us, hus, rfl⟩ := hmentions
  refine ⟨ds, us, hds, hus, fun x hx => ?_⟩
  rw [hslots]
  exact exists_find?_foldl_addSlot
    (List.mem_flatten.2 ⟨_, List.mem_of_getElem? hxs, hx⟩)

end CodeMethod
end JmmCompiler

/-! Finite maps from names that remember the order in which their keys came. The main statements
say what each operation does to a look-up. -/
namespace JmmCompiler

/-- A finite map from names. An entry keeps its place when its value is replaced. -/
structure Assoc (α : Type) where
  entries : List (String × α) := []
  deriving DecidableEq, Inhabited

namespace Assoc
variable {α : Type}

def findEntry (name : String) : List (String × α) → Option α
  | [] => none
  | e :: es => if e.1 = name then some e.2 else findEntry name es

def insertEntry (name : String) (value : α) : List (String × α) → List (String × α)
  | [] => [(name, value)]
  | e :: es => if e.1 = name then (name, value) :: es else e :: insertEntry name value es

def find? (m : Assoc α) (name : String) : Option α := findEntry name m.entries

def contains (m : Assoc α) (name : String) : Bool := (m.find? name).isSome

def keys (m : Assoc α) : List String := m.entries.map (·.1)

def values (m : Assoc α) : List α := m.entries.map (·.2)

def size (m : Assoc α) : Nat := m.entries.length

/-- Replaces the entry of `name` in its place, or adds one at the end. -/
def insert (m : Assoc α) (name : String) (value : α) : Assoc α :=
  ⟨insertEntry name value m.entries⟩

def erase (m : Assoc α) (name : String) : Assoc α := ⟨m.entries.filter (·.1 ≠ name)⟩

/-- Inserts the entries of `n` into `m` one after the other. -/
def insertAll (m n : Assoc α) : Assoc α :=
  n.entries.foldl (fun acc e => acc.insert e.1 e.2) m

@[simp] theorem find?_empty (name : String) : (⟨[]⟩ : Assoc α).find? name = none := rfl

theorem findEntry_insertEntry (es : List (String × α)) (k name : String) (v : α) :
    findEntry name (insertEntry k v es) = if k = name then some v else findEntry name es := by
  induction es with
  | nil => simp [insertEntry, findEntry]
  | cons e es ih => grind [insertEntry, findEntry]

theorem find?_insert (m : Assoc α) (k name : String) (v : α) :
    (m.insert k v).find? name = if k = name then some v else m.find? name :=
  findEntry_insertEntry m.entries k name v

theorem findEntry_filter_ne (es : List (String × α)) (k name : String) :
    findEntry name (es.filter (·.1 ≠ k)) = if k = name then none else findEntry name es := by
  induction es with
  | nil => simp [findEntry]
  | cons e es ih => grind [findEntry]

theorem find?_erase (m : Assoc α) (k name : String) :
    (m.erase k).find? name = if k = name then none else m.find? name :=
  findEntry_filter_ne m.entries k name

end Assoc
end JmmCompiler

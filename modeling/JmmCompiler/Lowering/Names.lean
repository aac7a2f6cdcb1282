import JmmCompiler.Diagnostic.Failure
/-! Names for temporaries and numbers for labels. Each is given out once. -/
namespace JmmCompiler

structure Names where
  /-- What temporaries are called before their number. -/
  stem : String := "tmp"
  nextTemp : Nat := 0
  nextLabel : Nat := 0
  /-- Names that no temporary may have. -/
  reserved : List String := []
  deriving DecidableEq, Inhabited

namespace Names

def reserve (n : Names) (names : List String) : Names :=
  { n with reserved := n.reserved ++ names }

def tempName (n : Names) (i : Nat) : String := n.stem ++ toString i

/-- The number of the next temporary: the first from `nextTemp` on whose name is not reserved. Among
one number more than there are reserved names there is such a number. -/
def freeTemp (n : Names) : Nat :=
  (((List.range (n.reserved.length + 1)).map (n.nextTemp + ·)).find?
    fun i => !n.reserved.contains (n.tempName i)).getD n.nextTemp

def temp (n : Names) : String × Names :=
  (n.tempName n.freeTemp, { n with nextTemp := n.freeTemp + 1 })

def label (n : Names) : Nat × Names := (n.nextLabel, { n with nextLabel := n.nextLabel + 1 })

end Names

/-- Lowering hands out names and may fail. -/
abbrev Lower := StateT Names (Except Failure)

namespace Lower

def temp : Lower String := modifyGet Names.temp

def label : Lower Nat := modifyGet Names.label

end Lower
end JmmCompiler

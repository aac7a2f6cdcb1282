import JmmCompiler.Diagnostic.Failure
import JmmCompiler.Jasmin.Line
/-! Method bodies in the making: the lines so far and the labels given out. A failure leaves the lines
that came before it. -/
namespace JmmCompiler.Jasmin

structure Body where
  lines : List Line := []
  nextLabel : Nat := 0
  deriving DecidableEq, Inhabited

abbrev Emit := ExceptT Failure (StateM Body)

namespace Emit

def line (l : Line) : Emit Unit := modify fun b => { b with lines := b.lines ++ [l] }

def plain (op : Plain) : Emit Unit := line (.plain op)

/-- A result that does not touch the body. -/
def ofExcept {α : Type} : Except Failure α → Emit α
  | .ok a => return a
  | .error e => throw e

/-- A label that the body has not given out yet. -/
def newLabel (stem : String) : Emit String :=
  modifyGet fun b => (stem ++ "_" ++ toString b.nextLabel, { b with nextLabel := b.nextLabel + 1 })

def slot (op : SlotOp) (n : Int) : Emit Unit :=
  if n < 0 then throw (.invalidSlot n op.text) else line (.slot op n)

def increment (n amount : Int) : Emit Unit :=
  if fitsByte amount then line (.increment n amount) else throw (.incrementRange amount)

/-- A jump that compares numbers. -/
def numberJump (compared : Compared) (op label : String) : Emit Unit :=
  match Comparison.ofSymbol? op with
  | some c => line (.jump compared c label)
  | none => throw .malformed

/-- A jump that compares references, which have no order. -/
def referenceJump (op label : String) : Emit Unit :=
  match Comparison.ofSymbol? op with
  | some .eq => line (.jump .refs .eq label)
  | some .ne => line (.jump .refs .ne label)
  | _ => throw (.referenceOrder op)

end Emit
end JmmCompiler.Jasmin

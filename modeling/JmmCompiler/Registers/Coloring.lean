import JmmCompiler.Code.Method
import JmmCompiler.Registers.Graph
/-! Greedy colouring: the nodes in the order of decreasing degree, each with the lowest number that no
neighbour coloured before it has. -/
namespace JmmCompiler.InterferenceGraph
variable (g : InterferenceGraph)

/-- Colours one more node. -/
def colorNode (first : Int) (colors : Slots) (name : String) : Slots :=
  colors.insert name (lowestFree first ((g.neighbors name).toList.filterMap colors.find?))

/-- The colours of all nodes, from `first` on. -/
def color (first : Int) : Slots := g.colorOrder.foldl (g.colorNode first) {}

end JmmCompiler.InterferenceGraph

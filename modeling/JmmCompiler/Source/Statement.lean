import JmmCompiler.Source.Token
import JmmCompiler.Tree.Node
/-! Statements as they are written, with the declarations of local variables in their places. In the
tree of a method the declarations come first: `Statement.locals` collects them, in the order of the
text, and `Statement.node` is what remains of a statement without them. -/
namespace JmmCompiler

mutual
inductive Statement
  | block (position : Position) (items : List Item)
  | ifThen (position : Position) (condition : Node) (thenPart : Statement)
  | ifElse (position : Position) (condition : Node) (thenPart elsePart : Statement)
  | whileLoop (position : Position) (condition : Node) (body : Statement)
  /-- An assignment, a return or an expression. -/
  | simple (node : Node)

/-- What a block or a method body lists: declarations and statements. -/
inductive Item
  | declaration (type : Node) (name : Token) (initial : Option Node)
  | statement (s : Statement)
end

instance : Inhabited Statement := ⟨.block {} []⟩
instance : Inhabited Item := ⟨.statement default⟩

namespace Node

def named (kind : Kind) (name : String) (children : List Node) (position : Position) : Node :=
  ⟨kind, ⟨[("name", .text name)]⟩, children, position⟩

def plain (kind : Kind) (children : List Node) (position : Position) : Node :=
  ⟨kind, {}, children, position⟩

def reference (name : Token) : Node := named .varRef name.text [] name.position

end Node

mutual
def Statement.locals : Statement → List Node
  | .block _ items => Item.allLocals items
  | .ifThen _ _ t => t.locals
  | .ifElse _ _ t e => t.locals ++ e.locals
  | .whileLoop _ _ b => b.locals
  | .simple _ => []

def Item.locals : Item → List Node
  | .declaration type name _ => [Node.named .varDecl name.text [type] type.position]
  | .statement s => s.locals

def Item.allLocals : List Item → List Node
  | [] => []
  | i :: is => i.locals ++ Item.allLocals is
end

mutual
def Statement.node : Statement → Node
  | .block p items => Node.plain .block (Item.allNodes items) p
  | .ifThen p c t => Node.plain .ifStmt [c, t.node] p
  | .ifElse p c t e => Node.plain .ifStmt [c, t.node, e.node] p
  | .whileLoop p c b => Node.plain .whileStmt [c, b.node] p
  | .simple n => n

/-- A declaration with an initial value leaves an assignment in its place, and one without leaves
nothing. -/
def Item.node? : Item → Option Node
  | .declaration type name initial =>
    initial.map fun value => Node.plain .assign [Node.reference name, value] type.position
  | .statement s => some s.node

def Item.allNodes : List Item → List Node
  | [] => []
  | i :: is => i.node?.toList ++ Item.allNodes is
end

end JmmCompiler

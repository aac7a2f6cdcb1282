import JmmCompiler.Json
import JmmCompiler.Tree.Node
/-! Trees as JSON values. -/
namespace JmmCompiler

namespace Node

/-- The fields of a node: its kind, its attributes, the place if it has one, and the children if there
are any. A later field of the same name takes the place of an earlier one. -/
def fields (kind : Kind) (attributes : Assoc Attribute) (position : Position)
    (children : List Json) : Assoc Json :=
  let own : Assoc Json := ⟨[("kind", .text kind.name)]⟩
  let described := own.insertAll attributes
  let placed :=
    if position.line = 0 then described
    else (described.insert "line" (.int position.line)).insert "column" (.int position.column)
  if children.isEmpty then placed else placed.insert "children" (.array children)

mutual
def toJson : Node → Json
  | ⟨kind, attributes, children, position⟩ =>
    .object (fields kind attributes position (allToJson children)).entries

def allToJson : List Node → List Json
  | [] => []
  | c :: cs => c.toJson :: allToJson cs
end

end Node
end JmmCompiler

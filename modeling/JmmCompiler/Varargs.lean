import JmmCompiler.Typing
/-! Variable arguments: the trailing arguments of a call to a method that takes any number of them
become one array literal. -/
namespace JmmCompiler
namespace SymbolTable
variable (t : SymbolTable)

/-- A call whose arguments are normal already. -/
def normalizeCall (method : Option String) (call : Node) : Except Failure Node := do
  let name ← call.name
  let receiver ← call.child 0
  let args := call.children.tail
  match t.method? name with
  | none => return call
  | some m =>
    if !(← t.isOwnReceiver method receiver) then return call
    match if m.isVarargs then m.params.getLast? else none with
    | none => return call
    | some last =>
      let fixed := m.params.length - 1
      if args.length < fixed then return call
      let gathered := args.drop fixed
      match gathered with
      | [arg] =>
        if arg.kind = .arrayLiteral then return call
        if (← t.typeOf method arg).isArray then return call
      | _ => pure ()
      let array : Node :=
        ⟨.arrayLiteral, ⟨[("element_type", .text last.type.name)]⟩, gathered, call.position⟩
      return call.withChildren (receiver :: args.take fixed ++ [array])

mutual
/-- All calls of a tree, those inside a call before it. -/
def normalizeVarargs (method : Option String) : Node → Except Failure Node
  | ⟨kind, attributes, children, position⟩ => do
    let method ←
      if kind = .methodDecl then (⟨kind, attributes, [], position⟩ : Node).name?
      else pure method
    let n : Node := ⟨kind, attributes, ← normalizeAllVarargs method children, position⟩
    if kind = .call then t.normalizeCall method n else return n

def normalizeAllVarargs (method : Option String) : List Node → Except Failure (List Node)
  | [] => return []
  | c :: cs => do
    let c ← normalizeVarargs method c
    return c :: (← normalizeAllVarargs method cs)
end

end SymbolTable
end JmmCompiler

import JmmCompiler.Checks.Basic
/-! Variables are declared, and calls reach a method. -/
namespace JmmCompiler.Check

/-- A variable is a parameter, a local variable, a field or an import. Fields and `this` are out of
reach in a static method. -/
def undeclaredVariables : Check where
  name := "UndeclaredVariables"
  rule s :=
    match s.node.kind with
    | .varRef => do
      let name ← s.node.name
      let method ← s.methodName
      if (s.table.binding? method name).isSome then return []
      if (s.table.field? name).isSome then
        return if s.inStatic then [Site.error s.node ("Cannot access field '" ++ name ++
          "' from static method '" ++ method.getD "None" ++ "'")] else []
      if s.table.isImported name then return []
      return [Site.error s.node ("Variable '" ++ name ++ "' is not declared")]
    | .thisRef => do
      if s.inStatic then
        return [Site.error s.node
          ("Cannot use 'this' in static method '" ++ (← s.methodName).getD "None" ++ "'")]
      else return []
    | _ => return []

/-- The arguments of a call against the parameters that take one argument each. -/
def fixedArguments (s : Site) : List (Symbol × Node) → Findings
  | [] => return []
  | (p, arg) :: rest => do
    let type ← s.typeOf arg
    let found :=
      if Ty.assignable p.type type then []
      else [Site.error arg ("Argument of type '" ++ type.text ++
        "' is not compatible with parameter '" ++ p.name ++ "' of type '" ++ p.type.text ++ "'")]
    return found ++ (← fixedArguments s rest)

/-- The elements that variable arguments gather. -/
def gathered (s : Site) (element : Ty) (arguments : List Node) : Findings := do
  let found ← arguments.mapM fun arg => do
    let type ← s.typeOf arg
    return if Ty.assignable element type then [] else
      [Site.error arg ("Varargs element of type '" ++ type.text ++ "' is not compatible with '" ++
        element.text ++ "'")]
  return found.flatten

/-- The arguments that go to variable arguments of type `type`: one array, or any number of elements. -/
def varargsArguments (s : Site) (type : Ty) (arguments : List Node) : Findings := do
  match arguments with
  | [arg] =>
    let given ← s.typeOf arg
    if given.isArray then
      return if Ty.assignable type given then [] else
        [Site.error arg ("Array argument is not compatible with varargs parameter of type '" ++
          type.text ++ "'")]
    else gathered s (← type.elementType) arguments
  | _ => gathered s (← type.elementType) arguments

/-- The arguments of a call to a method of the class, in number and type. -/
def arguments (s : Site) (m : MethodInfo) (args : List Node) : Findings := do
  let expects (how : String) (n : Nat) := [Site.error s.node ("Method '" ++ m.name ++
    "' expects " ++ how ++ toString n ++ " arguments, got " ++ toString args.length)]
  match if m.isVarargs then m.params.getLast? else none with
  | none =>
    if args.length ≠ m.params.length then return expects "" m.params.length
    fixedArguments s (m.params.zip args)
  | some last =>
    let fixed := m.params.dropLast
    if args.length < fixed.length then return expects "at least " fixed.length
    let found ← fixedArguments s (fixed.zip args)
    return found ++ (← varargsArguments s last.type (args.drop fixed.length))

/-- A call reaches a method of the class, the length of an array, or a method of an imported class or
of an imported superclass. -/
def undefinedMethods : Check where
  name := "UndefinedMethods"
  rule s :=
    match s.node.kind with
    | .call => do
      let name ← s.node.name
      let receiver ← s.node.child 0
      let type ← s.typeOf receiver
      match s.table.method? name with
      | some m =>
        if ← s.table.isOwnReceiver (← s.methodName) receiver then
          return ← arguments s m s.node.children.tail
      | none => pure ()
      if name = "length" ∧ s.node.children.length = 1 ∧ type.isArray then return []
      if !type.isArray && s.table.isImported type.name then return []
      if receiver.kind = .varRef then
        if s.table.isImported (← receiver.name) then return []
      if type = s.table.classType && s.table.superClass.any s.table.isImported then return []
      return [Site.error s.node ("Method '" ++ name ++ "' is not defined")]
    | _ => return []

end JmmCompiler.Check

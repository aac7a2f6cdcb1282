import JmmCompiler.Constants.Fold
import JmmCompiler.Tree.Walk
/-! Constant propagation: reads of variables that hold a known literal become that literal. Bindings
follow the order of the statements of a method. Each branch of an `if` starts from the bindings before
it, and those on which the branches agree survive; a loop forgets what its body assigns. -/
namespace JmmCompiler

/-- The literals that variables are known to hold. -/
abbrev Bindings := Assoc Node

namespace Bindings

/-- The bindings that two branches agree on. -/
def merge (a b : Bindings) : Bindings :=
  ⟨a.entries.filter fun e => (b.find? e.1).any (·.same e.2)⟩

def eraseAll (b : Bindings) (names : List String) : Bindings := names.foldl Assoc.erase b

/-- The bindings after an assignment: a variable holds a literal, or it is not known what it holds. -/
def assign (b : Bindings) (name : String) (value : Node) : Except Failure Bindings := do
  return if (← value.constant?).isSome then b.insert name value else b.erase name

end Bindings

namespace Node

mutual
/-- An expression with the variables that are bound replaced. -/
def substitute (b : Bindings) : Node → Except Failure Node
  | ⟨kind, attributes, children, position⟩ => do
    let n : Node := ⟨kind, attributes, children, position⟩
    if kind = .varRef then
      match b.find? (← n.name) with
      | none => return n
      | some bound =>
        match ← bound.constant? with
        | some c => return c.node position
        | none => throw .malformed
    else return ⟨kind, attributes, ← substituteAll b children, position⟩

def substituteAll (b : Bindings) : List Node → Except Failure (List Node)
  | [] => return []
  | c :: cs => do
    let c ← c.substitute b
    return c :: (← substituteAll b cs)
end

/-- The variable that an assignment assigns to. -/
def assignedName? (n : Node) : Except Failure (Option String) := do
  let target ← n.child 0
  if target.kind = .varRef then return some (← target.name) else return none

/-- The variables assigned anywhere in a tree. -/
def assignedNames (n : Node) : Except Failure (List String) := do
  let below ← (n.descendants [.assign]).mapM fun v => v.2.assignedName?
  let own ← if n.kind = .assign then n.assignedName? else pure none
  return (below ++ [own]).filterMap id

mutual
/-- A statement after the bindings `b`, and the bindings after it. `scope` names the parameters
and local variables of the method; assignments to others bind nothing. -/
def propagateStatement (scope : List String) (b : Bindings) :
    Node → Except Failure (Node × Bindings)
  | ⟨kind, attributes, children, position⟩ => do
    let rebuild (children : List Node) : Node := ⟨kind, attributes, children, position⟩
    match kind with
    | .assign =>
      match children with
      | [target, value] =>
        let value ← (← value.substitute b).fold
        if target.kind ≠ .varRef then
          return (rebuild [← target.substitute b, value], b)
        let name ← target.name
        let b' ← if scope.contains name then b.assign name value else pure b
        return (rebuild [target, value], b')
      | _ => throw .malformed
    | .arrayAssign | .exprStmt | .returnStmt => return (← (rebuild children).substitute b, b)
    | .block =>
      let (children, b') ← propagateSequence scope b children
      return (rebuild children, b')
    | .ifStmt =>
      match children with
      | [] => throw (.missingChild kind 0)
      | condition :: branches =>
        let condition ← condition.substitute b
        match ← propagateBranches scope b branches with
        | [(thenPart, b₁)] => return (rebuild [condition, thenPart], b₁.merge b)
        | [(thenPart, b₁), (elsePart, b₂)] =>
          return (rebuild [condition, thenPart, elsePart], b₁.merge b₂)
        | _ => throw .malformed
    | .whileStmt =>
      let b := b.eraseAll (← (rebuild children).assignedNames)
      match children with
      | [] => throw (.missingChild kind 0)
      | [condition] =>
        let _ ← condition.substitute b
        throw (.missingChild kind 1)
      | condition :: body :: _ =>
        let condition ← condition.substitute b
        let (body, _) ← propagateStatement scope b body
        return (rebuild [condition, body], b)
    | _ => return (rebuild children, b)

/-- Statements one after the other. -/
def propagateSequence (scope : List String) (b : Bindings) :
    List Node → Except Failure (List Node × Bindings)
  | [] => return ([], b)
  | s :: rest => do
    let (s, b) ← propagateStatement scope b s
    let (rest, b) ← propagateSequence scope b rest
    return (s :: rest, b)

/-- Statements that all start from the same bindings. -/
def propagateBranches (scope : List String) (b : Bindings) :
    List Node → Except Failure (List (Node × Bindings))
  | [] => return []
  | s :: rest => do
    let r ← propagateStatement scope b s
    return r :: (← propagateBranches scope b rest)
end

/-- A method starts without bindings. Children that are no statements stay as they are. -/
def propagateMethod (method : Node) : Except Failure Node := do
  let scope ← (method.params ++ method.locals).mapM name
  return method.withChildren (← propagateSequence scope {} method.children).1

/-- Replaces the first class declaration among the children. -/
def replaceClass (c : Node) : List Node → List Node
  | [] => []
  | n :: ns => if n.kind = .classDecl then c :: ns else n :: replaceClass c ns

def propagate (root : Node) : Except Failure Node := do
  let c ← root.classDecl
  let members ← c.children.mapM fun m =>
    if m.kind = .methodDecl then m.propagateMethod else return m
  let c := c.withChildren members
  return if root.kind = .classDecl then c
    else root.withChildren (replaceClass c root.children)

mutual
/-- The number of variable references of a tree. -/
def references : Node → Nat
  | ⟨kind, _, children, _⟩ => (if kind = .varRef then 1 else 0) + allReferences children

def allReferences : List Node → Nat
  | [] => 0
  | c :: cs => c.references + allReferences cs
end

/-- One round: propagation, then folding. -/
def foldRound (root : Node) : Except Failure Node := do (← root.propagate).fold

/-- Rounds until one changes nothing, at most `fuel` of them; also their number, after `done`. -/
def foldRounds (done : Nat) : Nat → Node → Except Failure (Node × Nat)
  | 0, root => return (root, done)
  | fuel + 1, root => do
    let next ← root.foldRound
    if next.same root then return (root, done + 1) else foldRounds (done + 1) fuel next

/-- Rounds until one changes nothing, and their number. A round that changes the tree leaves fewer
nodes or fewer variable references in it, which bounds the number of rounds. -/
def foldConstantsCounted (root : Node) : Except Failure (Node × Nat) :=
  foldRounds 0 (root.count + root.references + 1) root

def foldConstants (root : Node) : Except Failure Node := do
  return (← root.foldConstantsCounted).1

end Node
end JmmCompiler

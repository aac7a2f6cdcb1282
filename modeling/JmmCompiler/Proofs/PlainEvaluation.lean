import JmmCompiler.Proofs.Evaluation
/-! The meaning of trees as they are written. Calls go to the class that a receiver names or to the value of the receiver with
the arguments that are given, and static types decide nothing. -/
namespace JmmCompiler
namespace SymbolTable
variable (t : SymbolTable) (method : String) {W : Type} (ask : Query → Act W Value)

/-- The value of an expression, given what its parts compute. What is asked of a class or of an object is asked by the name
that the call gives, and the elements of an array literal may be of any type. -/
def plainValueOf (store : Store) (n : Node) (parts : List (Act W Value)) : Act W Value :=
  match n.kind, n.children, parts with
  | .call, receiver :: _, object :: args => do
    let name ← Act.ofExcept n.name?
    if t.isClassName method receiver then
      let className ← Act.ofExcept receiver.name
      ask (.invokeStatic className name (← Act.all args))
    else
      let object ← object
      ask (.invoke name object (← Act.all args))
  | .arrayLiteral, _, elements => arrayOf ask Ty.any.name elements
  | _, _, _ => t.valueOf method ask store n parts

mutual
/-- The value of an expression of a method. -/
def plainEval (store : Store) : Node → Act W Value
  | ⟨kind, attributes, children, position⟩ =>
    t.plainValueOf method ask store ⟨kind, attributes, children, position⟩ (plainEvalAll store children)

def plainEvalAll (store : Store) : List Node → List (Act W Value)
  | [] => []
  | e :: es => plainEval store e :: plainEvalAll store es
end

theorem plainEvalAll_eq_map (store : Store) (es : List Node) :
    t.plainEvalAll method ask store es = es.map (t.plainEval method ask store) := by
  induction es with
  | nil => rfl
  | cons e es ih => simp [plainEvalAll, ih]

theorem plainEval_eq (store : Store) (n : Node) :
    t.plainEval method ask store n =
      t.plainValueOf method ask store n (n.children.map (t.plainEval method ask store)) := by
  cases n
  rw [plainEval, plainEvalAll_eq_map]

/-- A store into an element of an array. -/
def plainStore (store : Store) (array index value : Node) : Act W Flow := do
  let array ← t.plainEval method ask store array
  let index ← t.plainEval method ask store index
  let value ← t.plainEval method ask store value
  let _ ← ask (.store array (← Act.number index) value)
  return .next store

/-- The truth of a condition. -/
def plainHolds (condition : Node) (store : Store) : Act W Bool := do
  Act.truth (← t.plainEval method ask store condition)

/-- What a statement does, given what the statements in it do. Loops go at most `rounds` rounds. -/
def plainFlowOf (rounds : Nat) (n : Node) (parts : List (Store → Act W Flow)) (store : Store) : Act W Flow :=
  match n.kind, n.children, parts with
  | .block, _, parts => Flow.sequence parts store
  | .exprStmt, e :: _, _ => do
    let _ ← t.plainEval method ask store e
    return .next store
  | .assign, [target, value], _ =>
    if target.kind = .varRef then do
      let name ← Act.ofExcept target.name
      t.assignVariable method ask store name (← t.plainEval method ask store value)
    else throw .fault
  | .arrayAssign, [array, index, value], _ => t.plainStore method ask store array index value
  | .returnStmt, [], _ => return .returned none
  | .returnStmt, value :: _, _ => do return .returned (some (← t.plainEval method ask store value))
  | .ifStmt, [condition, _, _], [_, thenPart, elsePart] => do
    if ← t.plainHolds method ask condition store then thenPart store else elsePart store
  | .ifStmt, [condition, _], [_, thenPart] => do
    if ← t.plainHolds method ask condition store then thenPart store else return .next store
  | .whileStmt, condition :: _, _ :: body :: _ => Flow.loop (t.plainHolds method ask condition) body rounds store
  | _, _, _ => throw .fault

mutual
/-- What a statement of a method does. -/
def plainExec (rounds : Nat) : Node → Store → Act W Flow
  | ⟨kind, attributes, children, position⟩ =>
    t.plainFlowOf method ask rounds ⟨kind, attributes, children, position⟩ (plainExecAll rounds children)

def plainExecAll (rounds : Nat) : List Node → List (Store → Act W Flow)
  | [] => []
  | s :: rest => plainExec rounds s :: plainExecAll rounds rest
end

theorem plainExecAll_eq_map (rounds : Nat) (ss : List Node) :
    t.plainExecAll method ask rounds ss = ss.map (t.plainExec method ask rounds) := by
  induction ss with
  | nil => rfl
  | cons s ss ih => simp [plainExecAll, ih]

theorem plainExec_eq (rounds : Nat) (n : Node) :
    t.plainExec method ask rounds n =
      t.plainFlowOf method ask rounds n (n.children.map (t.plainExec method ask rounds)) := by
  cases n
  rw [plainExec, plainExecAll_eq_map]

/-- What the body of a method does. A run that has not come to an end after the given number of rounds of a loop is exhausted,
and one that never does is so whatever that number is. -/
def plainBody (rounds : Nat) (decl : Node) : Store → Act W Flow :=
  Flow.sequence (decl.statements.map (t.plainExec method ask rounds))

end SymbolTable
end JmmCompiler

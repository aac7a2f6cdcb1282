import JmmCompiler.Assoc
import JmmCompiler.Position
import JmmCompiler.Tree.Attribute
import JmmCompiler.Diagnostic.Failure
/-! Syntax trees: nodes with a kind, named attributes and children. A tree may be read from a text or
built by hand, so a node can lack an attribute or a child that its kind calls for. -/
namespace JmmCompiler

structure Node where
  kind : Kind
  attributes : Assoc Attribute := {}
  children : List Node := []
  position : Position := {}
  deriving Inhabited

namespace Node

def attribute? (n : Node) (key : String) : Option Attribute := n.attributes.find? key

/-- A required attribute. -/
def required (n : Node) (key : String) : Except Failure Attribute :=
  match n.attribute? key with
  | some a => .ok a
  | none => .error (.missingAttribute n.kind key)

/-- A required attribute that has to be a text. -/
def text (n : Node) (key : String) : Except Failure String := do
  match ← n.required key with
  | .text s => return s
  | _ => throw .malformed

/-- A required attribute as a text. A number or a truth value is taken as it is spelled, and so is
null. -/
def word (n : Node) (key : String) : Except Failure String := do
  match ← n.required key with
  | .array _ | .object _ => throw .malformed
  | value => return value.spelling

def name (n : Node) : Except Failure String := n.word "name"

/-- The name of a node, unless that is null. -/
def name? (n : Node) : Except Failure (Option String) := do
  match ← n.required "name" with
  | .null => return none
  | _ => some <$> n.name

def op (n : Node) : Except Failure String := n.word "op"

/-- A flag is set when its attribute is present and counts as true. -/
def flag (n : Node) (key : String) : Bool := (n.attribute? key).any Json.isSet

/-- A required child. -/
def child (n : Node) (i : Nat) : Except Failure Node :=
  match n.children[i]? with
  | some c => .ok c
  | none => .error (.missingChild n.kind i)

/-- A required child, where a negative index counts from the end. -/
def childFromEnd (n : Node) (i : Int) : Except Failure Node :=
  let j := if i < 0 then i + n.children.length else i
  match if j < 0 then none else n.children[j.toNat]? with
  | some c => .ok c
  | none => .error (.missingChild n.kind i)

def childrenOf (n : Node) (kinds : List Kind) : List Node :=
  n.children.filter (kinds.contains ·.kind)

def withChildren (n : Node) (children : List Node) : Node := { n with children }

def withAttributes (n : Node) (updates : Assoc Attribute) : Node :=
  { n with attributes := n.attributes.insertAll updates }

/-- The first class declaration of a program. -/
def classDecl (root : Node) : Except Failure Node :=
  if root.kind = .classDecl then .ok root
  else match root.children.find? (·.kind = .classDecl) with
    | some c => .ok c
    | none => .error .noClass

/-! The children of a method declaration are its return type, its parameters, its local
declarations and its statements. -/

def returnType (method : Node) : Except Failure Node :=
  match method.children with
  | [] => .error .malformed
  | c :: _ => .ok c

def params (method : Node) : List Node := method.childrenOf [.param]

def locals (method : Node) : List Node := method.childrenOf [.varDecl]

def statements (method : Node) : List Node := method.children.filter (·.kind.isStatement)

/-! Attributes compare as maps: the order of the entries does not matter. -/

def sameAttributes (a b : Assoc Attribute) : Bool :=
  a.size = b.size && a.entries.all fun e => (b.find? e.1).any e.2.same

mutual
/-- Equality of trees up to positions. -/
def same : Node → Node → Bool
  | ⟨k₁, a₁, c₁, _⟩, ⟨k₂, a₂, c₂, _⟩ => k₁ = k₂ && sameAttributes a₁ a₂ && sameAll c₁ c₂

def sameAll : List Node → List Node → Bool
  | [], [] => true
  | a :: as, b :: bs => same a b && sameAll as bs
  | _, _ => false
end

mutual
/-- The number of nodes of a tree. -/
def count : Node → Nat
  | ⟨_, _, cs, _⟩ => 1 + countAll cs

def countAll : List Node → Nat
  | [] => 0
  | c :: cs => c.count + countAll cs
end

theorem count_pos (n : Node) : 0 < n.count := by
  cases n
  rw [count]
  omega

@[simp] theorem countAll_append (cs ds : List Node) :
    countAll (cs ++ ds) = countAll cs + countAll ds := by
  induction cs <;> simp_all [countAll]; omega

theorem count_eq (n : Node) : n.count = 1 + countAll n.children := by cases n; rfl

end Node
end JmmCompiler

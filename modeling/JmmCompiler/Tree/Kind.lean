/-! The closed set of node kinds of a Jmm syntax tree. -/
namespace JmmCompiler

inductive Kind
  | program | importDecl | classDecl | varDecl | methodDecl | param | typeRef
  | block | exprStmt | ifStmt | whileStmt | assign | arrayAssign | returnStmt
  | binary | unary | paren | varRef | intLiteral | boolLiteral | thisRef
  | newObject | newArray | arrayLiteral | arrayAccess | length | call
  deriving DecidableEq, Inhabited

namespace Kind

def all : List Kind :=
  [program, importDecl, classDecl, varDecl, methodDecl, param, typeRef,
   block, exprStmt, ifStmt, whileStmt, assign, arrayAssign, returnStmt,
   binary, unary, paren, varRef, intLiteral, boolLiteral, thisRef,
   newObject, newArray, arrayLiteral, arrayAccess, length, call]

/-- The name under which a kind is written in a serialized tree and in messages. -/
def name : Kind → String
  | program => "Program"
  | importDecl => "ImportDecl"
  | classDecl => "ClassDecl"
  | varDecl => "VarDecl"
  | methodDecl => "MethodDecl"
  | param => "Param"
  | typeRef => "Type"
  | block => "BlockStmt"
  | exprStmt => "ExprStmt"
  | ifStmt => "IfStmt"
  | whileStmt => "WhileStmt"
  | assign => "AssignStmt"
  | arrayAssign => "ArrayAssignStmt"
  | returnStmt => "ReturnStmt"
  | binary => "BinaryExpr"
  | unary => "UnaryExpr"
  | paren => "ParenExpr"
  | varRef => "VarRefExpr"
  | intLiteral => "IntegerLiteral"
  | boolLiteral => "BooleanLiteral"
  | thisRef => "ThisExpr"
  | newObject => "NewExpr"
  | newArray => "NewArrayExpr"
  | arrayLiteral => "ArrayExpr"
  | arrayAccess => "ArrayAccessExpr"
  | length => "LengthExpr"
  | call => "FuncExpr"

def ofName? (s : String) : Option Kind := all.find? (·.name = s)

def isStatement : Kind → Bool
  | block | exprStmt | ifStmt | whileStmt | assign | arrayAssign | returnStmt => true
  | _ => false

def isExpression : Kind → Bool
  | binary | unary | paren | varRef | intLiteral | boolLiteral | thisRef
  | newObject | newArray | arrayLiteral | arrayAccess | length | call => true
  | _ => false

theorem mem_all (k : Kind) : k ∈ all := by cases k <;> decide

theorem ofName?_name (k : Kind) : ofName? k.name = some k := by cases k <;> decide

end Kind
end JmmCompiler

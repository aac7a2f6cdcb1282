import JmmCompiler.Json
import JmmCompiler.Text.Integer
import JmmCompiler.Text.Quoted
/-! Attribute values of tree nodes. They are JSON values: texts and truth values in a tree that was
read, and anything in a tree that was built by hand. -/
namespace JmmCompiler

abbrev Attribute := Json

namespace Json

/-- Whether a value counts as true where a flag is asked for: zero and what is empty do not. -/
def isSet : Json → Bool
  | null => false
  | bool b => b
  | int n => n ≠ 0
  | text s => s ≠ ""
  | array items => !items.isEmpty
  | object fields => !fields.isEmpty

/-- The number a value stands for: truth values are 0 and 1, and a text may spell an integer. -/
def toInt? : Json → Option Int
  | bool b => some (if b then 1 else 0)
  | int n => some n
  | text s => Text.integer? s
  | null | array _ | object _ => none

/-! ## Equality

A truth value equals the number it stands for, and the order of the fields of an object does not
matter. -/

mutual
def same : Json → Json → Bool
  | null, null => true
  | bool a, bool b => a = b
  | bool a, int n => (if a then 1 else 0) = n
  | int n, bool b => n = (if b then 1 else 0)
  | int m, int n => m = n
  | text s, text t => s = t
  | array as, array bs => sameItems as bs
  | object as, object bs => as.length = bs.length && sameFields as bs
  | _, _ => false

def sameItems : List Json → List Json → Bool
  | [], [] => true
  | a :: as, b :: bs => same a b && sameItems as bs
  | _, _ => false

/-- Every field of the first list is in the second. -/
def sameFields : List (String × Json) → List (String × Json) → Bool
  | [], _ => true
  | (key, a) :: as, bs =>
    (match bs.lookup key with
      | some b => same a b
      | none => false) && sameFields as bs
end

/-! ## Spelling

How a value is spelled in a message. A text stands for itself, and in quotes inside a list or a
record. -/

mutual
def nested : Json → String
  | null => "None"
  | bool b => if b then "True" else "False"
  | int n => toString n
  | text s => Text.quoted s
  | array items => "[" ++ String.intercalate ", " (nestedItems items) ++ "]"
  | object fields => "\x7b" ++ String.intercalate ", " (nestedFields fields) ++ "\x7d"

def nestedItems : List Json → List String
  | [] => []
  | item :: items => item.nested :: nestedItems items

def nestedFields : List (String × Json) → List String
  | [] => []
  | (key, value) :: fields => (Text.quoted key ++ ": " ++ value.nested) :: nestedFields fields
end

def spelling : Json → String
  | text s => s
  | value => value.nested

end Json
end JmmCompiler

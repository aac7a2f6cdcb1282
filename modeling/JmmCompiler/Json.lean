import JmmCompiler.Text.Hex
/-! JSON values and their text. -/
namespace JmmCompiler

inductive Json
  | null
  | bool (b : Bool)
  | int (n : Int)
  | text (s : String)
  | array (items : List Json)
  | object (fields : List (String × Json))
  deriving Inhabited

namespace Json

/-- A UTF-16 unit as an escape of four hexadecimal digits. -/
def unitEscape (n : Nat) : String := "\\u" ++ String.ofList (Text.hex 4 n)

/-- Printable ASCII stands for itself. Other characters are escaped, those beyond the first plane as
a surrogate pair. -/
def escape (c : Char) : String :=
  let n := c.toNat
  if c = '"' then "\\\""
  else if c = '\\' then "\\\\"
  else if 0x20 ≤ n ∧ n < 0x7f then c.toString
  else if c = '\n' then "\\n"
  else if c = '\r' then "\\r"
  else if c = '\t' then "\\t"
  else if n = 8 then "\\b"
  else if n = 12 then "\\f"
  else if n < 0x10000 then unitEscape n
  else unitEscape (0xd800 + (n - 0x10000) / 0x400) ++ unitEscape (0xdc00 + (n - 0x10000) % 0x400)

def quote (s : String) : String := "\"" ++ String.join (s.toList.map escape) ++ "\""

/-- How the items of arrays and objects are set: `none` puts all on one line, `some n` puts each item
on a line of its own, indented by `n` spaces a level. -/
abbrev Layout := Option Nat

def lineBreak : Layout → Nat → String
  | none, _ => ""
  | some n, level => "\n" ++ String.ofList (List.replicate (n * level) ' ')

def separator (layout : Layout) (level : Nat) : String :=
  if layout.isSome then "," ++ lineBreak layout level else ", "

/-- Joins the texts of items between brackets; no items take no lines. -/
def bracket (layout : Layout) (level : Nat) (opening closing : String) (items : List String) :
    String :=
  if items.isEmpty then opening ++ closing
  else opening ++ lineBreak layout (level + 1) ++
    String.intercalate (separator layout (level + 1)) items ++ lineBreak layout level ++ closing

mutual
def render (layout : Layout) (level : Nat) : Json → String
  | null => "null"
  | bool b => if b then "true" else "false"
  | int n => toString n
  | text s => quote s
  | array items => bracket layout level "[" "]" (renderItems layout (level + 1) items)
  | object fields =>
    bracket layout level "\x7b" "\x7d" (renderFields layout (level + 1) fields)

def renderItems (layout : Layout) (level : Nat) : List Json → List String
  | [] => []
  | j :: js => render layout level j :: renderItems layout level js

def renderFields (layout : Layout) (level : Nat) : List (String × Json) → List String
  | [] => []
  | (key, j) :: fs => (quote key ++ ": " ++ render layout level j) :: renderFields layout level fs
end

end Json
end JmmCompiler

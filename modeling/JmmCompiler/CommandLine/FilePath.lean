/-! File paths with slashes. -/
namespace JmmCompiler.FilePath

/-- The parts of a path between slashes, the empty ones and those that stay in place left out. -/
def parts (path : String) : List String :=
  (path.splitOn "/").filter fun part => part ≠ "" && part ≠ "."

/-- A name that no file can have for its length in bytes. -/
def isTooLong (name : String) : Bool := 255 < name.utf8ByteSize

/-- The slashes at the front of a path. Two of them stay two, more than two count as one. -/
def root (path : String) : String :=
  match (path.toList.takeWhile (· = '/')).length with
  | 0 => ""
  | 2 => "//"
  | _ => "/"

/-- The shortest spelling of a path that resolves no links. -/
def normalize (path : String) : String :=
  let text := root path ++ String.intercalate "/" (parts path)
  if text = "" then "." else text

/-- The path of a file in a directory. -/
def join (directory file : String) : String :=
  if directory = "" then normalize file else normalize (directory ++ "/" ++ file)

/-- All directories on the way to a path, and the path. -/
def ancestors (path : String) : List String :=
  (List.range ((parts path).length + 1)).map fun n =>
    normalize (root path ++ String.intercalate "/" ((parts path).take n))

end JmmCompiler.FilePath

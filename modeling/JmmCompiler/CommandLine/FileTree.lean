import JmmCompiler.Assoc
import JmmCompiler.CommandLine.FilePath
/-! The files below the working directory, and where paths lead. What lies outside is not known: nothing
is found there, and everything can be made. -/
namespace JmmCompiler

/-- A directory at or below the working directory, given by the names on the way to it, or one
outside. -/
inductive Place
  | within (names : List String)
  | outside
  deriving DecidableEq, Inhabited

def Place.up : Place → Place
  | within [] | outside => outside
  | within names => within names.dropLast

/-- Where a path starts. -/
def Place.start (path : String) : Place :=
  if FilePath.root path = "" then .within [] else .outside

/-- What is found at a path. What cannot be read is a directory or has a name that is too long. -/
inductive Found
  | missing | unreadable | text (s : String)
  deriving DecidableEq, Inhabited

/-- Files with their texts, by path. -/
structure FileTree where
  files : Assoc String := {}
  deriving DecidableEq, Inhabited

namespace FileTree
variable (t : FileTree)

def file? (names : List String) : Option String :=
  (t.files.entries.find? fun f => FilePath.parts f.1 = names).map (·.2)

def isDirectory (names : List String) : Bool :=
  names.isEmpty || t.files.keys.any fun f =>
    names.isPrefixOf (FilePath.parts f) && names ≠ FilePath.parts f

/-- What is found by going from name to name. -/
def follow (p : Place) : List String → Found
  | [] => .unreadable
  | ".." :: rest => follow p.up rest
  | name :: rest =>
    if FilePath.isTooLong name then .unreadable
    else match p with
      | .outside => .missing
      | .within names =>
        let names := names ++ [name]
        match t.file? names with
        | some s => if rest.isEmpty then .text s else .missing
        | none => if t.isDirectory names then follow (.within names) rest else .missing

/-- What is found at a path. A file that is listed under the path itself is found at once. -/
def find (path : String) : Found :=
  match t.files.entries.find? fun f => FilePath.normalize f.1 = FilePath.normalize path with
  | some f => .text f.2
  | none => t.follow (Place.start path) (FilePath.parts path)

/-- The directories passed by going from name to name, the last one at the end. Those that are missing
are made, unless a file is in the way or a name is impossible. -/
def passed (p : Place) : List String → Option (List Place)
  | [] => some [p]
  | ".." :: rest => (passed p.up rest).map (p :: ·)
  | name :: rest =>
    if FilePath.isTooLong name || name.contains '\x00' then none
    else match p with
      | .outside => (passed .outside rest).map (p :: ·)
      | .within names =>
        let names := names ++ [name]
        if (t.file? names).isSome then none else (passed (.within names) rest).map (p :: ·)

/-- Where a path ends after its directory is made: the directory, and the last name of the path. A file
cannot be put where a directory stands. -/
def landing? (path : String) : Option (Place × String) := do
  let names := FilePath.parts path
  let name ← names.getLast?
  let way ← t.passed (Place.start path) names.dropLast
  let last ← way.getLast?
  if FilePath.isTooLong name then none
  match last with
  | .outside => return (last, name)
  | .within names =>
    let own := names ++ [name]
    if t.isDirectory own || way.contains (.within own) then none else return (last, name)

/-- The path of a file that is put at `path`, if none is there yet. What is put outside is not seen. -/
def newFile? (path : String) : Option String :=
  match t.landing? path with
  | some (.within names, name) =>
    let own := names ++ [name]
    if (t.file? own).isSome then none else some (String.intercalate "/" own)
  | _ => none

end FileTree
end JmmCompiler

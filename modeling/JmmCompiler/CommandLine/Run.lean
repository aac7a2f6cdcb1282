import JmmCompiler.CommandLine.FileTree
import JmmCompiler.CommandLine.Help
import JmmCompiler.CommandLine.Request
import JmmCompiler.Pipeline
import JmmCompiler.Source.Reader
import JmmCompiler.Tree.Serialize
/-! Carrying out a command line on the files that are there. -/
namespace JmmCompiler.CommandLine

/-- What a run leaves: an exit code, the two output streams and the files that it writes. -/
structure Outcome where
  exit : Nat := 0
  stdout : String := ""
  stderr : String := ""
  written : List (String × String) := []
  deriving DecidableEq, Inhabited

/-- A run ends with an outcome, with a word on how to use the command, or with a failure that is no
fault of the program compiled. -/
inductive Ending
  | done (outcome : Outcome)
  | usage
  | crash
  deriving DecidableEq, Inhabited

/-- A text with line feeds for all ends of lines. -/
def unifyLines : List Char → List Char
  | '\r' :: '\n' :: cs => '\n' :: unifyLines cs
  | '\r' :: cs => '\n' :: unifyLines cs
  | c :: cs => c :: unifyLines cs
  | [] => []

def stop (message : String) : Ending := .done { exit := 1, stderr := message ++ "\n" }

def unlines (lines : List String) : String := String.join (lines.map (· ++ "\n"))

/-- Compiles a source text and goes on with the result if there is one. -/
def compileSource (verbose : Bool) (file source : String) (optimize : Bool) (registers : Option Int)
    (next : (stderr : String) → CodeProgram → (assembly : String) → Ending) : Ending :=
  match registers.map (Config.make optimize) with
  | none => .crash
  | some (.error e) => stop ("Error: " ++ e.message)
  | some (.ok config) =>
    let refuse (message : String) := "Error compiling " ++ file ++ ": " ++ message
    match Node.parse source with
    | .error e => stop (refuse e.message)
    | .ok root =>
      let (result, events) := (Compile.compile config root).events
      let log := if verbose then unlines (events.map Event.text) else ""
      match result with
      | .error .malformed => .crash
      | .error e => .done { exit := 1, stderr := log ++ refuse e.message ++ "\n" }
      | .ok c =>
        let stderr := log ++ unlines (c.reports.map Report.text)
        let errors := (c.reports.filter Report.isError).length
        match c.succeeded, c.code, c.assembly with
        | true, some code, some assembly => next stderr code assembly
        | _, _, _ =>
          .done { exit := 1, stderr := stderr ++ refuse (toString errors ++ " error(s)") ++ "\n" }

def runCommand (verbose : Bool) (t : FileTree) (command : Command) : Ending :=
  match t.find command.file with
  | .missing => stop ("Error: File not found: " ++ command.file)
  | .unreadable => .crash
  | .text text =>
    let source := String.ofList (unifyLines text.toList)
    match command with
    | .parse file =>
      match Node.parse source with
      | .error e => stop ("Error parsing " ++ file ++ ": " ++ e.message)
      | .ok root => .done { stdout := root.toJson.render (some 2) 0 ++ "\n" }
    | .code file optimize registers =>
      compileSource verbose file source optimize registers fun stderr code _ =>
        match code.text with
        | .error _ => .crash
        | .ok text => .done { stdout := text, stderr }
    | .compile file optimize registers outputDir quiet =>
      compileSource verbose file source optimize registers fun stderr code assembly =>
        let target := FilePath.join outputDir (code.className ++ ".j")
        if (t.landing? target).isNone then .crash
        else
          .done
            { stdout := if quiet then "" else "Wrote " ++ target ++ "\n"
              stderr
              written := [(target, assembly)] }

/-- Carries out a command line on the files that are there. -/
def run (t : FileTree) (arguments : List String) : Ending :=
  match read arguments with
  | .error .usage => .usage
  | .error (.help topic) => .done { stdout := help topic }
  | .ok request =>
    match request.command with
    | none => .done { exit := 1, stdout := help .general }
    | some command => runCommand request.verbose t command

end JmmCompiler.CommandLine

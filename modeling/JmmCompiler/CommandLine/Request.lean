import JmmCompiler.CommandLine.Options
/-! What a command line asks for. -/
namespace JmmCompiler.CommandLine

/-- A command with its file. A register budget can be missing, and no compilation starts with that. -/
inductive Command
  | parse (file : String)
  | code (file : String) (optimize : Bool) (registers : Option Int)
  | compile (file : String) (optimize : Bool) (registers : Option Int) (outputDir : String)
      (quiet : Bool)
  deriving DecidableEq, Inhabited

structure Request where
  verbose : Bool := false
  command : Option Command := none
  deriving DecidableEq, Inhabited

def Command.file : Command → String
  | parse file | code file .. | compile file .. => file

def helpOption : OptionSpec := ⟨.help, 'h', "help", false⟩

def generalOptions : List OptionSpec := [helpOption, ⟨.verbose, 'v', "verbose", false⟩]

def codeOptions : List OptionSpec :=
  [helpOption, ⟨.optimize, 'o', "optimize", false⟩, ⟨.registers, 'r', "registers", true⟩]

def compileOptions : List OptionSpec :=
  codeOptions ++ [⟨.outputDir, 'd', "output-dir", true⟩, ⟨.quiet, 'q', "quiet", false⟩]

namespace Setting

/-- The register budget after one more setting. -/
def registersAfter (budget : Option Int) : Setting → Option Int
  | registers n => n
  | _ => budget

def outputDirAfter (path : Option String) : Setting → Option String
  | outputDir p => p
  | _ => path

end Setting

namespace Words

def has (w : Words) (s : Setting) : Bool := w.settings.contains s

/-- The register budget. The last one on a line counts. -/
def registers (w : Words) : Option Int := w.settings.foldl Setting.registersAfter (some (-1))

/-- The output directory. The last one on a line counts. -/
def outputDir (w : Words) : Option String := w.settings.foldl Setting.outputDirAfter none

end Words

/-- Reads the words of a command, which needs a file. -/
def readFileWords (topic : Topic) (specs : List OptionSpec) (words : List String) :
    Except Refusal (Words × String) := do
  if anyAmbiguous specs words then throw .usage
  let w ← readWords topic specs false words
  match w.operand with
  | some file => return (w, file)
  | none => throw .usage

def readCommand (name : String) (words : List String) : Except Refusal Command := do
  match name with
  | "parse" =>
    let (_, file) ← readFileWords .parse [helpOption] words
    return .parse file
  | "ir" =>
    let (w, file) ← readFileWords .code codeOptions words
    return .code file (w.has .optimize) w.registers
  | "compile" =>
    let (w, file) ← readFileWords .compile compileOptions words
    return .compile file (w.has .optimize) w.registers (w.outputDir.getD "") (w.has .quiet)
  | _ => throw .usage

/-- General options, then a command with all words after it. -/
def readGeneral : List String → Except Refusal Request
  | [] => return {}
  | word :: rest =>
    if word = "--" then throw .usage
    else match classify generalOptions word with
      | .operand => do return { command := some (← readCommand word rest) }
      | .option s isShort attached =>
        match expand generalOptions s isShort attached with
        | none => throw .usage
        | some given => do
          let settings ← given.options.mapM (setting .general)
          let request ← readGeneral rest
          return { request with verbose := request.verbose || settings.contains .verbose }
      | .ambiguous | .unknown => do
        let _ ← readGeneral rest
        throw .usage

/-- Reads a command line. -/
def read (words : List String) : Except Refusal Request :=
  if anyAmbiguous generalOptions words then throw .usage else readGeneral words

end JmmCompiler.CommandLine

import JmmCompiler.CommandLine.Run
/-! The command line program. -/
open JmmCompiler

/-- The one file that a command line names, if it is there. -/
def namedFile (arguments : List String) : IO FileTree := do
  match CommandLine.read arguments with
  | .ok { command := some command, .. } =>
    let path : String := command.file
    try
      return ⟨⟨[(path, ← IO.FS.readFile path)]⟩⟩
    catch e =>
      match e with
      | .noFileOrDirectory .. => return {}
      | _ => throw e
  | _ => return {}

def main (arguments : List String) : IO UInt32 := do
  match CommandLine.run (← namedFile arguments) arguments with
  | .usage =>
    (← IO.getStderr).putStrLn ((CommandLine.helpLines .general).headD "")
    return 2
  | .crash =>
    (← IO.getStderr).putStrLn Failure.malformed.message
    return 1
  | .done outcome =>
    (← IO.getStdout).putStr outcome.stdout
    (← IO.getStderr).putStr outcome.stderr
    for (path, text) in outcome.written do
      match (FilePath.ancestors path).dropLast.getLast? with
      | some directory => IO.FS.createDirAll directory
      | none => pure ()
      IO.FS.writeFile path text
    return outcome.exit.toUInt32

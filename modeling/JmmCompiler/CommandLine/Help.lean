import JmmCompiler.CommandLine.Options
/-! The help texts. -/
namespace JmmCompiler.CommandLine

/-- The lines that all commands with a register budget share. -/
def budgetHelp : List String :=
  ["",
   "positional arguments:",
   "  file                  Jmm source file",
   "",
   "options:",
   "  -h, --help            show this help message and exit",
   "  -o, --optimize        Enable constant propagation and folding",
   "  -r N, --registers N   Allocate registers using at most N local slots per",
   "                        method (default: -1, no allocation)"]

def helpLines : Topic → List String
  | .general =>
    ["usage: pyjmm [-h] [-v] \x7bparse,ir,compile\x7d ...",
     "",
     "Compile Jmm source files to Jasmin assembly",
     "",
     "positional arguments:",
     "  \x7bparse,ir,compile\x7d  Available commands",
     "    parse             Parse a Jmm file and output the AST as JSON",
     "    ir                Compile a Jmm file and print the intermediate",
     "                      representation",
     "    compile           Compile a Jmm file to a Jasmin .j file",
     "",
     "options:",
     "  -h, --help          show this help message and exit",
     "  -v, --verbose       Log pipeline stages to stderr"]
  | .parse =>
    ["usage: pyjmm parse [-h] file",
     "",
     "positional arguments:",
     "  file        Jmm source file",
     "",
     "options:",
     "  -h, --help  show this help message and exit"]
  | .code => "usage: pyjmm ir [-h] [-o] [-r N] file" :: budgetHelp
  | .compile =>
    "usage: pyjmm compile [-h] [-o] [-r N] [-d OUTPUT_DIR] [-q] file" :: budgetHelp ++
    ["  -d OUTPUT_DIR, --output-dir OUTPUT_DIR",
     "                        Output directory for the .j file (default: current",
     "                        directory)",
     "  -q, --quiet           Suppress summary output"]

def help (topic : Topic) : String := String.join ((helpLines topic).map (· ++ "\n"))

end JmmCompiler.CommandLine

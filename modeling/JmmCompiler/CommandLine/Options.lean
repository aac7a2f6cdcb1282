import JmmCompiler.Text.Integer
/-! Command lines: options, their values and what else stands on the line. -/
namespace JmmCompiler.CommandLine

inductive OptionKey
  | help | verbose | optimize | registers | outputDir | quiet
  deriving DecidableEq, Inhabited

/-- An option with its one-letter and its long name. -/
structure OptionSpec where
  key : OptionKey
  short : Char
  long : String
  takesValue : Bool := false
  deriving DecidableEq, Inhabited

/-- What help can be asked about. -/
inductive Topic
  | general | parse | code | compile
  deriving DecidableEq, Inhabited

/-- Why a command line is not carried out: it asks for help, or it breaks the rules. -/
inductive Refusal
  | help (topic : Topic)
  | usage
  deriving DecidableEq, Inhabited

/-! ## Single words -/

/-- What a word is taken for. -/
inductive Word
  | operand
  /-- An option under its short or long name, and the characters that the word attaches to it. -/
  | option (spec : OptionSpec) (isShort : Bool) (attached : Option (List Char))
  /-- The beginning of the long names of several options. -/
  | ambiguous
  /-- A word that looks like an option and is none. -/
  | unknown
  deriving DecidableEq, Inhabited

/-- The option whose name is spelled out. -/
def spelledOut (specs : List OptionSpec) : List Char → Option (OptionSpec × Bool)
  | '-' :: '-' :: long => (specs.find? (·.long.toList = long)).map (·, false)
  | ['-', short] => (specs.find? (·.short = short)).map (·, true)
  | _ => none

/-- The characters before the first equals sign, and those after it if there is one. -/
def splitValue (cs : List Char) : List Char × Option (List Char) :=
  (cs.takeWhile (· ≠ '='), (cs.dropWhile (· ≠ '=')).tail?)

/-- The options that a word may stand for: those whose long name begins like the word, or the one
whose letter comes first in it. -/
def abbreviated (specs : List OptionSpec) : List Char → List Word
  | '-' :: '-' :: cs =>
    let (name, value) := splitValue cs
    (specs.filter (name.isPrefixOf ·.long.toList)).map fun s => .option s false value
  | '-' :: c :: cs => (specs.filter (·.short = c)).map fun s => .option s true (some cs)
  | _ => []

/-- A negative number, with or without a fraction; a line feed may follow. -/
def isNegativeNumber (cs : List Char) : Bool :=
  let isDigit (c : Char) : Bool := (Text.digit? c).isSome
  match if cs.getLast? = some '\n' then cs.dropLast else cs with
  | '-' :: cs =>
    match cs.dropWhile isDigit with
    | [] => !cs.isEmpty
    | '.' :: fraction => !fraction.isEmpty && fraction.all isDigit
    | _ => false
  | _ => false

/-- What a word is. A name that is spelled out goes before an abbreviation. A negative number and a
word with a space in it are operands unless they name an option. -/
def classify (specs : List OptionSpec) (word : String) : Word :=
  let cs := word.toList
  if cs.head? ≠ some '-' ∨ cs = ['-'] then .operand
  else match spelledOut specs cs with
    | some (s, isShort) => .option s isShort none
    | none =>
      let (name, value) := splitValue cs
      match value.bind fun v => (spelledOut specs name).map (·, v) with
      | some ((s, isShort), v) => .option s isShort (some v)
      | none =>
        match abbreviated specs cs with
        | [w] => w
        | _ :: _ => .ambiguous
        | [] => if isNegativeNumber cs || cs.contains ' ' then .operand else .unknown

/-- Whether a word before `--` is ambiguous. Such a line is refused whatever else stands on it. -/
def anyAmbiguous (specs : List OptionSpec) (words : List String) : Bool :=
  (words.takeWhile (· ≠ "--")).any (classify specs · = .ambiguous)

/-! ## The options of a word -/

/-- Options with their values. The value of `wanting` is the next word. -/
structure Given where
  options : List (OptionKey × String) := []
  wanting : Option OptionKey := none
  deriving DecidableEq, Inhabited

/-- One-letter options in one word. One that takes a value takes the letters after it. -/
def cluster (specs : List OptionSpec) : List Char → Option Given
  | [] => some {}
  | c :: cs => do
    let s ← specs.find? (·.short = c)
    if s.takesValue then
      return if cs.isEmpty then { wanting := s.key } else { options := [(s.key, String.ofList cs)] }
    else
      let given ← cluster specs cs
      return { given with options := (s.key, "") :: given.options }

/-- The options of a word. What is attached to a letter that takes no value are letters again. -/
def expand (specs : List OptionSpec) (s : OptionSpec) (isShort : Bool) :
    Option (List Char) → Option Given
  | none => if s.takesValue then some { wanting := s.key } else some { options := [(s.key, "")] }
  | some value =>
    if s.takesValue then some { options := [(s.key, String.ofList value)] }
    else if isShort && !value.isEmpty then
      (cluster specs value).map fun given => { given with options := (s.key, "") :: given.options }
    else none

/-! ## Lines -/

/-- What an option sets. -/
inductive Setting
  | verbose | optimize | quiet
  | registers (budget : Option Int)
  | outputDir (path : Option String)
  deriving DecidableEq, Inhabited

/-- The value of an option. `--` in its place leaves the option without one. -/
def optionValue (value : String) : Option String := if value = "--" then none else some value

/-- What an option sets, unless it asks for help or wants a number and gets none. -/
def setting (topic : Topic) : OptionKey × String → Except Refusal Setting
  | (.help, _) => throw (.help topic)
  | (.verbose, _) => return .verbose
  | (.optimize, _) => return .optimize
  | (.quiet, _) => return .quiet
  | (.outputDir, value) => return .outputDir (optionValue value)
  | (.registers, value) =>
    match optionValue value with
    | none => return .registers none
    | some value =>
      match Text.integer? value with
      | some n => return .registers (some n)
      | none => throw .usage

/-- The settings of a command line in their order, and its operand. -/
structure Words where
  settings : List Setting := []
  operand : Option String := none
  deriving DecidableEq, Inhabited

/-- Reads the words of a line from the left. Only one operand may stand on it, `taken` says whether it
came already. After `--` every word is an operand. A word too many or unknown is refused at the end of
the line, so that a call for help after it is heard. -/
def readWords (topic : Topic) (specs : List OptionSpec) (taken : Bool) :
    List String → Except Refusal Words
  | [] => return {}
  | word :: rest =>
    if word = "--" then
      match taken, rest with
      | false, [operand] => return { operand := some operand }
      | _, _ => throw .usage
    else match classify specs word with
      | .operand => do
        if !taken && rest = ["--"] then return { operand := some word }
        let w ← readWords topic specs true rest
        if taken then throw .usage
        return { w with operand := some word }
      | .option s isShort attached =>
        match expand specs s isShort attached, rest with
        | none, _ => throw .usage
        | some { options, wanting := none }, rest => do
          let settings ← options.mapM (setting topic)
          let w ← readWords topic specs taken rest
          return { w with settings := settings ++ w.settings }
        | some { wanting := some _, .. }, [] => throw .usage
        | some { options, wanting := some key }, value :: rest => do
          if value = "--" || classify specs value ≠ .operand then throw .usage
          let settings ← (options ++ [(key, value)]).mapM (setting topic)
          let w ← readWords topic specs taken rest
          return { w with settings := settings ++ w.settings }
      | .ambiguous | .unknown => do
        let _ ← readWords topic specs taken rest
        throw .usage

end JmmCompiler.CommandLine

import SlotScript.CommandLine.Arguments
import SlotScript.CommandLine.Verbosity
import SlotScript.Config.File
import SlotScript.Vocabulary.Console

/-!
# The command line

What the program does with its arguments and the files it finds: the exit code and what it writes to
standard output and standard error. The configuration is loaded and its places are reserved before
the script is read. Lines that a script printed before it failed stay printed.
-/

namespace SlotScript.CommandLine

def programName : String := "bruter"

def languageName : String := "Bruter"

def version : String := "0.7.5"

/-- How a run of the program ends. -/
structure Report where
  code : Option UInt8 := some 0
  out : String := ""
  err : String := ""
  deriving DecidableEq, Repr

/-- The line on standard error for a failure: a red and bold tag, then the causes from the outermost
to the innermost. -/
def errorLine (causes : List String) : String :=
  "\x1b[1m\x1b[31merror:\x1b[39m\x1b[0m " ++ ": ".intercalate causes ++ "\n"

def failure (out : String) (causes : List String) : Report :=
  { code := some 1, out, err := errorLine causes }

def linesText (lines : List String) : String :=
  String.join (lines.map (· ++ "\n"))

/-- The causes of a configuration error. An error of the files is told with its own wording and as
the cause of that. -/
def configCauses : ConfigError → List String
  | .io cause => [(ConfigError.io cause).message, cause.message]
  | .malformed => [ConfigError.malformed.message]

/-- Evaluates a script; `purpose` says what for when it fails. -/
def runScript (config : Config) (source purpose : String) : Report :=
  match (Console.machine config).evalToText Console.library source with
  | (.error e, m) => failure (linesText m.lines.reverse) [purpose, e.message]
  | (.ok none, m) => { out := linesText m.lines.reverse }
  | (.ok (some text), m) => { out := linesText (m.lines.reverse ++ [text]) }

/-- Goes on when the places that a configuration asks for are there. -/
def withPlaces (places : Nat) (go : Unit → Report) : Report :=
  match reserve places with
  | .made => go ()
  | .exhausted =>
    { code := none, err := s!"memory allocation of {places * placeBytes} bytes failed\n" }
  | .overflow => { code := some 101, err := "capacity overflow\n" }

def execute (files : Files) (i : Invocation) : Report :=
  let path := i.config.getD Config.defaultPath
  let withConfig (go : Config → Report) : Report :=
    match Config.load files path with
    | .ok config => withPlaces config.initialCapacity fun _ => go config
    | .error e => failure "" (s!"Failed to load config: {path}" :: configCauses e)
  match i.command with
  | .version => { out := linesText [languageName ++ " " ++ version] }
  | .eval code => withConfig fun config => runScript config code "Failed to evaluate code"
  | .run file => withConfig fun config =>
    match files.readText file with
    | .ok source => runScript config source s!"Failed to run: {file}"
    | .error e =>
      failure "" [s!"Failed to run: {file}", s!"Failed to read file: {file}", e.message]

def usageReport : Report :=
  { code := some 2
    err := s!"usage: {programName} [-v] [-c FILE] (run FILE | eval CODE | version)\n" }

def report (files : Files) (args : List String) : Report :=
  match read args with
  | .invoke i => execute files i
  | .showVersion => { out := linesText [programName ++ " " ++ version] }
  | .refuse => usageReport

/-- The paths of the files that the program looks at, given its arguments. -/
def paths (args : List String) : List String :=
  match read args with
  | .invoke i =>
    let config := i.config.getD Config.defaultPath
    match i.command with
    | .run file => [config, file]
    | .eval _ => [config]
    | .version => []
  | _ => []

end SlotScript.CommandLine

/-!
# Arguments of the command line

The command line has one command, `run FILE`, `eval CODE` or `version`, and options that may stand
before and after it. Arguments are read from left to right. An argument that starts with a hyphen, a
lone hyphen apart, is an option or a group of short ones; after `--` it is not. Asking for the
version takes effect at once, before anything that stands behind it is looked at.
-/

namespace SlotScript.CommandLine

/-- What is to be done. -/
inductive Command where
  | run (file : String)
  | eval (code : String)
  | version
  deriving DecidableEq, Repr

/-- A command with its options. -/
structure Invocation where
  command : Command
  verbosity : Nat
  config : Option String
  deriving DecidableEq, Repr

/-- What arguments ask for. -/
inductive Intent where
  | invoke (i : Invocation)
  | showVersion
  | refuse
  deriving DecidableEq, Repr

/-- Which command has been named. -/
inductive Verb where
  | run | eval | version
  deriving DecidableEq, Repr

def Verb.ofName? (name : String) : Option Verb :=
  if name = "run" then some .run
  else if name = "eval" then some .eval
  else if name = "version" then some .version
  else none

/-- What has been read of the arguments. -/
structure State where
  verb : Option Verb := none
  operand : Option String := none
  verbosity : Nat := 0
  outerConfig : Option String := none
  innerConfig : Option String := none
  literal : Bool := false

namespace State

/-- Names the configuration file, which is done once before and once after the command. -/
def setConfig (st : State) (path : String) : Option State :=
  if path.isEmpty then none
  else
    match st.verb with
    | none => if st.outerConfig.isSome then none else some { st with outerConfig := some path }
    | some _ => if st.innerConfig.isSome then none else some { st with innerConfig := some path }

/-- Takes an argument that is no option: the name of the command, or what the command works on. -/
def positional (st : State) (arg : String) : Option State :=
  match st.verb with
  | none => if st.literal then none else (Verb.ofName? arg).map fun verb =>
      { st with verb := some verb }
  | some verb =>
    if st.operand.isSome || verb = .version || (verb = .run && arg.isEmpty) then none
    else some { st with operand := some arg }

def finish (st : State) : Intent :=
  let command := match st.verb, st.operand with
    | some .run, some file => some (Command.run file)
    | some .eval, some code => some (Command.eval code)
    | some .version, none => some Command.version
    | _, _ => none
  match command with
  | some command =>
    .invoke { command, verbosity := st.verbosity, config := st.innerConfig.or st.outerConfig }
  | none => .refuse

end State

/-- What an option does. -/
inductive Effect where
  | next (st : State)
  | needsConfig (st : State)
  | showVersion
  | refuse

/-- An option that is complete unless it could not be taken. -/
def Effect.ofOption : Option State → Effect
  | some st => .next st
  | none => .refuse

/-- Takes a long option, written without its hyphens. -/
def longOption (st : State) (option : List Char) : Effect :=
  let name := String.ofList (option.takeWhile (· ≠ '='))
  match name, option.dropWhile (· ≠ '=') with
  | "verbose", [] => .next { st with verbosity := st.verbosity + 1 }
  | "config", [] => .needsConfig st
  | "config", _ :: path => .ofOption (st.setConfig (.ofList path))
  | "version", [] => if st.verb.isNone then .showVersion else .refuse
  | _, _ => .refuse

/-- Takes short options that are written together. The rest of the group after `c` is the
configuration file. -/
def shortOptions (st : State) : List Char → Effect
  | [] => .next st
  | 'v' :: rest => shortOptions { st with verbosity := st.verbosity + 1 } rest
  | 'V' :: _ => if st.verb.isNone then .showVersion else .refuse
  | ['c'] => .needsConfig st
  | 'c' :: '=' :: path => .ofOption (st.setConfig (.ofList path))
  | 'c' :: path => .ofOption (st.setConfig (.ofList path))
  | _ => .refuse

def isOption (arg : String) : Bool :=
  match arg.toList with
  | '-' :: _ :: _ => true
  | _ => false

def option (st : State) (arg : String) : Effect :=
  match arg.toList with
  | ['-', '-'] => .next { st with literal := true }
  | '-' :: '-' :: long => longOption st long
  | '-' :: short => shortOptions st short
  | _ => .refuse

def readFrom (st : State) : List String → Intent
  | [] => st.finish
  | arg :: rest =>
    if !st.literal && isOption arg then
      match option st arg with
      | .next st => readFrom st rest
      | .showVersion => .showVersion
      | .refuse => .refuse
      | .needsConfig st =>
        match rest with
        | [] => .refuse
        | path :: rest =>
          if isOption path then .refuse
          else
            match st.setConfig path with
            | some st => readFrom st rest
            | none => .refuse
    else
      match st.positional arg with
      | some st => readFrom st rest
      | none => .refuse

def read (args : List String) : Intent :=
  readFrom {} args

end SlotScript.CommandLine

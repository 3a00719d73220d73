import SlotScript.Config.Notation
import SlotScript.FileTree

/-!
# Configuration files
-/

namespace SlotScript

/-- Why a configuration cannot be loaded or saved. -/
inductive ConfigError where
  | io (cause : FileError)
  | malformed
  deriving DecidableEq, Repr

def ConfigError.message : ConfigError → String
  | .io cause => s!"IO error: {cause.message}"
  | .malformed => "Config parse error: not a configuration"

namespace Config

def defaultPath : String := "bruter.ron"

def parse (text : String) : Except ConfigError Config :=
  match read? text with
  | some c => .ok c
  | none => .error .malformed

/-- Reads a configuration from a file. A path that leads nowhere gives the default. -/
def load (files : Files) (path : String) : Except ConfigError Config :=
  if files.contains path then
    match files.readText path with
    | .ok text => parse text
    | .error e => .error (.io e)
  else .ok {}

def save (tree : FileTree) (path : String) (c : Config) : Except ConfigError FileTree :=
  match tree.writeText path c.write with
  | .ok tree => .ok tree
  | .error e => .error (.io e)

end Config

end SlotScript

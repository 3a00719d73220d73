/-!
# Files

What paths lead to, and the files around a working directory as a program sees them: names lead to
bytes or to further names. A path is a sequence of names with slashes between them; empty names and
`.` stay in a directory, and `..` goes back to the one above. Every step of a path has to start from
a directory. A path with a slash in front starts at the root. Above the working directory and at the
root there is nothing with a known name.
-/

namespace SlotScript

/-- Why a file cannot be read or written. -/
inductive FileError where
  | missing
  | notDirectory
  | isDirectory
  | nameTooLong
  | zeroInPath
  | notText
  | system (reason : String) (number : Nat)
  deriving DecidableEq, Repr

def FileError.message : FileError → String
  | .missing => "No such file or directory (os error 2)"
  | .notDirectory => "Not a directory (os error 20)"
  | .isDirectory => "Is a directory (os error 21)"
  | .nameTooLong => "File name too long (os error 36)"
  | .zeroInPath => "file name contained an unexpected NUL byte"
  | .notText => "stream did not contain valid UTF-8"
  | .system reason number => s!"{reason} (os error {number})"

/-- What a path can lead to. -/
inductive FileNode where
  | file (bytes : ByteArray)
  | directory

/-- What each path leads to. -/
abbrev Files := String → Except FileError FileNode

namespace Files

/-- Whether a path leads to something, be it readable or not. -/
def contains (files : Files) (path : String) : Bool :=
  match files path with
  | .ok _ | .error (.system ..) => true
  | .error _ => false

def readText (files : Files) (path : String) : Except FileError String :=
  match files path with
  | .error e => .error e
  | .ok .directory => .error .isDirectory
  | .ok (.file bytes) =>
    match String.fromUTF8? bytes with
    | some text => .ok text
    | none => .error .notText

end Files

def nameLimit : Nat := 255

def pathLimit : Nat := 4095

/-- Files and directories by their places. A place is a sequence of names from the working directory
on; it starts with as many `..` as it lies above that, or with `/` if it is counted from the root. A
directory that something lies in need not be listed. -/
structure FileTree where
  entries : List (List String × FileNode) := []

namespace FileTree

/-- The names in a path; an empty one at the end stands for a slash there. -/
def names (path : String) : List String :=
  (path.toList.foldr (fun c names =>
    match c, names with
    | '/', names => [] :: names
    | c, first :: rest => (c :: first) :: rest
    | c, [] => [[c]]) [[]]).map String.ofList

def root : List String := ["/"]

/-- Whether a place is the working directory, one above it, or the root. -/
def isTop (place : List String) : Bool :=
  place = root || place.all (· = "..")

def nodeAt? (t : FileTree) (place : List String) : Option FileNode :=
  match t.entries.lookup place with
  | some node => some node
  | none =>
    if isTop place || t.entries.any fun (p, _) => place.isPrefixOf p then some .directory else none

def isStay (name : String) : Bool :=
  name.isEmpty || name = "."

def above (place : List String) : List String :=
  if place = root then root else if isTop place then ".." :: place else place.dropLast

/-- The place that a name leads to from the place of a directory. -/
def step (place : List String) (name : String) : Except FileError (List String) :=
  if isStay name then .ok place
  else if name = ".." then .ok (above place)
  else if nameLimit < name.utf8ByteSize then .error .nameTooLong
  else .ok (place ++ [name])

def needDirectory (t : FileTree) (place : List String) : Except FileError Unit :=
  match t.nodeAt? place with
  | none => .error .missing
  | some (.file _) => .error .notDirectory
  | some .directory => .ok ()

/-- Follows names from a place on. Each name needs a directory to start from. -/
def follow (t : FileTree) (place : List String) : List String → Except FileError (List String)
  | [] => .ok place
  | name :: rest => do
    t.needDirectory place
    t.follow (← step place name) rest

/-- Checks what can be seen of a path without following it. -/
def checkPath (path : String) : Except FileError Unit :=
  if path.toList.any (·.toNat = 0) then .error .zeroInPath
  else if path.isEmpty then .error .missing
  else if pathLimit < path.utf8ByteSize then .error .nameTooLong
  else .ok ()

def start (path : String) : List String :=
  if path.toList.head? = some '/' then root else []

def files (t : FileTree) : Files := fun path => do
  checkPath path
  match t.nodeAt? (← t.follow (start path) (names path)) with
  | some node => .ok node
  | none => .error .missing

/-- Adds a file or a directory, or replaces the file at the same place. -/
def insertAt (t : FileTree) (place : List String) (node : FileNode) : FileTree :=
  ⟨(place, node) :: t.entries.filter fun (p, _) => p ≠ place⟩

/-- Adds a file or a directory at a path from the working directory on. -/
def insert (t : FileTree) (path : String) (node : FileNode) : FileTree :=
  t.insertAt ((names path).filter fun name => !isStay name) node

/-- The names of a path without the slashes at its end, and whether there were any. -/
def withoutEndSlash (path : String) : List String × Bool :=
  let parts := names path
  let body := (parts.reverse.dropWhile String.isEmpty).reverse
  (body, body.length < parts.length)

/-- Writes a text to a file, which is made when only its last name is missing. A path that ends with
a slash or with a step to a directory names no file. -/
def writeText (t : FileTree) (path text : String) : Except FileError FileTree := do
  checkPath path
  let (parts, endSlash) := withoutEndSlash path
  let directory ← t.follow (start path) parts.dropLast
  t.needDirectory directory
  match parts.getLast? with
  | none => .error .isDirectory
  | some name =>
    if endSlash || isStay name || name = ".." then .error .isDirectory
    else
      let place ← step directory name
      match t.nodeAt? place with
      | some .directory => .error .isDirectory
      | _ => .ok (t.insertAt place (.file text.toUTF8))

end FileTree

end SlotScript

import SlotScript.Bindings
import SlotScript.Config
import SlotScript.Store

/-!
# The machine

A machine owns everything that a script can touch: the store, the global bindings, the slots that
are retained for the embedding program and the depth of the evaluation that is going on. What it
tells the embedding program is a list of notices: lines printed, slots handed over, host objects
destroyed.

This module has the operations on single slots and bindings. An operation that fails leaves the
machine as it was, so it gives either an error or the next machine.
-/

namespace SlotScript

variable {β : Type}

/-- What a machine tells the embedding program. -/
inductive Notice where
  | line (text : String)
  | handed (slot : Slot)
  /-- The destructor of an owned host value ran on the object with this id. -/
  | destroyed (id : Int)
  deriving DecidableEq, Repr

/-- The state of a script's world; `β` is the type of codes of builtins. -/
structure Machine (β : Type) where
  store : Store β := .empty
  globals : Bindings := .empty
  config : Config := {}
  /-- The number of expressions that are being evaluated, one inside the other. -/
  depth : Nat := 0
  retained : List Slot := []
  /-- What the embedding program has been told, last first. -/
  notices : List Notice := []

namespace Machine

def fresh (config : Config) : Machine β :=
  { config }

def notify (m : Machine β) (n : Notice) : Machine β :=
  { m with notices := n :: m.notices }

/-- Lets go of a value: the destructor of an owned host value runs. -/
def discard (m : Machine β) (v : Value β) : Machine β :=
  match v.doomed? with
  | some id => m.notify (.destroyed id)
  | none => m

def allocate (m : Machine β) (v : Value β) : Slot × Machine β :=
  let (s, store) := m.store.allocate v
  (s, { m with store })

def value (m : Machine β) (s : Slot) : Except Error (Value β) :=
  m.store.get s

/-- Takes the value `v` out of the live slot `s`, which is then no longer retained, and lets go of
it. -/
def vacate (m : Machine β) (s : Slot) (v : Value β) : Machine β :=
  { m with store := m.store.vacate s v, retained := m.retained.filter (· ≠ s) }.discard v

def release (m : Machine β) (s : Slot) : Except Error (Machine β) :=
  match m.value s with
  | .error e => .error e
  | .ok v => .ok (m.vacate s v)

def isRetained (m : Machine β) (s : Slot) : Bool :=
  s ∈ m.retained

/-- Retains a live slot: no statement releases it until it is let go. -/
def retain (m : Machine β) (s : Slot) : Except Error (Machine β) :=
  if m.store.isLive s then .ok { m with retained := m.retained.insert s }
  else .error (.invalidHandle s)

/-- No longer retains a slot; also tells whether it was retained. -/
def unretain (m : Machine β) (s : Slot) : Bool × Machine β :=
  (m.isRetained s, { m with retained := m.retained.filter (· ≠ s) })

def duplicate (m : Machine β) (s : Slot) : Except Error (Slot × Machine β) :=
  match m.value s with
  | .error e => .error e
  | .ok v => v.copy.map m.allocate

/-- Puts a value into a live slot and lets go of the old one. -/
def overwrite (m : Machine β) (s : Slot) (v : Value β) : Except Error Unit × Machine β :=
  match m.store.replace s v with
  | .error e => (.error e, m.discard v)
  | .ok (old, store) => (.ok (), { m with store }.discard old)

def amend (m : Machine β) (s : Slot) (f : Value β → Value β) : Except Error (Machine β) :=
  (m.store.modify s f).map fun store => { m with store }

def push (m : Machine β) (list item : Slot) : Except Error (Machine β) :=
  match m.value list with
  | .error e => .error e
  | .ok v =>
    match v.asList with
    | .error e => .error e
    | .ok items => m.amend list fun _ => .list (items ++ [item])

/-- Binds a name globally; also gives the slot it was bound to, which is not released. -/
def assignGlobal (m : Machine β) (name : String) (s : Slot) : Option Slot × Machine β :=
  let (previous, globals) := m.globals.assign name s
  (previous, { m with globals })

/-- Removes a global name; also gives the slot it was bound to, which is not released. -/
def removeGlobal (m : Machine β) (name : String) : Option Slot × Machine β :=
  let (previous, globals) := m.globals.remove name
  (previous, { m with globals })

/-- Stores a value in a fresh slot and binds a global name to it. -/
def register (m : Machine β) (name : String) (v : Value β) : Slot × Machine β :=
  let (s, m) := m.allocate v
  (s, (m.assignGlobal name s).2)

def resolve (m : Machine β) (ctx : Context) (name : String) : Except Error Slot :=
  match ctx.resolve? m.globals name with
  | some s => .ok s
  | none => .error (.undefinedSymbol name)

def contents (m : Machine β) : List (Slot × Value β) :=
  m.store.slots.filterMap fun s => (m.store.get? s).map (s, ·)

/-- The number of live slots that refer to the borrowed host object with an id. -/
def borrowers (m : Machine β) (id : Int) : Nat :=
  m.contents.countP fun (_, v) =>
    match v with
    | .host (.borrowed id') => id' = id
    | _ => false

/-- The printed lines, last first. -/
def lines (m : Machine β) : List String :=
  m.notices.filterMap fun
    | .line text => some text
    | _ => none

/-- The ids that are destroyed when the machine ends: those still in its slots, by place. -/
def doomed (m : Machine β) : List Int :=
  m.contents.filterMap fun (_, v) => v.doomed?

end Machine

end SlotScript

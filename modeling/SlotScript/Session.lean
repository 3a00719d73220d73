import SlotScript.Vocabulary

/-!
# Sessions

An embedding program at work on a machine. It gives names to the slots, the expressions and the
tables that it holds, refers to host objects by id and collects the slots that builtins hand over.
-/

namespace SlotScript

/-- Replaces what a name stands for, or adds the name at the end. -/
def putName {α : Type} (name : String) (a : α) (entries : List (String × α)) :
    List (String × α) :=
  OrderedMap.place name a entries

/-- A machine and what the embedding program holds of it. -/
structure Session where
  machine : Machine Builtin
  slots : List (String × Slot) := []
  expressions : List (String × List Slot) := []
  tables : List (String × Bindings) := []
  /-- The ids of the host objects that were ever lent to the machine. -/
  lent : List Int := []
  /-- The slots that builtins have handed over, last first. -/
  received : List Slot := []

namespace Session

def start (v : Vocabulary) (config : Config) : Session :=
  { machine := v.machine config }

def perform (session : Session) (r : Request Builtin) : r.Reply × Session :=
  let (reply, machine) := session.machine.perform Builtin.library r
  (reply, { session with machine })

def slot? (session : Session) (name : String) : Option Slot :=
  session.slots.lookup name

def nameSlot (session : Session) (name : String) (s : Slot) : Session :=
  { session with slots := putName name s session.slots }

def expression? (session : Session) (name : String) : Option (List Slot) :=
  session.expressions.lookup name

/-- Gives a name to an expression; its slots are named by their positions in it. -/
def nameExpression (session : Session) (name : String) (expr : List Slot) : Session :=
  let session := { session with expressions := putName name expr session.expressions }
  expr.zipIdx.foldl (fun session (s, i) => session.nameSlot s!"{name}.{i}" s) session

/-- The name of the machine's global bindings among the tables. -/
def globalsName : String := "@globals"

/-- The table with a name, empty when it is used for the first time. -/
def table (session : Session) (name : String) : Bindings :=
  if name = globalsName then session.machine.globals
  else (session.tables.lookup name).getD .empty

def nameTable (session : Session) (name : String) (t : Bindings) : Session :=
  { session with tables := putName name t session.tables }

def setTable (session : Session) (name : String) (t : Bindings) : Session :=
  if name = globalsName then { session with machine := { session.machine with globals := t } }
  else session.nameTable name t

/-- The context with the name of a table; without a name there is no context. -/
def context (session : Session) (name : Option String) : Context :=
  name.map fun name => (session.tables.lookup name).getD .empty

/-- Takes over a context as an evaluation has left it. -/
def setContext (session : Session) (name : Option String) (ctx : Context) : Session :=
  match name, ctx with
  | some name, some t => session.nameTable name t
  | _, _ => session

/-- Stores a reference to the host object with an id. -/
def lend (session : Session) (id : Int) : Slot × Session :=
  let (s, session) := session.perform (.allocate (.host (.borrowed id)))
  (s, { session with lent := session.lent.insert id })

/-- The number of references to a host object that was lent: one per live slot and the lender's
own. -/
def references? (session : Session) (id : Int) : Option Nat :=
  if id ∈ session.lent then some (session.machine.borrowers id + 1) else none

/-- Adds to the id of the host object that a slot owns; ids have 64 bits and wrap around. Gives the
new id, `none` when the slot does not own one. -/
def bump (session : Session) (s : Slot) (amount : Int) : Except Error (Option Int × Session) := do
  match ← session.machine.value s with
  | .host (.owned id destructor) =>
    let id := (id + amount).bmod (Nat.pow 2 64)
    let machine ← session.machine.amend s fun _ => .host (.owned id destructor)
    pure (some id, { session with machine })
  | _ => pure (none, session)

/-- Appends to the text in a slot. Tells the kind of a value that is no text, which stays as it
is. -/
def append (session : Session) (s : Slot) (suffix : String) : Except Error (Kind × Session) :=
  (session.machine.store.append s suffix).map fun (kind, store) =>
    (kind, { session with machine := { session.machine with store } })

def receive (session : Session) : Option Slot × Session :=
  match session.received with
  | [] => (none, session)
  | s :: received => (some s, { session with received })

/-- Goes on with a fresh machine without builtins; what the old one owned is destroyed. -/
def restart (session : Session) : Session :=
  let machine := Machine.fresh session.machine.config
  { session with
    machine := { machine with notices := (session.machine.doomed.map .destroyed).reverse } }

/-- What the machine has told since the last look: the printed lines and the destroyed objects.
Slots that were handed over are received. -/
def observe (session : Session) : (List String × List Int) × Session :=
  let notices := session.machine.notices.reverse
  let destroyed := notices.filterMap fun | .destroyed id => some id | _ => none
  let handed := notices.filterMap fun | .handed s => some s | _ => none
  ((session.machine.lines.reverse, destroyed), { session with
    machine := { session.machine with notices := [] }
    received := handed.reverse ++ session.received })

end Session

end SlotScript

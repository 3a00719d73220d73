import SlotScript.Error

/-!
# The store

A growing array of places for values. A released place is vacant and is taken again, last released
first, before the array grows. Each place counts its generations, modulo `2 ^ 32`, so a slot is live
exactly when its place holds a value and is in the generation of the slot.

The store also keeps a journal of the slots it hands out while a journal is open, by which an
evaluator finds what a statement has allocated. Journals nest: opening one gives a mark, and closing
it takes away what was written since the mark.
-/

namespace SlotScript

variable {β : Type}

/-- A place of a store. -/
structure Place (β : Type) where
  generation : UInt32
  value : Option (Value β)

/-- Counters over the life of a store. -/
structure Tally where
  stored : Nat := 0
  /-- Values stored in a place that was used before. -/
  reused : Nat := 0
  released : Nat := 0
  textsStored : Nat := 0
  textsReleased : Nat := 0
  deriving DecidableEq, Repr

namespace Tally

def store (t : Tally) (v : Value β) (again : Bool) : Tally :=
  { t with
    stored := t.stored + 1
    reused := t.reused + if again then 1 else 0
    textsStored := t.textsStored + if v.isText then 1 else 0 }

def release (t : Tally) (v : Value β) : Tally :=
  { t with
    released := t.released + 1
    textsReleased := t.textsReleased + if v.isText then 1 else 0 }

end Tally

/-- Values addressed by slots. -/
structure Store (β : Type) where
  places : Array (Place β) := #[]
  /-- The places without a value, last released first. -/
  vacant : List Nat := []
  occupied : Nat := 0
  tally : Tally := {}
  /-- The slots handed out while a journal is open, oldest first. -/
  journal : Array Slot := #[]
  journals : Nat := 0

namespace Store

def empty : Store β := {}

def size (st : Store β) : Nat :=
  st.places.size

def get? (st : Store β) (s : Slot) : Option (Value β) :=
  match st.places[s.index]? with
  | some p => if p.generation = s.generation then p.value else none
  | none => none

def get (st : Store β) (s : Slot) : Except Error (Value β) :=
  match st.get? s with
  | some v => .ok v
  | none => .error (.invalidHandle s)

def isLive (st : Store β) (s : Slot) : Bool :=
  (st.get? s).isSome

/-- The kind of the value of a slot, which has to be live. -/
def kind (st : Store β) (s : Slot) : Except Error Kind :=
  (st.get s).map Value.kind

/-- The slots that a slot refers to: the items when it is a live list. -/
def items (st : Store β) (s : Slot) : List Slot :=
  match st.get? s with
  | some v => v.items
  | none => []

def slotAt? (st : Store β) (i : Nat) : Option Slot :=
  match st.places[i]? with
  | some p => if p.value.isSome then some ⟨i, p.generation⟩ else none
  | none => none

def slots (st : Store β) : List Slot :=
  (List.range st.places.size).filterMap st.slotAt?

def note (st : Store β) (slots : List Slot) : Store β :=
  if 0 < st.journals then { st with journal := st.journal.appendList slots } else st

/-- The slot that the next value is stored in: the place released last in its present generation, or
a new place when none is vacant. -/
def nextSlot (st : Store β) : Slot :=
  match st.vacant with
  | i :: _ => ⟨i, (st.places[i]?.map (·.generation)).getD 0⟩
  | [] => ⟨st.places.size, 0⟩

def allocate (st : Store β) (v : Value β) : Slot × Store β :=
  let s := st.nextSlot
  let places := match st.vacant with
    | _ :: _ => st.places.setIfInBounds s.index ⟨s.generation, some v⟩
    | [] => st.places.push ⟨s.generation, some v⟩
  (s, { st with
    places
    vacant := st.vacant.tail
    occupied := st.occupied + 1
    tally := st.tally.store v !st.vacant.isEmpty }.note [s])

/-- Takes the value `v` out of the live slot `s` and vacates its place, which moves to the next
generation. -/
def vacate (st : Store β) (s : Slot) (v : Value β) : Store β :=
  { st with
    places := st.places.setIfInBounds s.index ⟨s.generation + 1, none⟩
    vacant := s.index :: st.vacant
    occupied := st.occupied - 1
    tally := st.tally.release v }

/-- Takes the value out of a slot, which has to be live. -/
def release (st : Store β) (s : Slot) : Except Error (Value β × Store β) :=
  match st.get? s with
  | none => .error (.invalidHandle s)
  | some v => .ok (v, st.vacate s v)

def put (st : Store β) (s : Slot) (v : Value β) : Store β :=
  { st with places := st.places.setIfInBounds s.index ⟨s.generation, some v⟩ }

/-- Puts a value in the place of the one that a live slot holds, which is given back. -/
def replace (st : Store β) (s : Slot) (v : Value β) : Except Error (Value β × Store β) :=
  match st.get? s with
  | none => .error (.invalidHandle s)
  | some old => .ok (old, st.put s v)

def modify (st : Store β) (s : Slot) (f : Value β → Value β) : Except Error (Store β) :=
  match st.get? s with
  | none => .error (.invalidHandle s)
  | some v => .ok (st.put s (f v))

/-- Appends to the text in a live slot. Tells the kind of the value; one that is no text stays as it
is. -/
def append (st : Store β) (s : Slot) (suffix : String) : Except Error (Kind × Store β) :=
  match st.get s with
  | .error e => .error e
  | .ok (.text t) => (st.replace s (.text (t ++ suffix))).map fun (_, st) => (.text, st)
  | .ok v => .ok (v.kind, st)

def openJournal (st : Store β) : Nat × Store β :=
  (st.journal.size, { st with journals := st.journals + 1 })

/-- Closes a journal and takes away what was written since its mark. -/
def closeJournal (st : Store β) (mark : Nat) : List Slot × Store β :=
  ((st.journal.drop mark).toList,
    { st with journal := st.journal.shrink mark, journals := st.journals - 1 })

end Store

end SlotScript

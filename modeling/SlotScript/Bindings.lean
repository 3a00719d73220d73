import SlotScript.OrderedMap
import SlotScript.Slot

/-!
# Bindings

A table of names bound to slots, in the order in which the names were first bound. Binding a name
again keeps its place; removing a name keeps the order of the others. The table never looks at the
slots.
-/

namespace SlotScript

/-- A table of names bound to slots. -/
structure Bindings where
  toList : List (String × Slot) := []
  deriving DecidableEq, Repr, Inhabited

namespace Bindings

/-- Tables as ordered maps. -/
def map : OrderedMap String Slot Bindings where
  empty := {}
  entries := toList
  get? t name := t.toList.lookup name
  contains t name := (t.toList.lookup name).isSome
  size t := t.toList.length
  values t := t.toList.map Prod.snd
  write t name slot :=
    if (t.toList.lookup name).isSome then ⟨OrderedMap.place name slot t.toList⟩ else t
  insert t name slot := ⟨OrderedMap.place name slot t.toList⟩
  remove t name := (t.toList.lookup name, ⟨t.toList.filter fun entry => entry.1 ≠ name⟩)
  clear _ := {}
  copy t := t

theorem lawful_map : map.Lawful where
  entries_empty := rfl
  get?_eq _ _ := rfl
  contains_eq _ _ := rfl
  size_eq _ := rfl
  values_eq _ := rfl
  entries_write {t name old front back} slot h hfront := by
    have hold : t.toList.lookup name = some old :=
      List.lookup_eq_some_iff.2 ⟨front, back, h, fun entry hentry =>
        bne_iff_ne.2 (hfront entry hentry).symm⟩
    have hwrite : map.entries (map.write t name slot) = OrderedMap.place name slot t.toList :=
      congrArg toList (if_pos (Option.isSome_of_eq_some hold))
    rw [hwrite, ← OrderedMap.place_append hfront]
    exact congrArg _ h
  entries_insert slot h := OrderedMap.place_of_new fun entry hentry =>
    (bne_iff_ne.1 (List.lookup_eq_none_iff.1 h entry hentry)).symm
  remove_fst _ _ := rfl
  entries_remove _ _ := rfl
  entries_clear _ := rfl
  entries_copy _ := rfl

def empty : Bindings := map.empty

def find? (t : Bindings) (name : String) : Option Slot :=
  map.get? t name

def contains (t : Bindings) (name : String) : Bool :=
  map.contains t name

/-- Binds a name to a slot; also gives the slot it was bound to before. -/
def assign (t : Bindings) (name : String) (slot : Slot) : Option Slot × Bindings :=
  map.assign t name slot

/-- Removes a name; also gives the slot it was bound to. -/
def remove (t : Bindings) (name : String) : Option Slot × Bindings :=
  map.remove t name

def slots (t : Bindings) : List Slot :=
  map.values t

def size (t : Bindings) : Nat :=
  map.size t

theorem find?_eq (t : Bindings) (name : String) : t.find? name = t.toList.lookup name :=
  lawful_map.get?_eq t name

theorem slots_eq (t : Bindings) : t.slots = t.toList.map Prod.snd :=
  lawful_map.values_eq t

@[simp] theorem assign_fst (t : Bindings) (name : String) (slot : Slot) :
    (t.assign name slot).1 = t.find? name :=
  OrderedMap.assign_fst map t name slot

/-- A name is bound in its place, or at the end when it has none. -/
theorem toList_assign (t : Bindings) (name : String) (slot : Slot) :
    (t.assign name slot).2.toList = OrderedMap.place name slot t.toList := by
  rcases lawful_map.entries_assign t name slot with ⟨front, old, back, ht, hfront, h⟩ | ⟨hnew, h⟩
  · rw [show t.toList = _ from ht, OrderedMap.place_append hfront]
    exact h
  · exact h.trans (OrderedMap.place_of_new hnew).symm

end Bindings

/-- The table of local names that an evaluation may be given. -/
abbrev Context := Option Bindings

namespace Context

def slots : Context → List Slot
  | none => []
  | some t => t.slots

/-- The slot that a name stands for: the local one if the context binds it, else the global one. -/
def resolve? (ctx : Context) (globals : Bindings) (name : String) : Option Slot :=
  Bindings.map.resolve? ctx globals name

@[simp] theorem resolve?_none (globals : Bindings) (name : String) :
    resolve? none globals name = globals.find? name :=
  rfl

@[simp] theorem resolve?_some (t globals : Bindings) (name : String) :
    resolve? (some t) globals name = (t.find? name).or (globals.find? name) :=
  rfl

end Context

end SlotScript

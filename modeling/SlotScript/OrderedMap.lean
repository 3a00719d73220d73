/-!
# Ordered maps

A map that keeps its entries in an order. `OrderedMap` lists the operations that tables of names are
made of, for any type of maps, and `Lawful` says what they do to the entries: a value that is
written takes the place of the old one, a new entry goes behind the others, and the others keep
their order when an entry is removed. Lists of entries that are searched from the front are such
maps.
-/

namespace SlotScript

/-- Operations on maps from keys to values that keep an order; `M` is the type of the maps. -/
structure OrderedMap (κ ν M : Type) where
  empty : M
  /-- The entries in their order. -/
  entries : M → List (κ × ν)
  get? : M → κ → Option ν
  contains : M → κ → Bool
  size : M → Nat
  values : M → List ν
  /-- Puts a value in the place of the one that a key has. -/
  write : M → κ → ν → M
  insert : M → κ → ν → M
  /-- Removes a key; also gives the value that it had. -/
  remove : M → κ → Option ν × M
  clear : M → M
  copy : M → M

namespace OrderedMap

variable {κ ν M : Type}

/-- Gives a key a value, in its place or as a new key; also gives the value that it had before. -/
def assign (map : OrderedMap κ ν M) (t : M) (key : κ) (value : ν) : Option ν × M :=
  match map.get? t key with
  | some old => (some old, map.write t key value)
  | none => (none, map.insert t key value)

@[simp] theorem assign_fst (map : OrderedMap κ ν M) (t : M) (key : κ) (value : ν) :
    (map.assign t key value).1 = map.get? t key := by
  unfold assign
  split <;> next h => exact h.symm

/-- The value that a key has in a local map, if there is one and it has the key, else in the global
one. -/
def resolve? (map : OrderedMap κ ν M) (scope : Option M) (globals : M) (key : κ) : Option ν :=
  (scope.bind fun t => map.get? t key).or (map.get? globals key)

/-- What the operations do to the entries. -/
structure Lawful [DecidableEq κ] (map : OrderedMap κ ν M) : Prop where
  entries_empty : map.entries map.empty = []
  get?_eq : ∀ t key, map.get? t key = (map.entries t).lookup key
  contains_eq : ∀ t key, map.contains t key = (map.get? t key).isSome
  size_eq : ∀ t, map.size t = (map.entries t).length
  values_eq : ∀ t, map.values t = (map.entries t).map Prod.snd
  /-- A value that is written takes the place of the old one. -/
  entries_write : ∀ {t key old front back} (value : ν),
    map.entries t = front ++ (key, old) :: back → (∀ entry ∈ front, entry.1 ≠ key) →
      map.entries (map.write t key value) = front ++ (key, value) :: back
  /-- A new key goes behind the others. -/
  entries_insert : ∀ {t key} (value : ν), map.get? t key = none →
    map.entries (map.insert t key value) = map.entries t ++ [(key, value)]
  remove_fst : ∀ t key, (map.remove t key).1 = map.get? t key
  /-- The others keep their order when a key is removed. -/
  entries_remove : ∀ t key,
    map.entries (map.remove t key).2 = (map.entries t).filter fun entry => entry.1 ≠ key
  entries_clear : ∀ t, map.entries (map.clear t) = []
  entries_copy : ∀ t, map.entries (map.copy t) = map.entries t

namespace Lawful

variable [DecidableEq κ] {map : OrderedMap κ ν M} {t : M} {key : κ} {value : ν}

theorem get?_eq_some_iff (h : map.Lawful) :
    map.get? t key = some value ↔ ∃ front back,
      map.entries t = front ++ (key, value) :: back ∧ ∀ entry ∈ front, entry.1 ≠ key := by
  simp only [h.get?_eq, List.lookup_eq_some_iff, bne_iff_ne, ne_comm]

theorem get?_eq_none_iff (h : map.Lawful) :
    map.get? t key = none ↔ ∀ entry ∈ map.entries t, entry.1 ≠ key := by
  simp only [h.get?_eq, List.lookup_eq_none_iff, bne_iff_ne, ne_comm]

/-- A key that is present keeps its place, and one that is new goes behind the others. -/
theorem entries_assign (h : map.Lawful) (t : M) (key : κ) (value : ν) :
    (∃ front old back, map.entries t = front ++ (key, old) :: back ∧
      (∀ entry ∈ front, entry.1 ≠ key) ∧
      map.entries (map.assign t key value).2 = front ++ (key, value) :: back) ∨
    (∀ entry ∈ map.entries t, entry.1 ≠ key) ∧
      map.entries (map.assign t key value).2 = map.entries t ++ [(key, value)] := by
  unfold assign
  cases hget : map.get? t key with
  | none => exact .inr ⟨h.get?_eq_none_iff.1 hget, h.entries_insert value hget⟩
  | some old =>
    obtain ⟨front, back, heq, hfront⟩ := h.get?_eq_some_iff.1 hget
    exact .inl ⟨front, old, back, heq, hfront, h.entries_write value heq hfront⟩

end Lawful

/-! ## Lists of entries -/

section List

variable [DecidableEq κ] {l front back : List (κ × ν)} {key : κ} {value old : ν}

/-- Puts a value in the place of the one that a key has in a list of entries, or the two at the end
when it has none. -/
def place (key : κ) (value : ν) : List (κ × ν) → List (κ × ν)
  | [] => [(key, value)]
  | (other, old) :: rest =>
    if other = key then (other, value) :: rest else (other, old) :: place key value rest

theorem place_append (h : ∀ entry ∈ front, entry.1 ≠ key) :
    place key value (front ++ (key, old) :: back) = front ++ (key, value) :: back := by
  induction front with
  | nil => exact if_pos rfl
  | cons entry front ih =>
    rw [List.cons_append, place, if_neg (h entry List.mem_cons_self),
      ih fun entry' hentry => h entry' (List.mem_cons_of_mem _ hentry), List.cons_append]

theorem place_of_new (h : ∀ entry ∈ l, entry.1 ≠ key) :
    place key value l = l ++ [(key, value)] := by
  induction l with
  | nil => rfl
  | cons entry l ih =>
    rw [place, if_neg (h entry List.mem_cons_self),
      ih fun entry' hentry => h entry' (List.mem_cons_of_mem _ hentry), List.cons_append]

end List

end OrderedMap

end SlotScript

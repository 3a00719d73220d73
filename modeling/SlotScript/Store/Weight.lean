import SlotScript.Store
import SlotScript.Store.Total

/-!
# The weight of a store

The number of items that the live lists of a store hold together. Releasing a slot takes the items
of its value from the weight, which is why a release that goes on to the items comes to an end.
-/

namespace SlotScript.Store

variable {β : Type}

def placeWeight (e : Place β) : Nat :=
  match e.value with
  | some v => v.items.length
  | none => 0

def weight (st : Store β) : Nat :=
  total placeWeight st.places.toList

/-- A live slot has a place in its generation that holds its value. -/
theorem places_of_get? {st : Store β} {s : Slot} {v : Value β} (h : st.get? s = some v) :
    st.places[s.index]? = some ⟨s.generation, some v⟩ := by
  simp only [get?] at h
  split at h
  · next e he =>
    split at h
    · next hg => rw [he, ← hg, ← h]
    · cases h
  · cases h

/-- Vacating a slot takes the items of its value from the weight. -/
theorem weight_vacate {st : Store β} {s : Slot} {v : Value β} (h : st.get? s = some v) :
    (st.vacate s v).weight + v.items.length = st.weight := by
  obtain ⟨hlt, hget⟩ := Array.getElem?_eq_some_iff.1 (places_of_get? h)
  have hset := total_set placeWeight ⟨s.generation + 1, none⟩ st.places.toList s.index
    (by simpa using hlt)
  simp only [Array.getElem_toList, hget] at hset
  simp only [weight, vacate, Array.toList_setIfInBounds]
  simpa [placeWeight] using hset

end SlotScript.Store

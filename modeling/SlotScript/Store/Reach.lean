import SlotScript.Store
import SlotScript.Store.Marks
import SlotScript.Store.Total

/-!
# Reachability in a store

The slots that can be reached from given ones by going from live lists to their items. Lists may
share items, contain themselves and hold stale slots; a stale slot can be reached, but nothing from
it.

The search ends because each live list adds its items to the pending slots only once: the pending
slots and the items of the lists not seen so far are fewer after every step.
-/

namespace SlotScript.Store

variable {β : Type}

/-- A slot with items is one of the live slots. -/
theorem mem_slots_of_items_ne_nil {st : Store β} {s : Slot} (h : st.items s ≠ []) :
    s ∈ st.slots := by
  obtain ⟨index, generation⟩ := s
  simp only [items, get?] at h
  cases he : st.places[index]? with
  | none => simp [he] at h
  | some e =>
    simp only [he] at h
    by_cases hg : e.generation = generation
    · cases hv : e.value with
      | none => simp [hg, hv] at h
      | some v =>
        have hlt : index < st.places.size := (Array.getElem?_eq_some_iff.1 he).1
        simp only [slots, List.mem_filterMap, List.mem_range]
        exact ⟨index, hlt, by simp [slotAt?, he, hv, hg]⟩
    · simp [hg] at h

/-- The number of items of the live lists that are not in `seen`. -/
def unseen (st : Store β) (seen : Marks) : Nat :=
  total (fun s => (st.items s).length) (st.slots.filter fun s => s ∉ seen)

/-- Seeing a slot takes its items from the unseen ones. -/
theorem unseen_mark_le (st : Store β) {s : Slot} {seen : Marks} (hs : s ∉ seen) :
    st.unseen (seen.mark s) + (st.items s).length ≤ st.unseen seen := by
  refine total_filter_le (fun t => (st.items t).length) (by simpa using hs)
    (fun t => ?_) st.slots ?_
  · simp only [Marks.mem_mark, not_or, decide_eq_true_eq]
    exact and_comm
  · by_cases h : st.items s = []
    · exact .inr (by simp [h])
    · exact .inl (mem_slots_of_items_ne_nil h)

/-- Adds to `seen` what can be reached from `pending` without passing through `seen`. -/
def reachFrom (st : Store β) (seen : Marks) : List Slot → Marks
  | [] => seen
  | s :: pending =>
    if _h : s ∈ seen then st.reachFrom seen pending
    else st.reachFrom (seen.mark s) (st.items s ++ pending)
termination_by pending => pending.length + st.unseen seen
decreasing_by
  · simp only [List.length_cons]
    omega
  · have := st.unseen_mark_le _h
    simp only [List.length_append, List.length_cons]
    omega

/-- The slots that can be reached from the given ones. -/
def reach (st : Store β) (roots : List Slot) : Marks :=
  st.reachFrom .empty roots

end SlotScript.Store

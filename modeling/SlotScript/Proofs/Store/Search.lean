import Mathlib.Logic.Function.Iterate
import Mathlib.Logic.Relation
import SlotScript.Proofs.Store.Reachability
import SlotScript.Proofs.Store.WellFormed

/-!
# The search, path by path and turn by turn

What the search finds and why it ends, said without the search. A path goes from a live list to one
of its items, any number of times, and what some roots reach are the ends of the paths from them
(`reaches_iff_exists_path`).

A loop over pending slots takes the first one in each turn and puts further slots in front of the
others: `workOff` is such a turn, for a loop that is given by what it does with one slot. The search
is the loop that looks at slots. Every list adds its items to the pending slots once, so after at
most as many turns as there are roots and items of live lists nothing is pending
(`exists_iterate_reachFrom`).
-/

namespace SlotScript

/-- One turn of a loop over pending slots: `visit` takes the first of them and tells which slots are
to be visited before the others. Without pending slots the loop is over. -/
def workOff {σ : Type} (visit : σ → Slot → σ × List Slot) : σ × List Slot → σ × List Slot
  | (a, []) => (a, [])
  | (a, s :: pending) => ((visit a s).1, (visit a s).2 ++ pending)

/-- The first turn of a loop, before `n` further ones. -/
theorem iterate_workOff_cons {σ : Type} {visit : σ → Slot → σ × List Slot} {a b : σ} {s : Slot}
    {more : List Slot} (h : visit a s = (b, more)) (pending : List Slot) (n : Nat) :
    (workOff visit)^[n + 1] (a, s :: pending) = (workOff visit)^[n] (b, more ++ pending) := by
  rw [Function.iterate_succ_apply, workOff, h]

namespace Store

variable {β : Type} {st : Store β} {roots : List Slot} {s t : Slot}

/-! ## Paths -/

/-- The slot `s` holds a list, and `t` is one of its items. -/
def HasItem (st : Store β) (s t : Slot) : Prop :=
  ∃ items, st.get? s = some (.list items) ∧ t ∈ items

/-- A path leads from one slot to another: each of its steps goes from a live list to an item. -/
def Path (st : Store β) : Slot → Slot → Prop :=
  Relation.ReflTransGen st.HasItem

theorem mem_items_iff : t ∈ st.items s ↔ st.HasItem s t := by
  constructor
  · exact exists_list_of_mem_items
  · rintro ⟨items, hget, ht⟩
    rw [items_of_get? hget]
    exact ht

theorem Path.reaches (h : st.Path s t) (hs : s ∈ roots) : st.Reaches roots t := by
  induction h with
  | refl => exact .root hs
  | tail _ hitem ih => exact ih.item (mem_items_iff.2 hitem)

/-- The slots that are reached are the ends of the paths from the roots. -/
theorem reaches_iff_exists_path : st.Reaches roots t ↔ ∃ r ∈ roots, st.Path r t := by
  constructor
  · intro h
    induction h with
    | @root r hr => exact ⟨r, hr, .refl⟩
    | item _ ht ih =>
      obtain ⟨r, hr, hpath⟩ := ih
      exact ⟨r, hr, hpath.tail (mem_items_iff.1 ht)⟩
  · rintro ⟨r, hr, hpath⟩
    exact hpath.reaches hr

theorem reaches_singleton_iff : st.Reaches [s] t ↔ st.Path s t := by
  rw [reaches_iff_exists_path]
  constructor
  · rintro ⟨r, hr, hpath⟩
    rwa [← List.mem_singleton.1 hr]
  · intro hpath
    exact ⟨s, List.mem_singleton_self s, hpath⟩

/-! ## Turns -/

/-- What the search does with a slot: one that is new is marked, and its items are to be visited. -/
def look (st : Store β) (seen : Marks) (s : Slot) : Marks × List Slot :=
  if s ∈ seen then (seen, []) else (seen.mark s, st.items s)

/-- The search ends. Each turn takes away one pending slot, and each item of a live list becomes
pending at most once. -/
theorem exists_iterate_reachFrom (seen : Marks) (pending : List Slot) :
    ∃ n ≤ pending.length + st.unseen seen,
      (workOff st.look)^[n] (seen, pending) = (st.reachFrom seen pending, []) := by
  fun_induction reachFrom st seen pending with
  | case1 seen => exact ⟨0, Nat.zero_le _, rfl⟩
  | case2 seen s pending hs ih =>
    obtain ⟨n, hn, hturns⟩ := ih
    have hlook : st.look seen s = (seen, []) := if_pos hs
    refine ⟨n + 1, ?_, (iterate_workOff_cons hlook pending n).trans hturns⟩
    rw [List.length_cons]
    omega
  | case3 seen s pending hs ih =>
    obtain ⟨n, hn, hturns⟩ := ih
    have hlook : st.look seen s = (seen.mark s, st.items s) := if_neg hs
    have hunseen := st.unseen_mark_le hs
    refine ⟨n + 1, ?_, (iterate_workOff_cons hlook pending n).trans hturns⟩
    rw [List.length_append] at hn
    rw [List.length_cons]
    omega

end Store

end SlotScript

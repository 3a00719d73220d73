import SlotScript.Store.Reach

/-!
# What can be reached in a store

`Reaches` is the closure of some roots under going from a live list to its items. The search `reach`
finds exactly these slots (`mem_reach`), on lists that share items, contain themselves or hold stale
slots as well: the search only ever adds slots to `seen`, what it has seen it has also put the items
of on its way, and it sees nothing that the roots do not reach.

`Reaches` looks at the items of reached slots alone, so a store that agrees on those has the same
reached slots (`Reaches.congr`).
-/

namespace SlotScript.Store

variable {β : Type} {st st' : Store β} {roots roots' : List Slot} {s t : Slot}

/-- A slot is a root or an item of a live list that is reached. -/
inductive Reaches (st : Store β) (roots : List Slot) : Slot → Prop
  | root {s : Slot} (h : s ∈ roots) : Reaches st roots s
  | item {s t : Slot} (h : Reaches st roots s) (ht : t ∈ st.items s) : Reaches st roots t

namespace Reaches

theorem not_nil (h : st.Reaches [] s) : False := by
  induction h with
  | root hr => exact List.not_mem_nil hr
  | item _ _ ih => exact ih

theorem trans (h : ∀ r ∈ roots, st.Reaches roots' r) (hs : st.Reaches roots s) :
    st.Reaches roots' s := by
  induction hs with
  | root hr => exact h _ hr
  | item _ ht ih => exact ih.item ht

theorem mono (h : roots ⊆ roots') (hs : st.Reaches roots s) : st.Reaches roots' s :=
  hs.trans fun _ hr => .root (h hr)

theorem append_iff : st.Reaches (roots ++ roots') s ↔ st.Reaches roots s ∨ st.Reaches roots' s := by
  constructor
  · intro h
    induction h with
    | root hr => exact (List.mem_append.1 hr).imp .root .root
    | item _ ht ih => exact ih.imp (·.item ht) (·.item ht)
  · rintro (h | h)
    · exact h.mono (List.subset_append_left ..)
    · exact h.mono (List.subset_append_right ..)

/-- Stores that agree on the items of what is reached in one of them reach the same in both. -/
theorem congr (h : ∀ r, st.Reaches roots r → st'.items r = st.items r) :
    st'.Reaches roots s ↔ st.Reaches roots s := by
  constructor
  · intro hs
    induction hs with
    | root hr => exact .root hr
    | item _ ht ih => exact ih.item (h _ ih ▸ ht)
  · intro hs
    induction hs with
    | root hr => exact .root hr
    | item hr ht ih => exact ih.item ((h _ hr).symm ▸ ht)

/-- A set that has the roots and is closed under items has everything that is reached. -/
theorem closed {P : Slot → Prop} (hr : ∀ r ∈ roots, P r) (hi : ∀ a, P a → ∀ b ∈ st.items a, P b)
    (hs : st.Reaches roots s) : P s := by
  induction hs with
  | root h => exact hr _ h
  | item _ ht ih => exact hi _ ih _ ht

end Reaches

/-! ## The search -/

theorem mem_reachFrom_of_mem_seen (seen : Marks) (pending : List Slot) (h : t ∈ seen) :
    t ∈ st.reachFrom seen pending := by
  fun_induction reachFrom st seen pending with
  | case1 seen => exact h
  | case2 seen s pending hs ih => exact ih h
  | case3 seen s pending hs ih => exact ih (Marks.mem_mark.2 (.inr h))

theorem mem_reachFrom_of_mem_pending (seen : Marks) (pending : List Slot) (h : t ∈ pending) :
    t ∈ st.reachFrom seen pending := by
  fun_induction reachFrom st seen pending with
  | case1 seen => cases h
  | case2 seen s pending hs ih =>
    rcases List.mem_cons.1 h with rfl | h
    · exact mem_reachFrom_of_mem_seen seen pending hs
    · exact ih h
  | case3 seen s pending hs ih =>
    rcases List.mem_cons.1 h with rfl | h
    · exact mem_reachFrom_of_mem_seen _ _ (Marks.mem_mark.2 (.inl rfl))
    · exact ih (List.mem_append_right _ h)

/-- The search ends in a set that is closed under items, if the items of what it has seen at the
start are seen or pending. -/
theorem mem_reachFrom_of_mem_items (seen : Marks) (pending : List Slot)
    (hinv : ∀ a ∈ seen, ∀ b ∈ st.items a, b ∈ seen ∨ b ∈ pending)
    (hs : s ∈ st.reachFrom seen pending) (ht : t ∈ st.items s) : t ∈ st.reachFrom seen pending := by
  fun_induction reachFrom st seen pending with
  | case1 seen => exact (hinv s hs t ht).resolve_right List.not_mem_nil
  | case2 seen r pending hr ih =>
    refine ih (fun a ha b hb => ?_) hs
    rcases hinv a ha b hb with h | h
    · exact .inl h
    · rcases List.mem_cons.1 h with rfl | h
      · exact .inl hr
      · exact .inr h
  | case3 seen r pending hr ih =>
    refine ih (fun a ha b hb => ?_) hs
    rcases Marks.mem_mark.1 ha with rfl | ha
    · exact .inr (List.mem_append_left _ hb)
    · rcases hinv a ha b hb with h | h
      · exact .inl (Marks.mem_mark.2 (.inr h))
      · rcases List.mem_cons.1 h with rfl | h
        · exact .inl (Marks.mem_mark.2 (.inl rfl))
        · exact .inr (List.mem_append_right _ h)

theorem reaches_of_mem_reachFrom (seen : Marks) (pending : List Slot)
    (h : t ∈ st.reachFrom seen pending) : t ∈ seen ∨ st.Reaches pending t := by
  fun_induction reachFrom st seen pending with
  | case1 seen => exact .inl h
  | case2 seen s pending hs ih => exact (ih h).imp id (·.mono (List.subset_cons_self ..))
  | case3 seen s pending hs ih =>
    have hroot : st.Reaches (s :: pending) s := .root List.mem_cons_self
    rcases ih h with h | h
    · rcases Marks.mem_mark.1 h with rfl | h
      · exact .inr hroot
      · exact .inl h
    · refine .inr (h.trans fun r hr => ?_)
      rcases List.mem_append.1 hr with hr | hr
      · exact hroot.item hr
      · exact .root (List.mem_cons_of_mem _ hr)

/-- The search finds exactly what the roots reach. -/
theorem mem_reach : t ∈ st.reach roots ↔ st.Reaches roots t := by
  constructor
  · intro h
    exact (reaches_of_mem_reachFrom .empty roots h).resolve_left (Marks.not_mem_empty t)
  · refine Reaches.closed (P := (· ∈ st.reach roots)) (fun r hr => ?_) (fun a ha b hb => ?_)
    · exact mem_reachFrom_of_mem_pending .empty roots hr
    · refine mem_reachFrom_of_mem_items .empty roots (fun c hc => ?_) ha hb
      exact absurd hc (Marks.not_mem_empty c)

instance : Decidable (st.Reaches roots t) :=
  decidable_of_iff _ mem_reach

end SlotScript.Store

import Mathlib
import SlotScript.Proofs.Machine.Releases
import SlotScript.Proofs.Store.Search

/-!
# Which slots a release takes, exactly

The three releases of more than one slot, on every machine: lists may contain themselves, share
items and hold stale slots. A slot is in use when a path leads to it from a binding, a retained slot
or a further root. `reach_exact` says that the search finds exactly the slots in use, in whatever
order it visits the retained ones, so that what a statement allocated is sorted by use: what is in
use stays and is handed back in order, the rest is released, and the same slots are in use
afterwards. `releaseTree_exact` says that releasing a tree takes exactly what lies on paths from its
top.

Nothing in the two loops that tear down lists remembers which slots they have visited. They end
because a slot that is released has no items any longer: each turn takes away one pending slot, and
only the items of a released list are added, which the store holds no more. So the turns and the
items that are left are together as many as the pending slots and the items at the start.
-/

namespace SlotScript.Machine

open Store (Path)

variable {β : Type} {m m' : Machine β} {rs : List Slot} {s t : Slot} {extra : Option Slot}
  {ctx : Context} {gone : Slot → Prop}

/-! ## Slots in use -/

/-- The slots from which everything in use is reached: a further one, if there is one, the bound
slots and the retained ones. -/
def IsRoot (m : Machine β) (extra : Option Slot) (ctx : Context) (r : Slot) : Prop :=
  extra = some r ∨ r ∈ m.globals.slots ∨ r ∈ m.retained ∨ r ∈ ctx.slots

/-- A path leads to the slot from a root. -/
def InUse (m : Machine β) (extra : Option Slot) (ctx : Context) (s : Slot) : Prop :=
  ∃ r, m.IsRoot extra ctx r ∧ m.store.Path r s

theorem mem_roots_iff_isRoot : s ∈ extra.toList ++ m.roots ctx ↔ m.IsRoot extra ctx s := by
  rw [List.mem_append, Option.mem_toList, mem_roots_iff, IsRoot]

theorem reaches_iff_inUse :
    m.store.Reaches (extra.toList ++ m.roots ctx) s ↔ m.InUse extra ctx s := by
  simp only [Store.reaches_iff_exists_path, mem_roots_iff_isRoot, InUse]

theorem reaches_roots_iff_inUse : m.store.Reaches (m.roots ctx) s ↔ m.InUse none ctx s :=
  @reaches_iff_inUse _ m s none ctx

/-- Which slots are in use does not depend on the order of the retained slots. -/
theorem inUse_congr_retained {order : List Slot} (h : ∀ s, s ∈ order ↔ s ∈ m.retained) :
    { m with retained := order }.InUse extra ctx s ↔ m.InUse extra ctx s := by
  simp only [InUse, IsRoot, h]

/-! ## Shedding slots -/

/-- The machine `m'` is `m` after the release of `rs`: the live slots with `gone`, each of them
once. -/
structure Sheds (m : Machine β) (rs : List Slot) (gone : Slot → Prop) (m' : Machine β) : Prop where
  releases : Releases m rs m'
  mem_iff : ∀ s, s ∈ rs ↔ m.store.isLive s = true ∧ gone s
  nodup : rs.Nodup
  /-- The store has counted a release for each of the slots. -/
  counted : m'.store.tally.released = m.store.tally.released + rs.length
  /-- The released slots are live no longer; every other slot is live or stale as it was, with the
  value that it had. -/
  get? : ∀ s, m'.store.get? s = if s ∈ rs then none else m.store.get? s
  /-- Of the retained slots exactly those that were released are retained no longer. -/
  retained : m'.retained = m.retained.filter (· ∉ rs)

theorem Releases.counted (h : Releases m rs m') :
    m'.store.tally.released = m.store.tally.released + rs.length := by
  induction h with
  | nil m => rfl
  | @cons m m' s v rs hs hr ih =>
    have hone : (m.vacate s v).store.tally.released = m.store.tally.released + 1 := by
      rw [store_vacate]
      rfl
    rw [ih, hone, List.length_cons]
    omega

theorem Releases.sheds (h : Releases m rs m')
    (hrs : ∀ s, s ∈ rs ↔ m.store.isLive s = true ∧ gone s) : Sheds m rs gone m' :=
  ⟨h, hrs, h.nodup, h.counted, fun _ => h.get?, h.retained⟩

/-- The slots that are in use stay so when none of them is released. -/
theorem Releases.inUse_iff (h : Releases m rs m') (hrs : ∀ r ∈ rs, ¬ m.InUse extra ctx r) :
    m'.InUse extra ctx t ↔ m.InUse extra ctx t := by
  have hunreached : ∀ r ∈ rs, ¬ m.store.Reaches (extra.toList ++ m.roots ctx) r := fun r hr =>
    mt reaches_iff_inUse.1 (hrs r hr)
  have hroots : m'.roots ctx = m.roots ctx := h.roots ctx fun r hr hreach =>
    hunreached r hr (hreach.mono (List.subset_append_right ..))
  rw [← reaches_iff_inUse, hroots, h.reaches_iff hunreached, reaches_iff_inUse]

/-! ## The search and the end of a statement -/

/-- The search ends and finds exactly the slots in use, in whatever order it visits the retained
ones. What was allocated and is in use is given back in its order if it is live; what was allocated
and is not in use is released if it is live; and afterwards the same slots are in use. -/
theorem reach_exact (m : Machine β) (extra : Option Slot) (ctx : Context) :
    let roots := extra.toList ++ m.roots ctx
    let found := m.store.reach roots
    (∃ n ≤ roots.length + m.store.unseen .empty,
      (workOff m.store.look)^[n] (.empty, roots) = (found, [])) ∧
    (∀ s, s ∈ found ↔ m.InUse extra ctx s) ∧
    (∀ s, m.isReachable ctx s = true ↔ m.InUse none ctx s) ∧
    (∀ order, (∀ s, s ∈ order ↔ s ∈ m.retained) →
      ∀ s, s ∈ m.store.reach (extra.toList ++ { m with retained := order }.roots ctx) ↔ s ∈ found) ∧
    ∀ allocated,
      let after := (m.reclaim allocated extra ctx).2
      (∃ rs, Sheds m rs (fun s => s ∈ allocated ∧ s ∉ found) after) ∧
      (m.reclaim allocated extra ctx).1 =
        allocated.filter (fun s => s ∈ found ∧ m.store.isLive s = true) ∧
      after.retained = m.retained ∧
      ∀ s, after.InUse extra ctx s ↔ m.InUse extra ctx s := by
  intro roots found
  have hfound : ∀ s, s ∈ found ↔ m.InUse extra ctx s := fun s =>
    Store.mem_reach.trans reaches_iff_inUse
  refine ⟨Store.exists_iterate_reachFrom .empty roots, hfound, fun s => ?_,
    fun order horder s => ?_, fun allocated => ?_⟩
  · exact isReachable_iff.trans reaches_roots_iff_inUse
  · have hreach : m.store.Reaches (extra.toList ++ { m with retained := order }.roots ctx) s ↔
        { m with retained := order }.InUse extra ctx s :=
      reaches_iff_inUse (m := { m with retained := order })
    rw [Store.mem_reach, hreach, inUse_congr_retained horder, hfound]
  · obtain ⟨rs, hrel, hrs⟩ := exists_releases_reclaim m allocated extra ctx
    have hunused : ∀ r ∈ rs, ¬ m.InUse extra ctx r := fun r hr =>
      mt reaches_iff_inUse.2 ((hrs r).1 hr).2.2
    refine ⟨⟨rs, hrel.sheds fun s => ?_⟩, ?_, ?_, fun s => hrel.inUse_iff hunused⟩
    · rw [hrs, hfound, reaches_iff_inUse]
      exact and_left_comm
    · simp only [reclaim, List.partition_eq_filter_filter, List.filter_filter, roots, found]
      refine List.filter_congr fun s _ => ?_
      simp [and_comm]
    · have hspared : ∀ r ∈ rs, ¬ m.store.Reaches (m.roots ctx) r := fun r hr hreach =>
        hunused r hr (reaches_iff_inUse.1 (hreach.mono (List.subset_append_right ..)))
      exact hrel.retained_eq hspared

/-- A list that holds itself, a text and a stale slot. It is retained, as the text is; whichever of
the two is visited first, the search finds both and the stale slot, but not the second list. -/
theorem reach_exact_cyclic :
    let base : Machine Unit := ((((fresh {} : Machine Unit).allocate (.text "shared")).2.allocate
      (.list [⟨1, 0⟩, ⟨0, 0⟩, ⟨9, 0⟩])).2.allocate (.list [⟨1, 0⟩])).2
    let m : Machine Unit := { base with retained := [⟨1, 0⟩, ⟨0, 0⟩] }
    let m' : Machine Unit := { base with retained := [⟨0, 0⟩, ⟨1, 0⟩] }
    (∀ s, s ∈ m'.retained ↔ s ∈ m.retained) ∧
      (∀ s, s ∈ m.store.reach (m'.roots none) ↔ s ∈ m.store.reach (m.roots none)) ∧
      m.isReachable none ⟨9, 0⟩ = true ∧ ¬ m.InUse none none ⟨2, 0⟩ ∧
      (m.reclaim [⟨2, 0⟩, ⟨1, 0⟩, ⟨9, 0⟩, ⟨0, 0⟩] none none).1 = [⟨1, 0⟩, ⟨0, 0⟩] := by
  intro base m m'
  have horder : ∀ s, s ∈ m'.retained ↔ s ∈ m.retained := by simp [m, m', or_comm]
  obtain ⟨-, -, htest, hvisit, -⟩ := reach_exact m none none
  refine ⟨horder, hvisit m'.retained horder, by cbv, ?_, by cbv⟩
  rw [← htest]
  cbv
  exact Bool.false_ne_true

/-! ## Releasing a tree -/

/-- What a release of a tree does with a pending slot: the value of a live one is taken out, and its
items are pending, the last one first. -/
def takeOut (m : Machine β) (s : Slot) : Machine β × List Slot :=
  match m.value s with
  | .error _ => (m, [])
  | .ok v => (m.vacate s v, v.items.reverse)

theorem takeOut_of_error {e : Error} (h : m.value s = .error e) : m.takeOut s = (m, []) := by
  rw [takeOut, h]

theorem takeOut_of_ok {v : Value β} (h : m.value s = .ok v) :
    m.takeOut s = (m.vacate s v, v.items.reverse) := by
  rw [takeOut, h]

/-- A turn that hands over as many items as it takes from the store, before further turns. -/
theorem exists_iterate_cons {visit : Machine β → Slot → Machine β × List Slot} {last : Machine β}
    {more pending : List Slot} (hvisit : visit m s = (m', more))
    (hweight : m'.store.weight + more.length = m.store.weight)
    (h : ∃ n, n + last.store.weight = (more ++ pending).length + m'.store.weight ∧
      (workOff visit)^[n] (m', more ++ pending) = (last, [])) :
    ∃ n, n + last.store.weight = (s :: pending).length + m.store.weight ∧
      (workOff visit)^[n] (m, s :: pending) = (last, []) := by
  obtain ⟨n, hn, hturns⟩ := h
  refine ⟨n + 1, ?_, (iterate_workOff_cons hvisit pending n).trans hturns⟩
  rw [List.length_append] at hn
  rw [List.length_cons]
  omega

theorem weight_takeOut {v : Value β} (h : m.value s = .ok v) :
    (m.vacate s v).store.weight + v.items.reverse.length = m.store.weight := by
  rw [List.length_reverse]
  exact weight_vacate h

/-- The release of a tree ends, after as many turns as there are pending slots and items of the
lists that it releases. -/
theorem exists_iterate_releaseAll (m : Machine β) (pending : List Slot) :
    ∃ n, n + (m.releaseAll pending).store.weight = pending.length + m.store.weight ∧
      (workOff takeOut)^[n] (m, pending) = (m.releaseAll pending, []) := by
  fun_induction releaseAll m pending with
  | case1 m => exact ⟨0, rfl, rfl⟩
  | case2 m s pending e hv ih => exact exists_iterate_cons (takeOut_of_error hv) rfl ih
  | case3 m s pending v hv ih => exact exists_iterate_cons (takeOut_of_ok hv) (weight_takeOut hv) ih

/-- Releasing a tree ends, and it releases exactly the live slots on paths from its top, each one
once. -/
theorem releaseTree_exact (m : Machine β) (s : Slot) :
    let after := m.releaseTree s
    (∃ n, n + after.store.weight = 1 + m.store.weight ∧
      (workOff takeOut)^[n] (m, [s]) = (after, [])) ∧
    ∃ rs, Sheds m rs (m.store.Path s) after := by
  intro after
  obtain ⟨rs, hrel, hrs⟩ := exists_releases_releaseAll m [s]
  refine ⟨exists_iterate_releaseAll m [s], rs, hrel.sheds fun t => ?_⟩
  rw [hrs, Store.reaches_singleton_iff]

end SlotScript.Machine

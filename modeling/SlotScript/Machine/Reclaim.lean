import SlotScript.Machine
import SlotScript.Store.Reach
import SlotScript.Store.Weight

/-!
# Releasing what is no longer needed

Three releases of more than one slot. `releaseTree` releases a slot and everything below it.
`releaseUnreachable` does the same but spares what can still be reached from a binding or a retained
slot. `reclaim` goes through the slots that a statement allocated and releases those that nothing
keeps.
-/

namespace SlotScript.Machine

variable {β : Type}

/-- The slots from which everything in use can be reached: global and local bindings and retained
slots. -/
def roots (m : Machine β) (ctx : Context) : List Slot :=
  m.globals.slots ++ m.retained ++ ctx.slots

/-- Whether a slot can be reached from a binding or a retained slot. -/
def isReachable (m : Machine β) (ctx : Context) (s : Slot) : Bool :=
  s ∈ m.store.reach (m.roots ctx)

/-- Vacating a slot makes the store lighter by the items of its value. -/
theorem weight_vacate {m : Machine β} {s : Slot} {v : Value β} (h : m.value s = .ok v) :
    (m.vacate s v).store.weight + v.items.length = m.store.weight := by
  have hg : m.store.get? s = some v := by
    simp only [value, Store.get] at h
    split at h
    · next hw => exact hw.trans (congrArg some (Except.ok.inj h))
    · cases h
  rw [← Store.weight_vacate hg]
  simp only [vacate, discard, notify]
  split <;> rfl

/-- Releases the pending slots and everything below them, the last item of a list first. Slots that
are not live are passed over. -/
def releaseAll (m : Machine β) : List Slot → Machine β
  | [] => m
  | s :: pending =>
    match _hv : m.value s with
    | .error _ => m.releaseAll pending
    | .ok v => (m.vacate s v).releaseAll (v.items.reverse ++ pending)
termination_by pending => pending.length + m.store.weight
decreasing_by
  · simp only [List.length_cons]
    omega
  · have := weight_vacate _hv
    simp only [List.length_append, List.length_reverse, List.length_cons]
    omega

def releaseTree (m : Machine β) (s : Slot) : Machine β :=
  m.releaseAll [s]

/-- Like `releaseAll`, but spares what can be reached from a binding or a retained slot. -/
def releaseAllUnreachable (m : Machine β) (ctx : Context) : List Slot → Machine β
  | [] => m
  | s :: pending =>
    if m.isReachable ctx s then m.releaseAllUnreachable ctx pending
    else
      match _hv : m.value s with
      | .error _ => m.releaseAllUnreachable ctx pending
      | .ok v => (m.vacate s v).releaseAllUnreachable ctx (v.items.reverse ++ pending)
termination_by pending => pending.length + m.store.weight
decreasing_by
  · simp only [List.length_cons]
    omega
  · simp only [List.length_cons]
    omega
  · have := weight_vacate _hv
    simp only [List.length_append, List.length_reverse, List.length_cons]
    omega

/-- Releases a slot and everything below it, except what can be reached from a binding or a retained
slot. -/
def releaseUnreachable (m : Machine β) (ctx : Context) (s : Slot) : Machine β :=
  m.releaseAllUnreachable ctx [s]

/-- Takes the value out of a slot that is live and lets go of it. Which slots are retained stays as
it is. -/
def releaseIfLive (m : Machine β) (s : Slot) : Machine β :=
  match m.value s with
  | .ok v => { m with store := m.store.vacate s v }.discard v
  | .error _ => m

/-- Releases what a statement allocated and nothing keeps: neither its result, nor a binding, nor a
retained slot, directly or through lists. Also gives the slots that are kept and live. -/
def reclaim (m : Machine β) (allocated : List Slot) (result : Option Slot) (ctx : Context) :
    List Slot × Machine β :=
  let kept := m.store.reach (result.toList ++ m.roots ctx)
  let (stay, go) := allocated.partition fun s => s ∈ kept
  (stay.filter m.store.isLive, go.foldl releaseIfLive m)

end SlotScript.Machine

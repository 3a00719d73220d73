import SlotScript.Proofs.Machine.Releases
import SlotScript.Proofs.Store.Counters
import SlotScript.Session

/-!
# The objects that a machine owns

An owned host value with a destructor is a payload. It comes into a machine with the value that it
is, and it goes when the destructor runs: when the value is taken out of its slot, when another one
is put in its place, or at once if there is no live slot to put the value into. `Step` lists what
can happen to the values of a machine, and a `Trail` is a sequence of such steps.

One step takes every payload into account (`Takes.perm`), so every trail does (`Trail.perm`): what
has been handed over is held by a live slot, has been destroyed, or was withdrawn by a change in
place. A destructor that runs is that of the value which the step has let go of (`Trail.destroyed`).

Everything here is about multisets of payloads; `doomed` and `destroyed` are lists, because
destructors run in an order.
-/

namespace SlotScript

variable {β : Type}

/-! ## Payloads in a store -/

namespace Store

variable {st st' : Store β} {s : Slot}

/-- The payload of a slot, in a list of its own. -/
def payload (st : Store β) (s : Slot) : List Int :=
  ((st.get? s).bind Value.doomed?).toList

/-- The payloads of all slots, by place. -/
def payloads (st : Store β) : List Int :=
  st.slots.flatMap st.payload

theorem payload_of_get? {v : Value β} (h : st.get? s = some v) :
    st.payload s = v.doomed?.toList := by
  rw [payload, h, Option.bind_some]

theorem payload_of_get?_eq_none (h : st.get? s = none) : st.payload s = [] := by
  rw [payload, h]
  rfl

/-- The payload of one slot apart from the others. -/
theorem payloads_perm (st : Store β) (s : Slot) :
    st.payloads.Perm (st.payload s ++ (st.slots.filter (· ≠ s)).flatMap st.payload) := by
  by_cases hs : s ∈ st.slots
  · have hperm : st.slots.Perm (s :: st.slots.filter (· ≠ s)) := by
      have herase : st.slots.erase s = st.slots.filter (· ≠ s) := by
        rw [(nodup_slots st).erase_eq_filter]
        exact List.filter_congr fun t _ => by by_cases ht : t = s <;> simp [ht]
      exact herase ▸ List.perm_cons_erase hs
    exact hperm.flatMap_right st.payload
  · have hall : st.slots.filter (· ≠ s) = st.slots :=
      List.filter_eq_self.2 fun t ht => decide_eq_true fun heq => hs (heq ▸ ht)
    have hnone : st.get? s = none := by
      rwa [← isLive_eq_false_iff, ← Bool.not_eq_true, ← mem_slots_iff]
    rw [payload_of_get?_eq_none hnone, hall]
    exact List.Perm.refl _

/-- When one slot changes only, the payloads change by what the slot has now and had before. -/
theorem payloads_append_perm {now : Option (Value β)}
    (h : ∀ t, st'.get? t = if t = s then now else st.get? t) :
    (st.payloads ++ (now.bind Value.doomed?).toList).Perm (st'.payloads ++ st.payload s) := by
  have hnow : st'.payload s = (now.bind Value.doomed?).toList := by rw [payload, h, if_pos rfl]
  have hlive : ∀ t, t ≠ s → (t ∈ st'.slots ↔ t ∈ st.slots) := by
    intro t ht
    rw [mem_slots_iff, mem_slots_iff, isLive, isLive, h, if_neg ht]
  have hothers : (st'.slots.filter (· ≠ s)).Perm (st.slots.filter (· ≠ s)) := by
    refine (List.perm_ext_iff_of_nodup ((nodup_slots st').filter _)
      ((nodup_slots st).filter _)).2 fun t => ?_
    simp only [List.mem_filter, decide_eq_true_eq]
    exact and_congr_left fun ht => hlive t ht
  have hsame : (st.slots.filter (· ≠ s)).flatMap st'.payload =
      (st.slots.filter (· ≠ s)).flatMap st.payload := by
    refine List.flatMap_congr fun t ht => ?_
    rw [payload, payload, h, if_neg (by simpa using (List.mem_filter.1 ht).2)]
  have hrest := hothers.flatMap_right st'.payload
  rw [hsame] at hrest
  refine List.perm_iff_count.2 fun id => ?_
  have hbefore := (payloads_perm st s).count_eq id
  have hafter := (payloads_perm st' s).count_eq id
  have hcount := hrest.count_eq id
  rw [hnow] at hafter
  simp only [List.count_append] at hbefore hafter ⊢
  omega

/-- Stores with the same values have the same payloads. -/
theorem payloads_perm_of_get?_eq (h : ∀ t, st'.get? t = st.get? t) :
    st.payloads.Perm st'.payloads := by
  have hslots : st.slots.Perm st'.slots := by
    refine (List.perm_ext_iff_of_nodup (nodup_slots st) (nodup_slots st')).2 fun t => ?_
    rw [mem_slots_iff, mem_slots_iff, isLive, isLive, h]
  have hsame : st'.payload = st.payload := funext fun t => by rw [payload, payload, h]
  rw [payloads, payloads, hsame]
  exact hslots.flatMap_right _

theorem payloads_congr (h : st'.places = st.places) : st'.payloads = st.payloads := by
  rw [payloads, payloads, slots_congr h]
  exact List.flatMap_congr fun t _ => by rw [payload, payload, get?_congr h]

end Store

namespace Machine

variable {m m' m'' : Machine β} {s : Slot} {v w : Value β}

/-- The ids of the objects whose destructors have run, first one first. -/
def destroyed (m : Machine β) : List Int :=
  m.notices.reverse.filterMap fun
    | .destroyed id => some id
    | _ => none

theorem doomed_eq : m.doomed = m.store.payloads := by
  rw [doomed, contents, List.filterMap_filterMap, List.filterMap_eq_flatMap_toList]
  refine List.flatMap_congr fun s _ => ?_
  rw [Store.payload]
  cases m.store.get? s <;> rfl

theorem destroyed_discard : (m.discard v).destroyed = m.destroyed ++ v.doomed?.toList := by
  unfold discard
  split
  · next id hid => simp [destroyed, notify, hid]
  · next hnone => simp [hnone]

/-! ## Steps -/

/-- What happens to the values of a machine. -/
inductive Step (β : Type) where
  /-- A value is stored in the next slot. -/
  | store (v : Value β)
  /-- A value is taken out of its slot. -/
  | release (s : Slot) (v : Value β)
  /-- A value is put in the place of an old one. -/
  | overwrite (s : Slot) (old v : Value β)
  /-- A value that was to be put into a stale slot is let go. -/
  | refuse (s : Slot) (v : Value β)
  /-- The value of a slot is changed in place. -/
  | amend (s : Slot) (old v : Value β)
  /-- No value changes. -/
  | aside

namespace Step

/-- The payload that is handed over to the machine in a step. -/
def given : Step β → List Int
  | .store v => v.doomed?.toList
  | .overwrite _ _ v => v.doomed?.toList
  | .refuse _ v => v.doomed?.toList
  | .amend _ old v => if v.doomed? = old.doomed? then [] else v.doomed?.toList
  | _ => []

/-- The payload whose destructor runs in a step. -/
def destroyed : Step β → List Int
  | .release _ v => v.doomed?.toList
  | .overwrite _ old _ => old.doomed?.toList
  | .refuse _ v => v.doomed?.toList
  | _ => []

/-- The payload that leaves the machine in a step without being destroyed. -/
def withdrawn : Step β → List Int
  | .amend _ old v => if v.doomed? = old.doomed? then [] else old.doomed?.toList
  | _ => []

end Step

/-- The step leads from one machine to the other. -/
inductive Takes : Machine β → Step β → Machine β → Prop
  | store (m : Machine β) (v : Value β) : Takes m (.store v) (m.allocate v).2
  | release {m : Machine β} {s : Slot} {v : Value β} (h : m.store.get? s = some v) :
      Takes m (.release s v) (m.vacate s v)
  | overwrite {m : Machine β} {s : Slot} {old : Value β} (h : m.store.get? s = some old)
      (v : Value β) : Takes m (.overwrite s old v) ({ m with store := m.store.put s v }.discard old)
  | refuse {m : Machine β} {s : Slot} (h : m.store.get? s = none) (v : Value β) :
      Takes m (.refuse s v) (m.discard v)
  | amend {m : Machine β} {s : Slot} {old : Value β} (h : m.store.get? s = some old)
      (v : Value β) : Takes m (.amend s old v) { m with store := m.store.put s v }
  | aside {m m' : Machine β} (hp : m'.store.places = m.store.places)
      (hv : m'.store.vacant = m.store.vacant) (hd : m'.destroyed = m.destroyed) : Takes m .aside m'

namespace Takes

variable {step : Step β}

theorem wf (h : Takes m step m') (hm : m.store.WF) : m'.store.WF := by
  cases h with
  | store v => exact hm.allocate
  | release hs =>
    rw [store_vacate]
    exact hm.vacate hs
  | overwrite hs v =>
    rw [store_discard]
    exact hm.put hs
  | refuse hs v =>
    rw [store_discard]
    exact hm
  | amend hs v => exact hm.put hs
  | aside hp hv hd => exact hm.congr hp hv

/-- A step destroys the payload of the value that it lets go of. -/
theorem destroyed (h : Takes m step m') : m'.destroyed = m.destroyed ++ step.destroyed := by
  cases h with
  | store v => exact (List.append_nil _).symm
  | release hs => exact destroyed_discard
  | overwrite hs v => exact destroyed_discard
  | refuse hs v => exact destroyed_discard
  | amend hs v => exact (List.append_nil _).symm
  | aside hp hv hd => rw [hd]; exact (List.append_nil _).symm

/-- A payload that is held before a step or handed over in it is held after it, or destroyed or
withdrawn in it. -/
theorem perm (h : Takes m step m') (hm : m.store.WF) :
    (m.doomed ++ step.given).Perm (m'.doomed ++ step.destroyed ++ step.withdrawn) := by
  rw [doomed_eq, doomed_eq]
  cases h with
  | store v =>
    have hperm := Store.payloads_append_perm fun t => hm.get?_allocate (v := v) (t := t)
    rw [Store.payload_of_get?_eq_none hm.get?_nextSlot] at hperm
    simpa [Step.given, Step.destroyed, Step.withdrawn, allocate] using hperm
  | @release s v hs =>
    have hperm := Store.payloads_append_perm fun t => Store.get?_vacate (v := v) (t := t) hs
    rw [Store.payload_of_get? hs] at hperm
    simpa [Step.given, Step.destroyed, Step.withdrawn] using hperm
  | overwrite hs v =>
    have hperm := Store.payloads_append_perm fun t => Store.get?_put (v := v) (t := t) hs
    rw [Store.payload_of_get? hs] at hperm
    simpa [Step.given, Step.destroyed, Step.withdrawn] using hperm
  | refuse hs v => simp [Step.given, Step.destroyed, Step.withdrawn]
  | @amend s old hs v =>
    have hperm := Store.payloads_append_perm fun t => Store.get?_put (v := v) (t := t) hs
    rw [Store.payload_of_get? hs] at hperm
    by_cases hsame : v.doomed? = old.doomed?
    · have hkept := (List.perm_append_right_iff _).1 (hsame ▸ hperm)
      simpa [Step.given, Step.destroyed, Step.withdrawn, hsame] using hkept
    · simpa [Step.given, Step.destroyed, Step.withdrawn, hsame] using hperm
  | aside hp hv hd =>
    rw [Store.payloads_congr hp]
    simp [Step.given, Step.destroyed, Step.withdrawn]

end Takes

/-! ## Trails -/

/-- The steps lead from one machine to the other, one after another. -/
inductive Trail : Machine β → List (Step β) → Machine β → Prop
  | nil (m : Machine β) : Trail m [] m
  | cons {m m' m'' : Machine β} {step : Step β} {steps : List (Step β)} (h : Takes m step m')
      (hrest : Trail m' steps m'') : Trail m (step :: steps) m''

namespace Trail

variable {step : Step β} {steps steps' : List (Step β)}

theorem one (h : Takes m step m') : Trail m [step] m' :=
  .cons h (.nil m')

theorem trans (h : Trail m steps m') (h' : Trail m' steps' m'') :
    Trail m (steps ++ steps') m'' := by
  induction h with
  | nil m => exact h'
  | cons hstep _ ih => exact .cons hstep (ih h')

/-- Between two steps of a trail there is a machine. -/
theorem split (h : Trail m (steps ++ steps') m'') :
    ∃ m', Trail m steps m' ∧ Trail m' steps' m'' := by
  induction steps generalizing m with
  | nil => exact ⟨m, .nil m, h⟩
  | cons step steps ih =>
    cases h with
    | cons hstep hrest =>
      obtain ⟨m', h, h'⟩ := ih hrest
      exact ⟨m', .cons hstep h, h'⟩

theorem wf (h : Trail m steps m') (hm : m.store.WF) : m'.store.WF := by
  induction h with
  | nil m => exact hm
  | cons hstep _ ih => exact ih (hstep.wf hm)

/-- The destructors that run on a trail are those of the values that its steps let go of. -/
theorem destroyed (h : Trail m steps m') :
    m'.destroyed = m.destroyed ++ steps.flatMap Step.destroyed := by
  induction h with
  | nil m => exact (List.append_nil _).symm
  | cons hstep _ ih => rw [ih, hstep.destroyed, List.flatMap_cons, List.append_assoc]

/-- No payload is lost on a trail and none comes from nowhere. -/
theorem perm (h : Trail m steps m') (hm : m.store.WF) :
    (m.doomed ++ steps.flatMap Step.given).Perm
      (m'.doomed ++ steps.flatMap Step.destroyed ++ steps.flatMap Step.withdrawn) := by
  induction h with
  | nil m => simp
  | cons hstep _ ih =>
    refine List.perm_iff_count.2 fun id => ?_
    have hfirst := (hstep.perm hm).count_eq id
    have hlater := (ih (hstep.wf hm)).count_eq id
    simp only [List.flatMap_cons, List.count_append] at hfirst hlater ⊢
    omega

end Trail

/-- On the way from `m` to `m'` the payloads `given` are handed over, in this order, and the
payloads `withdrawn` are taken back. -/
def Exchanges (m : Machine β) (given withdrawn : List Int) (m' : Machine β) : Prop :=
  ∃ steps, Trail m steps m' ∧ steps.flatMap Step.given = given ∧
    steps.flatMap Step.withdrawn = withdrawn

namespace Exchanges

variable {given given' withdrawn withdrawn' : List Int} {rs : List Slot}

theorem refl (m : Machine β) : Exchanges m [] [] m :=
  ⟨[], .nil m, rfl, rfl⟩

theorem trans (h : Exchanges m given withdrawn m') (h' : Exchanges m' given' withdrawn' m'') :
    Exchanges m (given ++ given') (withdrawn ++ withdrawn') m'' := by
  obtain ⟨steps, ht, rfl, rfl⟩ := h
  obtain ⟨steps', ht', rfl, rfl⟩ := h'
  exact ⟨steps ++ steps', ht.trans ht', List.flatMap_append, List.flatMap_append⟩

/-- Nothing is handed over or taken back afterwards. -/
theorem trans_nil (h : Exchanges m given withdrawn m') (h' : Exchanges m' [] [] m'') :
    Exchanges m given withdrawn m'' := by
  have h := h.trans h'
  rwa [List.append_nil, List.append_nil] at h

theorem one {step : Step β} (h : Takes m step m') : Exchanges m step.given step.withdrawn m' :=
  ⟨[step], .one h, List.append_nil _, List.append_nil _⟩

theorem aside (hp : m'.store.places = m.store.places) (hv : m'.store.vacant = m.store.vacant)
    (hd : m'.destroyed = m.destroyed) : Exchanges m [] [] m' :=
  .one (.aside hp hv hd)

theorem allocate (m : Machine β) (v : Value β) :
    Exchanges m v.doomed?.toList [] (m.allocate v).2 :=
  .one (.store m v)

theorem releases (h : Releases m rs m') : Exchanges m [] [] m' := by
  induction h with
  | nil m => exact .refl m
  | cons hs _ ih => exact (Exchanges.one (.release hs)).trans ih

/-- What is handed over is held in the end, or was destroyed or withdrawn on the way. -/
theorem perm (h : Exchanges m given withdrawn m') (hm : m.store.WF) :
    ∃ lost, m'.destroyed = m.destroyed ++ lost ∧
      (m.doomed ++ given).Perm (m'.doomed ++ lost ++ withdrawn) := by
  obtain ⟨steps, ht, rfl, rfl⟩ := h
  exact ⟨_, ht.destroyed, ht.perm hm⟩

end Exchanges

end Machine

end SlotScript

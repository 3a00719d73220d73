import SlotScript.Proofs.Store.History

/-!
# A store is a map from slots that never repeat

A client of a store stores values and uses the slots it was handed: it looks at their values,
changes them and releases them. The log of a client has every operation with the reply it was given.
From the log alone one can tell which slots are outstanding and what each of them holds:
`Outstanding` and `held` know nothing of places, generations or the list of vacant places.

`refines_runOps` says that the store answers as the log has it, after every sequence of operations.
The slots of one place take turns, so two slots that were handed out can only be equal if the
generations of a place come round, which takes `2 ^ 32` releases of that place.
-/

namespace SlotScript.Store

open Event (endings Sparing)

variable {β : Type} {st : Store β} {s t : Slot}

/-! ## Operations and their log -/

/-- What a client can do with a slot. -/
inductive Use (β : Type) where
  | release
  | get
  | modify (f : Value β → Value β)
  | replace (v : Value β)
  | kind
  | isLive

namespace Use

/-- The type of the reply to a use. -/
@[reducible] def Reply {β : Type} : Use β → Type
  | .release => Except Error (Value β)
  | .get => Except Error (Value β)
  | .modify _ => Except Error Unit
  | .replace _ => Except Error (Value β)
  | .kind => Except Error Kind
  | .isLive => Bool

/-- Whether a reply says that the slot was accepted. -/
def Accepts : (u : Use β) → u.Reply → Prop
  | .release, r => ∃ v, r = .ok v
  | .get, r => ∃ v, r = .ok v
  | .modify _, r => r = .ok ()
  | .replace _, r => ∃ v, r = .ok v
  | .kind, r => ∃ k, r = .ok k
  | .isLive, r => r = true

/-- The reply to a use of a slot that is not accepted. -/
def refusal (s : Slot) : (u : Use β) → u.Reply
  | .release => .error (.invalidHandle s)
  | .get => .error (.invalidHandle s)
  | .modify _ => .error (.invalidHandle s)
  | .replace _ => .error (.invalidHandle s)
  | .kind => .error (.invalidHandle s)
  | .isLive => false

/-- What a slot holds after a use, if it held something before. -/
def after : Use β → Value β → Option (Value β)
  | .release, _ => none
  | .modify f, v => some (f v)
  | .replace w, _ => some w
  | .get, v => some v
  | .kind, v => some v
  | .isLive, v => some v

end Use

/-- An operation of a client. -/
inductive Op (β : Type) where
  | allocate (v : Value β)
  | use (s : Slot) (u : Use β)

/-- An operation with its reply. -/
inductive Entry (β : Type) where
  | allocated (v : Value β) (s : Slot)
  | used (s : Slot) (u : Use β) (reply : u.Reply)

/-- Gives an operation's error, or its result and its store. -/
def settle {α : Type} (st : Store β) : Except Error (α × Store β) → Except Error α × Store β
  | .error e => (.error e, st)
  | .ok (a, st') => (.ok a, st')

/-- Uses a slot. -/
def useSlot (st : Store β) (s : Slot) : (u : Use β) → u.Reply × Store β
  | .release => st.settle (st.release s)
  | .get => (st.get s, st)
  | .modify f => st.settle ((st.modify s f).map ((), ·))
  | .replace v => st.settle (st.replace s v)
  | .kind => (st.kind s, st)
  | .isLive => (st.isLive s, st)

/-- Carries out an operation and writes it down. -/
def runOp (st : Store β) : Op β → Entry β × Store β
  | .allocate v => (.allocated v (st.allocate v).1, (st.allocate v).2)
  | .use s u => (.used s u (st.useSlot s u).1, (st.useSlot s u).2)

/-- Carries out operations; `log` has those before them, oldest first. -/
def runOps (log : List (Entry β)) (st : Store β) : List (Op β) → List (Entry β) × Store β
  | [] => (log, st)
  | op :: ops => runOps (log ++ [(st.runOp op).1]) (st.runOp op).2 ops

/-! ## What a log tells -/

namespace Entry

/-- The slot that an entry hands out. -/
def handed? : Entry β → Option Slot
  | .allocated _ s => some s
  | .used .. => none

/-- The slot whose release an entry tells. -/
def released? : Entry β → Option Slot
  | .used s .release (.ok _) => some s
  | _ => none

/-- What every slot holds after an entry. -/
def update (holds : Slot → Option (Value β)) : Entry β → Slot → Option (Value β)
  | .allocated v s, t => if t = s then some v else holds t
  | .used s u _, t => if t = s then (holds t).bind u.after else holds t

/-- The events that an entry tells. -/
def events (e : Entry β) : List Event :=
  (e.handed?.map Event.stored).toList ++ (e.released?.map Event.released).toList

end Entry

/-- The slots that were handed out, in order. -/
def handedOut (log : List (Entry β)) : List Slot :=
  log.filterMap Entry.handed?

/-- How often slots of a place were released. -/
def releasesAt (log : List (Entry β)) (i : Nat) : Nat :=
  ((log.filterMap Entry.released?).map Slot.index).count i

/-- A slot was handed out, and no release of it has succeeded since. -/
def Outstanding (log : List (Entry β)) (s : Slot) : Prop :=
  ∃ before e later, log = before ++ e :: later ∧ e.handed? = some s ∧
    ∀ e' ∈ later, e'.released? ≠ some s

/-- The value last stored through each slot. -/
def held (log : List (Entry β)) : Slot → Option (Value β) :=
  log.foldl Entry.update fun _ => none

/-- The store `st` does what the log says. -/
structure Refines (log : List (Entry β)) (st : Store β) : Prop where
  /-- No slot is handed out twice, unless some place is released `2 ^ 32` times. -/
  distinct : (∀ i, releasesAt log i < UInt32.size) → (handedOut log).Nodup
  /-- Each use accepts exactly the slots that are outstanding. -/
  accepted : ∀ s (u : Use β), u.Accepts (st.useSlot s u).1 ↔ Outstanding log s
  /-- An outstanding slot holds the value last stored through it. -/
  current : ∀ s, Outstanding log s → ∃ v, held log s = some v ∧ st.get s = .ok v
  /-- Any other slot is refused, and the store stays as it is. -/
  refused : ∀ s (u : Use β), ¬ Outstanding log s → st.useSlot s u = (u.refusal s, st)
  /-- The generation of a place is the number of its releases modulo `2 ^ 32`. -/
  generation : ∀ i, (st.generation i).toNat = releasesAt log i % UInt32.size

/-! ## Using a slot -/

theorem useSlot_of_stale (h : st.get? s = none) (u : Use β) :
    st.useSlot s u = (u.refusal s, st) := by
  cases u <;> simp [useSlot, Use.refusal, settle, release, get, modify, replace, kind, isLive, h,
    Except.map]

theorem not_accepts_refusal (s : Slot) (u : Use β) : ¬ u.Accepts (u.refusal s) := by
  cases u <;> simp [Use.Accepts, Use.refusal]

theorem accepts_useSlot {v : Value β} (h : st.get? s = some v) (u : Use β) :
    u.Accepts (st.useSlot s u).1 := by
  cases u <;> simp [Use.Accepts, useSlot, settle, release, get, modify, replace, kind, isLive, h,
    Except.map]

/-- A use changes the slot that it uses and no other one. -/
theorem get?_useSlot (st : Store β) (s : Slot) (u : Use β) (t : Slot) :
    (st.useSlot s u).2.get? t = if t = s then (st.get? t).bind u.after else st.get? t := by
  cases h : st.get? s with
  | none =>
    rw [useSlot_of_stale h]
    split
    · next hts => simp [hts, h]
    · rfl
  | some v =>
    by_cases hts : t = s
    · subst hts
      rw [if_pos rfl, h]
      cases u <;> simp [useSlot, release, modify, replace, h, settle, Except.map, get?_vacate h,
        get?_put h, Use.after]
    · rw [if_neg hts]
      cases u <;> simp [useSlot, release, modify, replace, h, settle, Except.map, get?_vacate h,
        get?_put h, hts]

theorem released?_useSlot_eq_some_iff {u : Use β} :
    (Entry.used s u (st.useSlot s u).1).released? = some t ↔
      t = s ∧ (∃ v, st.get? s = some v) ∧ ∀ v, u.after v = none := by
  cases h : st.get? s with
  | none =>
    rw [useSlot_of_stale h]
    cases u <;> simp [Entry.released?, Use.refusal]
  | some v =>
    cases u <;> simp [Entry.released?, useSlot, release, h, settle, Use.after, eq_comm]

theorem changes_useSlot (st : Store β) (s : Slot) (u : Use β) :
    st.Changes (Entry.used s u (st.useSlot s u).1).events (st.useSlot s u).2 := by
  cases h : st.get? s with
  | none =>
    rw [useSlot_of_stale h]
    cases u <;> exact .refl st
  | some v =>
    cases u with
    | release =>
      simp only [useSlot, release, h, settle]
      exact .vacate h rfl
    | modify f =>
      simp only [useSlot, modify, h, settle, Except.map]
      exact .put h _
    | replace w =>
      simp only [useSlot, replace, h, settle]
      exact .put h w
    | get => exact .refl st
    | kind => exact .refl st
    | isLive => exact .refl st

/-! ## Logs and stores go together -/

theorem outstanding_append_iff {log : List (Entry β)} {e : Entry β} :
    Outstanding (log ++ [e]) s ↔
      e.handed? = some s ∨ Outstanding log s ∧ e.released? ≠ some s := by
  constructor
  · rintro ⟨before, e', later, heq, hh, hl⟩
    rcases List.eq_nil_or_concat later with rfl | ⟨later', last, rfl⟩
    · obtain ⟨-, rfl⟩ := List.append_inj' heq rfl |>.imp id List.singleton_inj.1
      exact .inl hh
    · rw [List.concat_eq_append, ← List.cons_append, ← List.append_assoc] at heq
      obtain ⟨rfl, rfl⟩ := List.append_inj' heq rfl |>.imp id List.singleton_inj.1
      refine .inr ⟨⟨before, e', later', rfl, hh, fun x hx => hl x ?_⟩, hl e ?_⟩
      · simp [hx]
      · simp
  · rintro (hh | ⟨⟨before, e', later, rfl, hh, hl⟩, hn⟩)
    · exact ⟨log, e, [], rfl, hh, fun x hx => absurd hx List.not_mem_nil⟩
    · refine ⟨before, e', later ++ [e], by simp, hh, ?_⟩
      intro x hx
      rcases List.mem_append.1 hx with hx | hx
      · exact hl x hx
      · rwa [List.mem_singleton.1 hx]

theorem held_append (log : List (Entry β)) (e : Entry β) :
    held (log ++ [e]) = e.update (held log) := by
  simp [held]

theorem handedOut_append (log : List (Entry β)) (e : Entry β) :
    handedOut (log ++ [e]) = handedOut log ++ e.handed?.toList := by
  cases h : e.handed? <;> simp [handedOut, h]

/-- The events that a log tells. -/
def eventsOf (log : List (Entry β)) : List Event :=
  log.flatMap Entry.events

theorem mem_eventsOf_iff {log : List (Entry β)} : .stored s ∈ eventsOf log ↔ s ∈ handedOut log := by
  simp only [eventsOf, Entry.events, handedOut, List.mem_flatMap, List.mem_filterMap,
    List.mem_append, Option.mem_toList, Option.map_eq_some_iff]
  simp

theorem endings_eventsOf (log : List (Entry β)) :
    endings (eventsOf log) = (log.filterMap Entry.released?).map Slot.index := by
  induction log with
  | nil => rfl
  | cons e log ih =>
    have hcons : eventsOf (e :: log) = e.events ++ eventsOf log := List.flatMap_cons
    have he : endings e.events = (e.released?.map Slot.index).toList := by
      cases hh : e.handed? <;> cases hr : e.released? <;>
        simp [Entry.events, hh, hr, endings, Event.ended?]
    rw [hcons, Event.endings_append, ih, he]
    cases hr : e.released? <;> simp [hr]

/-- The log tells the whole history of the store and what it holds. -/
structure Agrees (log : List (Entry β)) (st : Store β) : Prop where
  accounts : Accounts (eventsOf log) st
  held_eq : ∀ s, held log s = st.get? s
  outstanding : ∀ s, Outstanding log s ↔ ∃ v, st.get? s = some v
  nodup : Sparing (eventsOf log) → (handedOut log).Nodup

namespace Agrees

variable {log : List (Entry β)}

theorem empty : Agrees [] (Store.empty : Store β) := by
  refine ⟨.empty, ?_, ?_, fun _ => List.nodup_nil⟩
  · intro s
    simp [held, get?, Store.empty]
  · intro s
    simp [Outstanding, get?, Store.empty]

theorem eventsOf_append (log : List (Entry β)) (e : Entry β) :
    eventsOf (log ++ [e]) = eventsOf log ++ e.events := by
  simp [eventsOf]

/-- A value is stored in a slot that was never handed out before. -/
theorem allocate (h : Agrees log st) (v : Value β) :
    Agrees (log ++ [.allocated v (st.allocate v).1]) (st.allocate v).2 := by
  have hslot : (st.allocate v).1 = st.nextSlot := rfl
  refine ⟨?_, ?_, ?_, ?_⟩
  · rw [eventsOf_append]
    exact h.accounts.changes (.store st v)
  · intro s
    rw [held_append, h.accounts.wf.get?_allocate, ← h.held_eq]
    rfl
  · intro s
    rw [outstanding_append_iff, h.accounts.wf.get?_allocate, h.outstanding]
    by_cases hs : s = st.nextSlot
    · simp [Entry.handed?, hslot, hs]
    · simp [Entry.handed?, Entry.released?, hslot, hs, Ne.symm hs]
  · intro hes
    rw [eventsOf_append] at hes
    rw [handedOut_append, Entry.handed?, hslot]
    have hnew := h.accounts.nextSlot_notMem hes.of_append
    rw [mem_eventsOf_iff] at hnew
    refine List.nodup_append.2 ⟨h.nodup hes.of_append, by simp, fun a ha b hb => ?_⟩
    rw [Option.toList_some, List.mem_singleton] at hb
    rintro rfl
    exact hnew (hb ▸ ha)

theorem use (h : Agrees log st) (s : Slot) (u : Use β) :
    Agrees (log ++ [.used s u (st.useSlot s u).1]) (st.useSlot s u).2 := by
  refine ⟨?_, ?_, ?_, ?_⟩
  · rw [eventsOf_append]
    exact h.accounts.changes (changes_useSlot st s u)
  · intro t
    rw [held_append, get?_useSlot, ← h.held_eq]
    rfl
  · intro t
    rw [outstanding_append_iff, get?_useSlot, h.outstanding, Ne, released?_useSlot_eq_some_iff]
    by_cases hts : t = s
    · subst hts
      cases hv : st.get? t with
      | none => simp [Entry.handed?]
      | some v => cases u <;> simp [Entry.handed?, Use.after]
    · simp [Entry.handed?, hts]
  · intro hes
    rw [eventsOf_append] at hes
    rw [handedOut_append]
    simpa [Entry.handed?] using h.nodup hes.of_append

theorem runOp (h : Agrees log st) (op : Op β) :
    Agrees (log ++ [(st.runOp op).1]) (st.runOp op).2 := by
  cases op with
  | allocate v => exact h.allocate v
  | use s u => exact h.use s u

theorem runOps (h : Agrees log st) (ops : List (Op β)) :
    Agrees (Store.runOps log st ops).1 (Store.runOps log st ops).2 := by
  induction ops generalizing log st with
  | nil => exact h
  | cons op ops ih => exact ih (h.runOp op)

theorem refines (h : Agrees log st) : Refines log st := by
  have hrel : ∀ i, (endings (eventsOf log)).count i = releasesAt log i := by
    intro i
    rw [endings_eventsOf]
    rfl
  have hstale : ∀ s, ¬ Outstanding log s → st.get? s = none := by
    intro s hs
    rw [h.outstanding] at hs
    exact Option.eq_none_iff_forall_ne_some.2 fun v hv => hs ⟨v, hv⟩
  refine ⟨fun hb => h.nodup fun i => ?_, fun s u => ⟨fun ha => ?_, fun ho => ?_⟩, ?_,
    fun s u hs => useSlot_of_stale (hstale s hs) u, ?_⟩
  · rw [hrel]
    exact hb i
  · refine Classical.byContradiction fun hs => ?_
    rw [useSlot_of_stale (hstale s hs)] at ha
    exact not_accepts_refusal s u ha
  · obtain ⟨v, hv⟩ := (h.outstanding s).1 ho
    exact accepts_useSlot hv u
  · intro s ho
    obtain ⟨v, hv⟩ := (h.outstanding s).1 ho
    exact ⟨v, (h.held_eq s).trans hv, get_eq_ok_iff.2 hv⟩
  · intro i
    rw [h.accounts.generation, hrel, UInt32.toNat_ofNat']

end Agrees

/-- After every sequence of operations the store is the map that the log of the operations tells. -/
theorem refines_runOps (ops : List (Op β)) :
    Refines (runOps [] (.empty : Store β) ops).1 (runOps [] (.empty : Store β) ops).2 :=
  (Agrees.empty.runOps ops).refines

/-- A place that is used again is handed out as another slot, and the old one is refused. -/
theorem refines_runOps_reuse :
    let log := runOps [] (.empty : Store Unit)
      [.allocate .nil, .use ⟨0, 0⟩ .release, .allocate (.text "again"), .use ⟨0, 0⟩ (.replace .nil)]
    handedOut log.1 = [⟨0, 0⟩, ⟨0, 1⟩] ∧ (handedOut log.1).Nodup ∧ ¬ Outstanding log.1 ⟨0, 0⟩ ∧
      ∃ v, held log.1 ⟨0, 1⟩ = some v ∧ log.2.get ⟨0, 1⟩ = .ok v := by
  intro log
  have h : Refines log.1 log.2 := refines_runOps _
  refine ⟨rfl, h.distinct fun i => ?_, ?_, h.current _ ?_⟩
  · have hone : releasesAt log.1 i ≤ 1 := List.count_le_length
    exact Nat.lt_of_le_of_lt hone (by decide)
  · rw [← h.accepted _ .isLive]
    exact Bool.false_ne_true
  · rw [← h.accepted _ .isLive]
    exact rfl

end SlotScript.Store

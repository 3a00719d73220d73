import SlotScript.Proofs.Store.Counters

/-!
# The texts of a store

A store counts the texts that are stored in a slot and the texts that are taken out by a release.
What is done to the value of a slot in place is not counted, though it can put a text where there
was none, or something else where there was a text. So the two counters alone do not tell how many
slots hold a text; together with the changes in place they do, after every sequence of operations
(`TextBooks`).

What changes is one slot at a time, as `get?` sees it: the slots with a text then change by that one
(`length_textSlots_add`).
-/

namespace SlotScript.Store

variable {β : Type} {st st' : Store β} {s : Slot} {v w : Value β}

/-! ## Slots with a text -/

def holdsText (st : Store β) (s : Slot) : Bool :=
  (st.get? s).any Value.isText

/-- The live slots that hold a text, by place. -/
def textSlots (st : Store β) : List Slot :=
  st.slots.filter st.holdsText

theorem holdsText_of_get? (h : st.get? s = some v) : st.holdsText s = v.isText := by
  rw [holdsText, h, Option.any_some]

theorem holdsText_of_get?_eq_none (h : st.get? s = none) : st.holdsText s = false := by
  rw [holdsText, h, Option.any_none]

theorem mem_textSlots_iff : s ∈ st.textSlots ↔ st.holdsText s = true := by
  rw [textSlots, List.mem_filter, mem_slots_iff, and_iff_right_iff_imp]
  intro htext
  cases hs : st.get? s with
  | none =>
    rw [holdsText_of_get?_eq_none hs] at htext
    cases htext
  | some v => exact isLive_iff.2 ⟨v, hs⟩

theorem nodup_textSlots (st : Store β) : st.textSlots.Nodup :=
  (nodup_slots st).filter _

/-- The slots with a text, one slot apart from the others. -/
theorem length_textSlots_eq (st : Store β) (s : Slot) :
    st.textSlots.length =
      (st.textSlots.filter (· ≠ s)).length + if st.holdsText s then 1 else 0 := by
  have hone : st.textSlots.countP (fun t => !decide (t ≠ s)) = st.textSlots.count s :=
    List.countP_congr fun t _ => by simp
  rw [List.length_eq_countP_add_countP (· ≠ s), List.countP_eq_length_filter]
  simp only [← mem_textSlots_iff]
  rw [← (nodup_textSlots st).count]
  simpa using hone

/-- When one slot changes only, the slots with a text change by that one. -/
theorem length_textSlots_add {now : Option (Value β)}
    (h : ∀ t, st'.get? t = if t = s then now else st.get? t) :
    st'.textSlots.length + (if st.holdsText s then 1 else 0) =
      st.textSlots.length + if now.any Value.isText then 1 else 0 := by
  have hnow : st'.holdsText s = now.any Value.isText := by rw [holdsText, h, if_pos rfl]
  have hothers : (st'.textSlots.filter (· ≠ s)).Perm (st.textSlots.filter (· ≠ s)) := by
    refine (List.perm_ext_iff_of_nodup ((nodup_textSlots st').filter _)
      ((nodup_textSlots st).filter _)).2 fun t => ?_
    simp only [List.mem_filter, decide_eq_true_eq, mem_textSlots_iff, holdsText, h]
    exact and_congr_left fun ht => by rw [if_neg ht]
  have hbefore := length_textSlots_eq st s
  have hafter := length_textSlots_eq st' s
  rw [hnow, hothers.length_eq] at hafter
  omega

theorem textSlots_congr (h : st'.places = st.places) : st'.textSlots = st.textSlots := by
  rw [textSlots, textSlots, slots_congr h]
  exact List.filter_congr fun t _ => by rw [holdsText, holdsText, get?_congr h]

/-- The two counters tell how many slots hold a text. -/
structure CountsTexts (st : Store β) : Prop where
  stored : st.tally.textsStored = st.tally.textsReleased + st.textSlots.length
  released_le : st.tally.textsReleased ≤ st.tally.textsStored
  empty : st.slots = [] → st.tally.textsStored = st.tally.textsReleased

/-! ## Changes in place -/

/-- What an operation makes of the value of a live slot in place: the value before and the one
after. -/
def rewritten? (st : Store β) : Operation β → Option (Value β × Value β)
  | .client (.use s u) => (st.get? s).bind fun v => (u.after v).map (v, ·)
  | _ => none

/-- The changes in place that operations make, in order. -/
def rewrites (st : Store β) : List (Operation β) → List (Value β × Value β)
  | [] => []
  | op :: ops => (st.rewritten? op).toList ++ (st.operate op).rewrites ops

theorem rewrites_append (ops ops' : List (Operation β)) :
    st.rewrites (ops ++ ops') = st.rewrites ops ++ (ops.foldl operate st).rewrites ops' := by
  induction ops generalizing st with
  | nil => rfl
  | cons op ops ih =>
    rw [List.cons_append, rewrites, rewrites, ih, List.append_assoc, List.foldl_cons]

theorem operate_release (h : st.get? s = some v) :
    st.operate (.client (.use s .release)) = st.vacate s v := by
  simp only [operate, runOp, useSlot, release, h, settle]

theorem operate_replace (h : st.get? s = some w) (v : Value β) :
    st.operate (.client (.use s (.replace v))) = st.put s v := by
  simp only [operate, runOp, useSlot, replace, h, settle]

/-- The number of changes that put a text over another value. -/
def textsWritten (changes : List (Value β × Value β)) : Nat :=
  changes.countP fun (old, new) => !old.isText && new.isText

/-- The number of changes that put another value over a text. -/
def textsErased (changes : List (Value β × Value β)) : Nat :=
  changes.countP fun (old, new) => old.isText && !new.isText

theorem textsWritten_eq_textsErased {changes : List (Value β × Value β)}
    (h : ∀ change ∈ changes, change.1.isText = change.2.isText) :
    textsWritten changes = textsErased changes := by
  refine List.countP_congr fun change hchange => ?_
  have hsame : change.1.isText = change.2.isText := h change hchange
  show (!change.1.isText && change.2.isText) = true ↔ (change.1.isText && !change.2.isText) = true
  rw [hsame, Bool.and_comm]

/-- The counters of texts and the changes in place tell how many slots hold a text. -/
structure TextBooks (st : Store β) (changes : List (Value β × Value β)) : Prop extends WF st where
  balance : st.tally.textsStored + textsWritten changes =
    st.tally.textsReleased + textsErased changes + st.textSlots.length

namespace TextBooks

variable {changes : List (Value β × Value β)}

/-- The counters alone tell how many slots hold a text just when the changes in place cancel out. -/
theorem countsTexts_iff (h : st.TextBooks changes) :
    st.CountsTexts ↔ textsWritten changes = textsErased changes := by
  have hbalance := h.balance
  constructor
  · intro hcounts
    have hstored := hcounts.stored
    omega
  · intro heven
    have hstored : st.tally.textsStored = st.tally.textsReleased + st.textSlots.length := by omega
    refine ⟨hstored, by omega, fun hempty => ?_⟩
    rwa [textSlots, hempty, List.filter_nil, List.length_nil] at hstored

theorem empty : TextBooks (.empty : Store β) [] :=
  ⟨.empty, rfl⟩

theorem aside (h : st.TextBooks changes) (hp : st'.places = st.places)
    (hv : st'.vacant = st.vacant) (ht : st'.tally = st.tally) : st'.TextBooks changes := by
  refine ⟨h.toWF.congr hp hv, ?_⟩
  rw [ht, textSlots_congr hp]
  exact h.balance

theorem note (h : st.TextBooks changes) (slots : List Slot) : (st.note slots).TextBooks changes :=
  h.aside (places_note slots) (vacant_note slots) (tally_note slots)

theorem allocate (h : st.TextBooks changes) (v : Value β) :
    (st.allocate v).2.TextBooks changes := by
  have hslots := length_textSlots_add fun t => h.toWF.get?_allocate (v := v) (t := t)
  rw [holdsText_of_get?_eq_none h.toWF.get?_nextSlot] at hslots
  simp only [Bool.false_eq_true, ↓reduceIte, Option.any_some] at hslots
  have htally : (st.allocate v).2.tally = st.tally.store v !st.vacant.isEmpty := tally_note _
  have hbalance := h.balance
  refine ⟨h.toWF.allocate, ?_⟩
  rw [htally]
  simp only [Tally.store]
  omega

theorem vacate (h : st.TextBooks changes) (hs : st.get? s = some v) :
    (st.vacate s v).TextBooks changes := by
  have hslots := length_textSlots_add fun t => get?_vacate (v := v) (t := t) hs
  rw [holdsText_of_get? hs] at hslots
  simp only [Option.any_none, Bool.false_eq_true, ↓reduceIte] at hslots
  have hbalance := h.balance
  refine ⟨h.toWF.vacate hs, ?_⟩
  have htally : (st.vacate s v).tally = st.tally.release v := rfl
  rw [htally]
  simp only [Tally.release]
  omega

/-- No counter takes notice of a change in place. -/
theorem put (h : st.TextBooks changes) (hs : st.get? s = some w) (v : Value β) :
    (st.put s v).TextBooks (changes ++ [(w, v)]) := by
  have hslots := length_textSlots_add fun t => get?_put (v := v) (t := t) hs
  rw [holdsText_of_get? hs, Option.any_some] at hslots
  have hbalance := h.balance
  refine ⟨h.toWF.put hs, ?_⟩
  have htally : (st.put s v).tally = st.tally := rfl
  rw [htally]
  simp only [textsWritten, textsErased, List.countP_append, List.countP_singleton] at hbalance ⊢
  cases hw : w.isText <;> cases hv : v.isText <;> simp [hw, hv] at hslots ⊢ <;> omega

/-- A value that is put in its own place is no change of texts. -/
theorem same (h : st.TextBooks changes) (v : Value β) : st.TextBooks (changes ++ [(v, v)]) := by
  refine ⟨h.toWF, ?_⟩
  simpa [textsWritten, textsErased] using h.balance

theorem useSlot (h : st.TextBooks changes) (s : Slot) (u : Use β) :
    (st.useSlot s u).2.TextBooks (changes ++ (st.rewritten? (.client (.use s u))).toList) := by
  rw [rewritten?]
  cases hs : st.get? s with
  | none =>
    rw [useSlot_of_stale hs, Option.bind_none, Option.toList_none, List.append_nil]
    exact h
  | some v =>
    rw [Option.bind_some]
    cases u with
    | release =>
      simp only [Store.useSlot, release, hs, settle, Use.after, Option.map_none, Option.toList_none,
        List.append_nil]
      exact h.vacate hs
    | modify f =>
      simp only [Store.useSlot, modify, hs, settle, Except.map]
      exact h.put hs (f v)
    | replace w =>
      simp only [Store.useSlot, replace, hs, settle]
      exact h.put hs w
    | get => exact h.same v
    | kind => exact h.same v
    | isLive => exact h.same v

theorem operate (h : st.TextBooks changes) (op : Operation β) :
    (st.operate op).TextBooks (changes ++ (st.rewritten? op).toList) := by
  have hnone : ∀ {st' : Store β}, st'.TextBooks changes → st'.TextBooks (changes ++ []) := by
    intro st' h
    rwa [List.append_nil]
  cases op with
  | client op =>
    cases op with
    | allocate v => exact hnone (h.allocate v)
    | use s u => exact h.useSlot s u
  | openJournal => exact hnone (h.aside rfl rfl rfl)
  | closeJournal mark => exact hnone (h.aside rfl rfl rfl)
  | note slots => exact hnone (h.note slots)

theorem foldl_operate (h : st.TextBooks changes) (ops : List (Operation β)) :
    (ops.foldl Store.operate st).TextBooks (changes ++ st.rewrites ops) := by
  induction ops generalizing st changes with
  | nil => rw [rewrites, List.append_nil]; exact h
  | cons op ops ih =>
    rw [rewrites, ← List.append_assoc]
    exact ih (h.operate op)

theorem operateAll (ops : List (Operation β)) :
    (Store.operateAll ops).TextBooks (rewrites .empty ops) :=
  TextBooks.empty.foldl_operate ops

end TextBooks

end SlotScript.Store

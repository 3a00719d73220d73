import Mathlib.Data.List.Nodup
import SlotScript.Proofs.Machine.Lasting
import SlotScript.Proofs.Store.Forest

/-!
# What a machine holds

Reading a text makes trees that share nothing with what was there (`forest_parse`). While such an
expression is evaluated, a machine holds three kinds of slots: those that are bound or retained,
those that were given as results, and the slots of the expression that are still to be evaluated.
`Holds` says that they are the tops of a forest, results that have ended apart, and that nothing
else stands for a pending slot. A pending slot is used once: it becomes a result (`Holds.take`), or
it is a list and its items become pending (`Holds.opened`).
-/

namespace SlotScript.Machine

open SlotScript.Syntax (Term)

variable {β : Type} {m m' : Machine β} {tops : List Slot} {s : Slot}

/-! ## Reading makes trees -/

theorem nextSlot_notMem (h : m.store.Forest tops) (hm : m.store.WF) : m.store.nextSlot ∉ tops := by
  intro hmem
  exact ne_of_isLive (h.live _ (.root hmem)) hm.get?_nextSlot rfl

theorem forest_leaf (hm : m.store.WF) (h : m.store.Forest tops) {v : Value β} (hv : v.items = []) :
    (m.allocate v).2.store.Forest (m.store.nextSlot :: tops) := by
  refine Store.Forest.allocate (by rwa [hv]) hm (hv ▸ List.nodup_nil) fun t ht => ?_
  rw [hv] at ht
  cases ht

mutual

theorem forest_load : ∀ (t : Term) {m m' : Machine β} {room : Nat} {s : Slot} {tops : List Slot},
    m.store.WF → m.store.Forest tops → m.load room t = (.ok s, m') →
      m'.store.Forest (s :: tops) ∧ s ∉ tops
  | .number _, m, m', room, s, tops, hm, hf, h | .text _, m, m', room, s, tops, hm, hf, h
  | .symbol _, m, m', room, s, tops, hm, hf, h => by
    simp only [load] at h
    cases h
    exact ⟨forest_leaf hm hf rfl, nextSlot_notMem hf hm⟩
  | .list items, m, m', 0, s, tops, hm, hf, h => by
    simp only [load] at h
    cases h
  | .list items, m, m', room + 1, s, tops, hm, hf, h => by
    simp only [load] at h
    split at h
    · cases h
    · next slots m₁ h₁ =>
      cases h
      have hnone : m.store.Forest ([] ++ tops) := hf
      obtain ⟨hf₁, hnodup, hnot⟩ := forest_loadAll items hm hnone List.nodup_nil
        (fun _ ht => absurd ht List.not_mem_nil) h₁
      obtain ⟨ss, hss⟩ := (loadAll_spec items room hm (.nil m)).1 slots m₁ h₁
      have hm₁ := hss.stores.wf hm
      refine ⟨hf₁.allocate (v := .list slots) hm₁ hnodup hnot, ?_⟩
      exact nextSlot_notMem (hf₁.mono (List.subset_append_right ..)) hm₁

theorem forest_loadAll : ∀ (terms : List Term) {m m' : Machine β} {room : Nat}
    {before slots tops : List Slot}, m.store.WF → m.store.Forest (before ++ tops) → before.Nodup →
      (∀ t ∈ before, t ∉ tops) → m.loadAll room before terms = (.ok slots, m') →
        m'.store.Forest (slots ++ tops) ∧ slots.Nodup ∧ ∀ t ∈ slots, t ∉ tops
  | [], m, m', room, before, slots, tops, hm, hf, hnodup, hnot, h => by
    simp only [loadAll] at h
    cases h
    refine ⟨hf.mono fun t ht => ?_, List.nodup_reverse.2 hnodup, fun t ht =>
      hnot t (List.mem_reverse.1 ht)⟩
    exact (List.mem_append.1 ht).elim (fun ht => List.mem_append_left _ (List.mem_reverse.1 ht))
      (List.mem_append_right _)
  | t :: terms, m, m', room, before, slots, tops, hm, hf, hnodup, hnot, h => by
    simp only [loadAll] at h
    split at h
    · cases h
    · next s m₁ h₁ =>
      obtain ⟨hf₁, hs⟩ := forest_load t hm hf h₁
      rw [List.mem_append, not_or] at hs
      obtain ⟨ss, hss⟩ := (load_spec t m room hm).1 s m₁ h₁
      refine forest_loadAll terms (hss.stores.wf hm) (by rwa [List.cons_append])
        (List.nodup_cons.2 ⟨hs.1, hnodup⟩) (fun r hr => ?_) h
      rcases List.mem_cons.1 hr with rfl | hr
      · exact hs.2
      · exact hnot r hr

end

/-- A text that is read becomes trees, each of which is new. -/
theorem forest_parse {source : List Char} {expr : List Slot} (hm : m.store.WF)
    (hf : m.store.Forest tops) (h : m.parse source = (.ok expr, m')) :
    m'.store.Forest (expr ++ tops) ∧ expr.Nodup ∧ ∀ t ∈ expr, t ∉ tops := by
  unfold parse at h
  split at h
  · cases h
  · split at h
    · cases h
    · next terms _ =>
      have hnone : m.store.Forest ([] ++ tops) := hf
      exact forest_loadAll terms hm hnone List.nodup_nil (fun _ ht => absurd ht List.not_mem_nil) h

/-! ## Bound, given and pending slots -/

variable {st₀ : Store β} {ctx ctx' : Context} {held held' pending pending' : List Slot}

/-- The bound and retained slots, the `held` ones that are still live and the `pending` ones are the
tops of a forest; each pending slot is there once and is none of the others. The store has come from
`st₀`, and the held slots were handed out. -/
structure Holds (st₀ : Store β) (m : Machine β) (ctx : Context) (held pending : List Slot) :
    Prop where
  lasts : st₀.Lasts m.store
  issued : ∀ s ∈ held, m.store.Issued s
  forest : m.store.Forest (m.roots ctx ++ held.filter m.store.isLive ++ pending)
  nodup : pending.Nodup
  apart : ∀ s ∈ pending, s ∉ m.roots ctx ∧ s ∉ held

namespace Holds

theorem wf (h : Holds st₀ m ctx held pending) : m.store.WF :=
  h.lasts.wf

theorem isLive_of_reaches_roots (h : Holds st₀ m ctx held pending)
    (hs : m.store.Reaches (m.roots ctx) s) : m.store.isLive s = true :=
  h.forest.live s (hs.mono fun _ hr => List.mem_append_left _ (List.mem_append_left _ hr))

theorem isLive_of_mem_pending (h : Holds st₀ m ctx held pending) (hs : s ∈ pending) :
    m.store.isLive s = true :=
  h.forest.live s (.root (List.mem_append_right _ hs))

theorem isLive_of_reaches_held (h : Holds st₀ m ctx held pending) {r : Slot} (hr : r ∈ held)
    (hl : m.store.isLive r = true) (hs : m.store.Reaches [r] s) : m.store.isLive s = true := by
  refine h.forest.live s (hs.mono fun t ht => ?_)
  rw [List.mem_singleton.1 ht]
  exact List.mem_append_left _ (List.mem_append_right _ (List.mem_filter.2 ⟨hr, hl⟩))

/-- Fewer slots can be held, and pending slots can be left alone. -/
theorem weaken (h : Holds st₀ m ctx held pending) (hheld : held' ⊆ held)
    (hpending : pending'.Sublist pending) : Holds st₀ m ctx held' pending' := by
  refine ⟨h.lasts, fun s hs => h.issued s (hheld hs), h.forest.mono fun s hs => ?_,
    h.nodup.sublist hpending, fun s hs => ?_⟩
  · rw [List.mem_append, List.mem_append, List.mem_filter] at hs ⊢
    exact hs.imp (Or.imp id (And.imp (@hheld s) id)) fun hs => hpending.subset hs
  · exact (h.apart s (hpending.subset hs)).imp id fun hn hmem => hn (hheld hmem)

/-- The next pending slot is given as a result. -/
theorem take (h : Holds st₀ m ctx held (s :: pending)) : Holds st₀ m ctx (s :: held) pending := by
  obtain ⟨hs, hnodup⟩ := List.nodup_cons.1 h.nodup
  have hl : m.store.isLive s = true := h.isLive_of_mem_pending List.mem_cons_self
  refine ⟨h.lasts, fun r hr => ?_, h.forest.mono fun r hr => ?_, hnodup, fun r hr => ?_⟩
  · rcases List.mem_cons.1 hr with rfl | hr
    · exact .inl hl
    · exact h.issued r hr
  · simp only [List.mem_append, List.mem_filter, List.mem_cons] at hr ⊢
    rcases hr with (hr | ⟨rfl | hr, hlr⟩) | hr
    · exact .inl (.inl hr)
    · exact .inr (.inl rfl)
    · exact .inl (.inr ⟨hr, hlr⟩)
    · exact .inr (.inr hr)
  · obtain ⟨hroots, hheld⟩ := h.apart r (List.mem_cons_of_mem _ hr)
    refine ⟨hroots, fun hmem => ?_⟩
    rcases List.mem_cons.1 hmem with rfl | hmem
    · exact hs hr
    · exact hheld hmem

/-- A bound or retained slot is given as a result. -/
theorem root (h : Holds st₀ m ctx held pending) (hs : s ∈ m.roots ctx) :
    Holds st₀ m ctx (s :: held) pending := by
  refine ⟨h.lasts, fun r hr => ?_, h.forest.mono fun r hr => ?_, h.nodup, fun r hr => ?_⟩
  · rcases List.mem_cons.1 hr with rfl | hr
    · exact .inl (h.isLive_of_reaches_roots (.root hs))
    · exact h.issued r hr
  · simp only [List.mem_append, List.mem_filter, List.mem_cons] at hr ⊢
    rcases hr with (hr | ⟨rfl | hr, hlr⟩) | hr
    · exact .inl (.inl hr)
    · exact .inl (.inl hs)
    · exact .inl (.inr ⟨hr, hlr⟩)
    · exact .inr hr
  · obtain ⟨hroots, hheld⟩ := h.apart r hr
    refine ⟨hroots, fun hmem => ?_⟩
    rcases List.mem_cons.1 hmem with rfl | hmem
    · exact hroots hs
    · exact hheld hmem

/-- The next pending slot is opened: its items are pending in its place. -/
theorem opened (h : Holds st₀ m ctx held (s :: pending)) :
    Holds st₀ m ctx held (m.store.items s ++ pending) := by
  obtain ⟨hs, hnodup⟩ := List.nodup_cons.1 h.nodup
  have hl : m.store.isLive s = true := h.isLive_of_mem_pending List.mem_cons_self
  obtain ⟨hroots, hheld⟩ := h.apart s List.mem_cons_self
  have hforest : m.store.Forest
      (s :: (m.roots ctx ++ held.filter m.store.isLive ++ pending)) := by
    refine h.forest.mono fun r hr => ?_
    simp only [List.mem_cons, List.mem_append] at hr ⊢
    tauto
  obtain ⟨hopened, hitems, hnot⟩ := hforest.opened (by
    simp only [List.mem_append, List.mem_filter, not_or]
    exact ⟨⟨hroots, fun hmem => hheld hmem.1⟩, hs⟩)
  refine ⟨h.lasts, h.issued, hopened.mono fun r hr => ?_, ?_, fun r hr => ?_⟩
  · simp only [List.mem_append] at hr ⊢
    tauto
  · refine List.nodup_append.2 ⟨hitems, hnodup, ?_⟩
    rintro r hr _ hr' rfl
    exact hnot r hr (List.mem_append_right _ hr')
  · rcases List.mem_append.1 hr with hr | hr
    · -- An item is live, so it is held only as one of the tops.
      have hlr : m.store.isLive r = true :=
        h.forest.live r (.item (.root (List.mem_append_right _ List.mem_cons_self)) hr)
      refine ⟨fun hmem => hnot r hr ?_, fun hmem => hnot r hr ?_⟩
      · exact List.mem_append_left _ (List.mem_append_left _ hmem)
      · exact List.mem_append_left _ (List.mem_append_right _ (List.mem_filter.2 ⟨hmem, hlr⟩))
    · exact h.apart r (List.mem_cons_of_mem _ hr)

/-- A machine with the same store, bindings and retained slots holds the same. -/
theorem aside (h : Holds st₀ m ctx held pending) (hs : m'.store = m.store)
    (hg : m'.globals = m.globals) (hr : m'.retained = m.retained) :
    Holds st₀ m' ctx held pending := by
  have hroots : m'.roots ctx = m.roots ctx := by rw [roots, roots, hg, hr]
  exact ⟨hs ▸ h.lasts, hs ▸ h.issued, by rw [hs, hroots]; exact h.forest, h.nodup,
    by rw [hroots]; exact h.apart⟩

theorem filter_isLive_allocate (h : Holds st₀ m ctx held pending) (v : Value β) :
    held.filter (m.allocate v).2.store.isLive = held.filter m.store.isLive := by
  refine List.filter_congr fun r hr => ?_
  have hne : r ≠ m.store.nextSlot := by
    rintro rfl
    exact Store.not_issued_nextSlot h.wf (h.issued _ hr)
  rw [Store.isLive, Stores.get?_allocate h.wf, if_neg hne]
  rfl

/-- A new slot without items is given as a result. -/
theorem give (h : Holds st₀ m ctx held pending) {v : Value β} (hv : v.items = [])
    (hlast : st₀.Lasts (m.allocate v).2.store) :
    Holds st₀ (m.allocate v).2 ctx (m.store.nextSlot :: held) pending := by
  have hself : (m.allocate v).2.store.isLive m.store.nextSlot = true := by
    rw [Store.isLive, Stores.get?_allocate h.wf, if_pos rfl]
    rfl
  have hforest := forest_leaf h.wf h.forest hv
  refine ⟨hlast, fun r hr => ?_, hforest.mono fun r hr => ?_, h.nodup, fun r hr => ?_⟩
  · rcases List.mem_cons.1 hr with rfl | hr
    · exact .inl hself
    · exact Store.issued_allocate h.wf (h.issued r hr)
  · rw [List.filter_cons, if_pos hself, h.filter_isLive_allocate] at hr
    simp only [List.mem_append, List.mem_cons] at hr ⊢
    rcases hr with (hr | rfl | hr) | hr
    · exact .inr (.inl (.inl hr))
    · exact .inl rfl
    · exact .inr (.inl (.inr hr))
    · exact .inr (.inr hr)
  · obtain ⟨hroots, hheld⟩ := h.apart r hr
    refine ⟨hroots, fun hmem => ?_⟩
    rcases List.mem_cons.1 hmem with rfl | hmem
    · exact ne_of_isLive (h.isLive_of_mem_pending hr) h.wf.get?_nextSlot rfl
    · exact hheld hmem

end Holds

end SlotScript.Machine

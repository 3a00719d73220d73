import SlotScript.Machine.Load
import SlotScript.Proofs.Machine.Run

/-!
# What reading a text does to a machine

`Stores m ss m'` says that `m'` comes from `m` by storing values in the fresh slots `ss` and by
nothing else. Reading either succeeds, and then it has stored exactly the slots that its expression
reaches (`Loads`), or it fails, and then every slot has the value it had before (`Undoes`): what was
stored for the terms in front of the failure is what those terms reach, so releasing their trees
takes back all of it and nothing besides.
-/

namespace SlotScript.Machine

open SlotScript.Syntax (Term)

variable {β : Type} {m m' m'' : Machine β} {ss ss' roots : List Slot} {s t : Slot} {v : Value β}

/-! ## Storing one value after another -/

/-- `m'` comes from `m` by storing values, in the slots `ss` in order. -/
inductive Stores : Machine β → List Slot → Machine β → Prop
  | nil (m : Machine β) : Stores m [] m
  | snoc {m m' : Machine β} {ss : List Slot} (h : Stores m ss m') (v : Value β) :
      Stores m (ss ++ [m'.store.nextSlot]) (m'.allocate v).2

namespace Stores

theorem trans (h : Stores m ss m') (h' : Stores m' ss' m'') : Stores m (ss ++ ss') m'' := by
  induction h' with
  | nil => rwa [List.append_nil]
  | snoc _ v ih =>
    rw [← List.append_assoc]
    exact ih.snoc v

theorem run (h : Stores m ss m') : Run m (ss.map .stored) m' := by
  induction h with
  | nil => exact .refl _
  | snoc _ v ih =>
    rw [List.map_append]
    exact ih.trans (.store _ v)

theorem wf (h : Stores m ss m') (hm : m.store.WF) : m'.store.WF :=
  h.run.wf hm

theorem globals (h : Stores m ss m') : m'.globals = m.globals := by
  induction h with
  | nil => rfl
  | snoc _ v ih => exact ih

theorem retained (h : Stores m ss m') : m'.retained = m.retained := by
  induction h with
  | nil => rfl
  | snoc _ v ih => exact ih

theorem get?_allocate (hm : m.store.WF) :
    (m.allocate v).2.store.get? t = if t = m.store.nextSlot then some v else m.store.get? t :=
  hm.get?_allocate

theorem get?_of_notMem (h : Stores m ss m') (hm : m.store.WF) (ht : t ∉ ss) :
    m'.store.get? t = m.store.get? t := by
  induction h with
  | nil => rfl
  | snoc h v ih =>
    rw [List.mem_append, not_or, List.mem_singleton] at ht
    rw [get?_allocate (h.wf hm), if_neg ht.2]
    exact ih ht.1

theorem isLive_of_mem (h : Stores m ss m') (hm : m.store.WF) (ht : t ∈ ss) :
    m'.store.isLive t = true := by
  induction h with
  | nil => cases ht
  | snoc h v ih =>
    rw [Store.isLive, get?_allocate (h.wf hm)]
    split
    · rfl
    · next hne =>
      rw [List.mem_append, List.mem_singleton] at ht
      exact ih (ht.resolve_right hne)

theorem get?_eq_none_of_mem (h : Stores m ss m') (hm : m.store.WF) (ht : t ∈ ss) :
    m.store.get? t = none := by
  induction h with
  | nil => cases ht
  | @snoc m' ss h v ih =>
    by_cases hmem : t ∈ ss
    · exact ih hmem
    · rw [List.mem_append, List.mem_singleton] at ht
      obtain rfl := ht.resolve_left hmem
      rw [← h.get?_of_notMem hm hmem]
      exact (h.wf hm).get?_nextSlot

theorem get?_of_get? (h : Stores m ss m') (hm : m.store.WF) (ht : m.store.get? t = some v) :
    m'.store.get? t = some v := by
  rw [← ht]
  refine h.get?_of_notMem hm fun hmem => ?_
  rw [h.get?_eq_none_of_mem hm hmem] at ht
  cases ht

theorem journal (h : Stores m ss m') (hj : 0 < m.store.journals) :
    m'.store.journal.toList = m.store.journal.toList ++ ss := by
  induction h with
  | nil => rw [List.append_nil]
  | @snoc m' ss h v ih =>
    have hj' : 0 < m'.store.journals := by rw [h.run.journals]; exact hj
    rw [← List.append_assoc, ← ih]
    exact Store.toList_journal_allocate.trans (by rw [if_pos hj'])

end Stores

/-! ## Loading -/

/-- `m'` comes from `m` by storing values in the slots `ss`, which are what the roots reach. -/
structure Loads (m : Machine β) (ss roots : List Slot) (m' : Machine β) : Prop where
  stores : Stores m ss m'
  mem_iff : ∀ {a}, a ∈ ss ↔ m'.store.Reaches roots a

/-- `m'` comes from `m` by operations that together change no slot, no binding, and of the retained
slots only stale ones. -/
structure Undoes (m m' : Machine β) : Prop where
  run : FreesOnly (fun _ => False) m m'
  get? : ∀ s, m'.store.get? s = m.store.get? s
  globals : m'.globals = m.globals
  retained : m'.retained ⊆ m.retained
  mem_retained : ∀ s ∈ m.retained, m.store.isLive s = true → s ∈ m'.retained

namespace Undoes

theorem refl (m : Machine β) : Undoes m m :=
  ⟨.refl _ m, fun _ => rfl, rfl, List.Subset.refl _, fun _ h _ => h⟩

end Undoes

namespace Loads

theorem nil (m : Machine β) : Loads m [] [] m :=
  ⟨.nil m, fun h => absurd h List.not_mem_nil, fun h => h.not_nil.elim⟩

theorem congr (h : Loads m ss roots m') {roots' : List Slot} (hr : ∀ s, s ∈ roots' ↔ s ∈ roots) :
    Loads m ss roots' m' :=
  ⟨h.stores, fun {_} => h.mem_iff.trans ⟨(·.mono fun s => (hr s).2), (·.mono fun s => (hr s).1)⟩⟩

/-- What is loaded later leaves what was loaded before reaching the same. -/
theorem reaches_iff (h : Loads m ss roots m') (hm : m.store.WF) (h' : Stores m' ss' m'') :
    m''.store.Reaches roots t ↔ m'.store.Reaches roots t := by
  refine Store.Reaches.congr fun r hr => Store.items_congr ?_
  obtain ⟨w, hw⟩ := Store.isLive_iff.1 (h.stores.isLive_of_mem hm (h.mem_iff.2 hr))
  rw [hw]
  exact h'.get?_of_get? (h.stores.wf hm) hw

theorem append (h : Loads m ss roots m') (hm : m.store.WF) {roots' : List Slot}
    (h' : Loads m' ss' roots' m'') : Loads m (ss ++ ss') (roots ++ roots') m'' := by
  refine ⟨h.stores.trans h'.stores, fun {a} => ?_⟩
  rw [List.mem_append, Store.Reaches.append_iff, h.mem_iff, h'.mem_iff,
    h.reaches_iff hm h'.stores]

/-- Storing a list of what was loaded adds the list's slot. -/
theorem list (h : Loads m ss roots m') (hm : m.store.WF) :
    Loads m (ss ++ [m'.store.nextSlot]) [m'.store.nextSlot] (m'.allocate (.list roots)).2 := by
  have hstore := Stores.snoc (.nil m') (Value.list roots)
  have hget : (m'.allocate (.list roots)).2.store.get? m'.store.nextSlot = some (.list roots) := by
    rw [Stores.get?_allocate (h.stores.wf hm), if_pos rfl]
  have hitems : (m'.allocate (.list roots)).2.store.items m'.store.nextSlot = roots :=
    Store.items_of_get? hget
  refine ⟨h.stores.snoc _, fun {a} => ?_⟩
  rw [List.mem_append, List.mem_singleton, h.mem_iff, ← h.reaches_iff hm hstore]
  constructor
  · rintro (ha | rfl)
    · refine ha.trans fun r hr => ?_
      exact .item (.root (List.mem_singleton_self _)) (hitems.symm ▸ hr)
    · exact .root (List.mem_singleton_self _)
  · intro ha
    refine ha.closed (P := fun x => _ ∨ x = m'.store.nextSlot) (fun r hr => ?_) fun b hb c hc => ?_
    · exact .inr (List.mem_singleton.1 hr)
    · rcases hb with hb | rfl
      · exact .inl (hb.item hc)
      · exact .inl (.root (hitems ▸ hc))

theorem leaf (hm : m.store.WF) (hv : v.items = []) :
    Loads m [m.store.nextSlot] [m.store.nextSlot] (m.allocate v).2 := by
  have hget : (m.allocate v).2.store.get? m.store.nextSlot = some v := by
    rw [Stores.get?_allocate hm, if_pos rfl]
  refine ⟨.snoc (.nil m) v, fun {a} => ⟨.root, fun h => ?_⟩⟩
  refine h.closed (fun r hr => hr) fun b hb c hc => ?_
  rw [List.mem_singleton.1 hb, Store.items_of_get? hget, hv] at hc
  cases hc

/-- Releasing the trees of everything that was loaded takes all of it back, also after something
else was tried and taken back. -/
theorem undoes_releaseAll (h : Loads m ss roots m') (hm : m.store.WF) (h' : Undoes m' m'')
    {pending : List Slot} (hp : ∀ s, s ∈ pending ↔ s ∈ roots) :
    Undoes m (m''.releaseAll pending) := by
  obtain ⟨rs, hrel, hrs⟩ := exists_releases_releaseAll m'' pending
  obtain ⟨es, hes, hnone⟩ := h'.run
  have hmem : ∀ a, a ∈ rs ↔ a ∈ ss := by
    intro a
    have hreach : m''.store.Reaches pending a ↔ m'.store.Reaches pending a :=
      Store.Reaches.congr fun r _ => Store.items_congr (h'.get? r)
    rw [hrs, hreach, ← (h.congr hp).mem_iff, Store.isLive, h'.get? a]
    exact and_iff_right_of_imp (h.stores.isLive_of_mem hm)
  have hfresh : ∀ a ∈ rs, m.store.get? a = none := fun a ha =>
    h.stores.get?_eq_none_of_mem hm ((hmem a).1 ha)
  have hret : ∀ a, a ∈ (m''.releaseAll pending).retained ↔ a ∈ m''.retained ∧ a ∉ ss := by
    intro a
    rw [hrel.retained, List.mem_filter, decide_eq_true_eq, hmem]
  refine ⟨⟨_, .undo (h.stores.run.trans hes) hrel hfresh, by simpa using hnone⟩, ?_, ?_, ?_, ?_⟩
  · intro a
    by_cases ha : a ∈ ss
    · rw [hrel.get?_of_mem ((hmem a).2 ha), h.stores.get?_eq_none_of_mem hm ha]
    · rw [hrel.get?_of_notMem (mt (hmem a).1 ha), h'.get?, h.stores.get?_of_notMem hm ha]
  · rw [hrel.globals, h'.globals, h.stores.globals]
  · intro a ha
    rw [← h.stores.retained]
    exact h'.retained ((hret a).1 ha).1
  · intro a ha hlive
    have hns : a ∉ ss := fun hs => ne_of_isLive hlive (h.stores.get?_eq_none_of_mem hm hs) rfl
    refine (hret a).2 ⟨h'.mem_retained a (h.stores.retained.symm ▸ ha) ?_, hns⟩
    rw [Store.isLive, h.stores.get?_of_notMem hm hns]
    exact hlive

end Loads

/-! ## Releasing trees in turn -/

theorem releaseAll_append (m : Machine β) (a b : List Slot) :
    m.releaseAll (a ++ b) = (m.releaseAll a).releaseAll b := by
  fun_induction releaseAll m a with
  | case1 m => rfl
  | case2 m s a e hv ih =>
    rw [List.cons_append, releaseAll]
    split
    · exact ih
    · next v hv' => rw [hv] at hv'; cases hv'
  | case3 m s a v hv ih =>
    rw [List.cons_append, releaseAll]
    split
    · next e hv' => rw [hv] at hv'; cases hv'
    · next w hv' =>
      obtain rfl : v = w := Except.ok.inj (hv.symm.trans hv')
      rw [← List.append_assoc]
      exact ih

theorem foldl_releaseTree (slots : List Slot) (m : Machine β) :
    slots.foldl releaseTree m = m.releaseAll slots := by
  induction slots generalizing m with
  | nil => rw [List.foldl_nil, releaseAll]
  | cons s slots ih =>
    rw [List.foldl_cons, ih, releaseTree, ← releaseAll_append, List.singleton_append]

/-! ## Reading -/

mutual

theorem load_spec : ∀ (t : Term) (m : Machine β) (room : Nat), m.store.WF →
    (∀ s m', m.load room t = (.ok s, m') → ∃ ss, Loads m ss [s] m') ∧
      ∀ e m', m.load room t = (.error e, m') → Undoes m m'
  | .number _, m, room, hm | .text _, m, room, hm | .symbol _, m, room, hm => by
    simp only [load]
    refine ⟨?_, fun e m' h => (nomatch h)⟩
    intro s m' h
    cases h
    exact ⟨_, .leaf hm rfl⟩
  | .list items, m, 0, hm => by
    simp only [load]
    refine ⟨fun s m' h => (nomatch h), ?_⟩
    intro e m' h
    cases h
    exact .refl m
  | .list items, m, room + 1, hm => by
    obtain ⟨hok, herr⟩ := loadAll_spec items room hm (.nil m)
    simp only [load]
    split
    · next e m₁ h₁ =>
      refine ⟨fun s m' h => (nomatch h), ?_⟩
      intro e' m' h
      cases h
      exact herr e m₁ h₁
    · next slots m₁ h₁ =>
      refine ⟨?_, fun e m' h => (nomatch h)⟩
      intro s m' h
      cases h
      obtain ⟨ss, hss⟩ := hok slots m₁ h₁
      exact ⟨_, hss.list hm⟩

theorem loadAll_spec : ∀ (terms : List Term) {m₀ m : Machine β} {ss before : List Slot}
    (room : Nat),
    m₀.store.WF → Loads m₀ ss before m →
      (∀ slots m', m.loadAll room before terms = (.ok slots, m') → ∃ ss, Loads m₀ ss slots m') ∧
        ∀ e m', m.loadAll room before terms = (.error e, m') → Undoes m₀ m'
  | [], m₀, m, ss, before, room, hm, hl => by
    simp only [loadAll]
    refine ⟨?_, fun e m' h => (nomatch h)⟩
    intro slots m' h
    cases h
    exact ⟨ss, hl.congr fun s => List.mem_reverse⟩
  | t :: terms, m₀, m, ss, before, room, hm, hl => by
    obtain ⟨hok, herr⟩ := load_spec t m room (hl.stores.wf hm)
    simp only [loadAll]
    split
    · next e m₁ h₁ =>
      refine ⟨fun slots m' h => (nomatch h), ?_⟩
      intro e' m' h
      cases h
      rw [foldl_releaseTree]
      exact hl.undoes_releaseAll hm (herr e m₁ h₁) fun s => List.mem_reverse
    · next s m₁ h₁ =>
      obtain ⟨ss₁, hss₁⟩ := hok s m₁ h₁
      have hl' : Loads m₀ (ss ++ ss₁) (s :: before) m₁ :=
        (hl.append hm hss₁).congr fun a => by simp [or_comm]
      exact loadAll_spec terms room hm hl'

end

/-- A text that is read is loaded: the new slots are exactly what the expression reaches. -/
theorem exists_loads_of_parse {source : List Char} {expr : List Slot} (hm : m.store.WF)
    (h : m.parse source = (.ok expr, m')) : ∃ ss, Loads m ss expr m' := by
  unfold parse at h
  split at h
  · cases h
  · next room _ =>
    split at h
    · cases h
    · next terms _ => exact (loadAll_spec terms room hm (.nil m)).1 expr m' h

/-- A text that cannot be read leaves no trace in the store. -/
theorem undoes_of_parse {source : List Char} {e : Error} (hm : m.store.WF)
    (h : m.parse source = (.error e, m')) : Undoes m m' := by
  unfold parse at h
  split at h
  · cases h
    exact .refl m
  · next room _ =>
    split at h
    · cases h
      exact .refl m
    · next terms _ => exact (loadAll_spec terms room hm (.nil m)).2 e m' h

/-- Reading a text releases nothing but what it has stored itself. -/
theorem freesOnly_parse (hm : m.store.WF) (source : List Char) :
    FreesOnly (fun _ => False) m (m.parse source).2 := by
  cases h : m.parse source with
  | mk result m' =>
    cases result with
    | error e => exact (undoes_of_parse hm h).run
    | ok expr =>
      obtain ⟨ss, hss⟩ := exists_loads_of_parse hm h
      exact ⟨_, hss.stores.run, fun s hs => by simp at hs⟩

theorem exists_run_parse (hm : m.store.WF) (source : List Char) :
    ∃ es, Run m es (m.parse source).2 :=
  (freesOnly_parse hm source).exists_run

end SlotScript.Machine

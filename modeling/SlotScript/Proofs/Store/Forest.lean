import SlotScript.Proofs.Store.Reachability
import SlotScript.Proofs.Store.WellFormed

/-!
# Forests in a store

Some slots are the tops of a forest when the lists below them share nothing: every slot that they
reach is live, is an item of at most one of the lists, and once only, and no top is itself an item.
Tops may be given more than once, so several names can stand for one tree.

What two tops both reach is then below one and the same top (`Forest.apart`), so a tree can be
released without harm to the others. A top can be opened, which makes its items tops
(`Forest.opened`), and tops can be gathered in a new list (`Forest.allocate`).
-/

namespace SlotScript.Store

variable {β : Type} {st st' : Store β} {tops tops' : List Slot} {s t r : Slot} {v : Value β}

theorem Reaches.exists_root (h : st.Reaches tops s) : ∃ r ∈ tops, st.Reaches [r] s := by
  induction h with
  | @root s hs => exact ⟨s, hs, .root (List.mem_singleton_self s)⟩
  | item _ ht ih =>
    obtain ⟨r, hr, hs⟩ := ih
    exact ⟨r, hr, hs.item ht⟩

/-- The lists below the tops are trees that share no slot. -/
structure Forest (st : Store β) (tops : List Slot) : Prop where
  live : ∀ s, st.Reaches tops s → st.isLive s = true
  nodup : ∀ s, st.Reaches tops s → (st.items s).Nodup
  /-- A slot is an item of one list at most. -/
  parent : ∀ s t r, st.Reaches tops s → st.Reaches tops t → r ∈ st.items s → r ∈ st.items t → s = t
  top : ∀ s, st.Reaches tops s → ∀ r ∈ tops, r ∉ st.items s

namespace Forest

theorem of_reaches (h : st.Forest tops) (hsub : ∀ r ∈ tops', st.Reaches tops r)
    (htop : ∀ s, st.Reaches tops' s → ∀ r ∈ tops', r ∉ st.items s) : st.Forest tops' := by
  have hreach : ∀ s, st.Reaches tops' s → st.Reaches tops s := fun s hs => hs.trans hsub
  exact ⟨fun s hs => h.live s (hreach s hs), fun s hs => h.nodup s (hreach s hs),
    fun s t r hs ht => h.parent s t r (hreach s hs) (hreach t ht), htop⟩

theorem mono (h : st.Forest tops) (hsub : tops' ⊆ tops) : st.Forest tops' :=
  h.of_reaches (fun _ hr => .root (hsub hr)) fun s hs r hr => h.top s (hs.mono hsub) r (hsub hr)

/-- A store that agrees on what the tops reach has the same forest. -/
theorem congr (h : st.Forest tops) (hget : ∀ s, st.Reaches tops s → st'.get? s = st.get? s) :
    st'.Forest tops := by
  have hreach : ∀ {s}, st'.Reaches tops s → st.Reaches tops s :=
    (Reaches.congr fun r hr => items_congr (hget r hr)).1
  have hitems : ∀ {s}, st'.Reaches tops s → st'.items s = st.items s := fun hs =>
    items_congr (hget _ (hreach hs))
  refine ⟨?_, ?_, ?_, ?_⟩
  · intro s hs
    rw [isLive, hget s (hreach hs)]
    exact h.live s (hreach hs)
  · intro s hs
    rw [hitems hs]
    exact h.nodup s (hreach hs)
  · intro s t r hs ht hrs hrt
    rw [hitems hs] at hrs
    rw [hitems ht] at hrt
    exact h.parent s t r (hreach hs) (hreach ht) hrs hrt
  · intro s hs
    rw [hitems hs]
    exact h.top s (hreach hs)

/-- A top is reached from itself only. -/
theorem eq_of_reaches_top (h : st.Forest tops) (ht : t ∈ tops) (hr : r ∈ tops)
    (hs : st.Reaches [t] r) : r = t := by
  cases hs with
  | root hmem => exact List.mem_singleton.1 hmem
  | @item s _ hs hmem =>
    have hsub : ∀ x ∈ [t], x ∈ tops := by
      intro x hx
      rwa [List.mem_singleton.1 hx]
    exact absurd hmem (h.top s (hs.mono hsub) r hr)

/-- What two tops reach is below one and the same top. -/
theorem apart (h : st.Forest tops) (ht : t ∈ tops) (hr : r ∈ tops) (hst : st.Reaches [t] s)
    (hsr : st.Reaches [r] s) : t = r := by
  have hbelow : ∀ {x y}, x ∈ tops → st.Reaches [x] y → st.Reaches tops y := by
    intro x y hx hy
    refine hy.mono fun z hz => ?_
    rwa [List.mem_singleton.1 hz]
  -- Both paths end with the same step, since a slot is an item of one list only.
  induction hst with
  | root hmem =>
    cases List.mem_singleton.1 hmem
    exact h.eq_of_reaches_top hr ht hsr
  | @item a s ha hs ih =>
    cases hsr with
    | root hmem =>
      cases List.mem_singleton.1 hmem
      exact absurd hs (h.top a (hbelow ht ha) r hr)
    | @item b _ hb hs' =>
      obtain rfl := h.parent a b s (hbelow ht ha) (hbelow hr hb) hs hs'
      exact ih hb

/-- A tree is opened: its items become tops, each of them new. -/
theorem opened (h : st.Forest (s :: tops)) (hs : s ∉ tops) :
    st.Forest (st.items s ++ tops) ∧ (st.items s).Nodup ∧ ∀ t ∈ st.items s, t ∉ tops := by
  have hself : st.Reaches (s :: tops) s := .root List.mem_cons_self
  have hsub : ∀ r ∈ st.items s ++ tops, st.Reaches (s :: tops) r := by
    intro r hr
    rcases List.mem_append.1 hr with hr | hr
    · exact hself.item hr
    · exact .root (List.mem_cons_of_mem _ hr)
  have hnot : ∀ t ∈ st.items s, t ∉ tops := fun t ht hmem =>
    h.top s hself t (List.mem_cons_of_mem _ hmem) ht
  -- The opened list is itself no longer reached: it is no item of a list below the tops.
  have hgone : ¬ st.Reaches (st.items s ++ tops) s := by
    intro hr
    cases hr with
    | root hmem =>
      rcases List.mem_append.1 hmem with hmem | hmem
      · exact h.top s hself s List.mem_cons_self hmem
      · exact hs hmem
    | @item a _ ha hmem => exact h.top a (ha.trans hsub) s List.mem_cons_self hmem
  refine ⟨h.of_reaches hsub fun a ha r hr hmem => ?_, h.nodup s hself, hnot⟩
  rcases List.mem_append.1 hr with hr | hr
  · obtain rfl := h.parent a s r (ha.trans hsub) hself hmem hr
    exact hgone ha
  · exact h.top a (ha.trans hsub) r (List.mem_cons_of_mem _ hr) hmem

/-- The items of a new list, or a new slot without items, become one tree. -/
theorem allocate (h : st.Forest (v.items ++ tops)) (hst : st.WF) (hnodup : v.items.Nodup)
    (hnot : ∀ t ∈ v.items, t ∉ tops) : (st.allocate v).2.Forest (st.nextSlot :: tops) := by
  have hnew : ∀ {s}, st.Reaches (v.items ++ tops) s → s ≠ st.nextSlot := by
    rintro s hs rfl
    have hl := h.live _ hs
    rw [isLive, hst.get?_nextSlot] at hl
    cases hl
  have hitems : ∀ {s}, s ≠ st.nextSlot → (st.allocate v).2.items s = st.items s := fun hs =>
    items_congr (by rw [hst.get?_allocate, if_neg hs])
  have hself : (st.allocate v).2.items st.nextSlot = v.items :=
    items_of_get? (by rw [hst.get?_allocate, if_pos rfl])
  have hreach : ∀ {s}, (st.allocate v).2.Reaches (st.nextSlot :: tops) s →
      s = st.nextSlot ∨ st.Reaches (v.items ++ tops) s := by
    intro s hs
    refine hs.closed (P := fun x => x = _ ∨ _) (fun r hr => ?_) fun a ha b hb => .inr ?_
    · exact (List.mem_cons.1 hr).imp id fun hr => .root (List.mem_append_right _ hr)
    · rcases ha with rfl | ha
      · exact .root (List.mem_append_left _ (hself ▸ hb))
      · exact ha.item (hitems (hnew ha) ▸ hb)
  refine ⟨?_, ?_, ?_, ?_⟩
  · intro s hs
    rw [isLive, hst.get?_allocate]
    split
    · rfl
    · next hne => exact h.live s ((hreach hs).resolve_left hne)
  · intro s hs
    rcases hreach hs with rfl | hs
    · rwa [hself]
    · rw [hitems (hnew hs)]
      exact h.nodup s hs
  · intro a b r ha hb hra hrb
    rcases hreach ha with rfl | ha
    · rcases hreach hb with rfl | hb
      · rfl
      · rw [hself] at hra
        rw [hitems (hnew hb)] at hrb
        exact absurd hrb (h.top b hb r (List.mem_append_left _ hra))
    · rw [hitems (hnew ha)] at hra
      rcases hreach hb with rfl | hb
      · rw [hself] at hrb
        exact absurd hra (h.top a ha r (List.mem_append_left _ hrb))
      · rw [hitems (hnew hb)] at hrb
        exact h.parent a b r ha hb hra hrb
  · intro a ha r hr hmem
    rcases hreach ha with rfl | ha
    · rw [hself] at hmem
      rcases List.mem_cons.1 hr with rfl | hr
      · exact hnew (.root (List.mem_append_left _ hmem)) rfl
      · exact hnot r hmem hr
    · rw [hitems (hnew ha)] at hmem
      rcases List.mem_cons.1 hr with rfl | hr
      · exact hnew (ha.item hmem) rfl
      · exact h.top a ha r (List.mem_append_right _ hr) hmem

end Forest

end SlotScript.Store

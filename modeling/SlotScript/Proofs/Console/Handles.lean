import SlotScript.Proofs.Console.Tidiness

/-!
# What an evaluation does to the slots that were there before it

A machine is grounded when every slot that a binding, a retained slot or a live list mentions has
been handed out by its store. As long as no place of the store comes round to its first generation,
evaluating a text keeps a machine grounded, and it meets the slots that were handed out before the
text in one way only: `set` releases those that a binding reached and nothing reaches any more
(`Keeps`). New lists have new items, so a slot that was lost in this way is not reached again.
-/

namespace SlotScript.Console

open Machine
open Event (Sparing)
open Store (Accounts)

variable {β : Type} {m m' m₀ : Machine β} {ctx ctx' ctx₀ : Context} {es es' : List Event}
  {ss rs : List Slot} {s : Slot}

/-! ## Grounded machines -/

/-- Every slot that a binding, a retained slot or a live list mentions was handed out. -/
structure Grounded (m : Machine β) (ctx : Context) : Prop where
  roots : ∀ s ∈ m.roots ctx, m.store.Issued s
  items : ∀ s, ∀ t ∈ m.store.items s, m.store.Issued t

namespace Grounded

theorem reaches (h : Grounded m ctx) (hs : m.store.Reaches (m.roots ctx) s) : m.store.Issued s :=
  hs.closed h.roots fun a _ b hb => h.items a b hb

/-- Changes keep a machine grounded if they mention slots only that were handed out before or
after. -/
theorem changes (h : Grounded m ctx) (ha : Accounts es m.store)
    (hc : m.store.Changes es' m'.store) (hes : Sparing (es ++ es'))
    (hroots : ∀ s ∈ m'.roots ctx', s ∈ m.roots ctx ∨ m.store.Issued s ∨ m'.store.Issued s)
    (hitems : ∀ s, ∀ t ∈ m'.store.items s,
      t ∈ m.store.items s ∨ m.store.Issued t ∨ m'.store.Issued t) :
    Grounded m' ctx' := by
  have hmono : ∀ t, m.store.Issued t ∨ m'.store.Issued t → m'.store.Issued t := fun t ht =>
    ht.elim (ha.issued_mono hc hes) id
  refine ⟨fun s hs => hmono s ?_, fun s t ht => hmono t ?_⟩
  · rcases hroots s hs with hold | hissued
    · exact .inl (h.roots s hold)
    · exact hissued
  · rcases hitems s t ht with hold | hissued
    · exact .inl (h.items s t hold)
    · exact hissued

theorem releases (h : Grounded m ctx) (ha : Accounts es m.store) (hrel : Releases m rs m')
    {f : Slot → Event} (hf : ∀ s, (f s).ended? = some s) (hes : Sparing (es ++ rs.map f)) :
    Grounded m' ctx := by
  refine h.changes ha (hrel.changes hf) hes (fun s hs => .inl ?_) fun s t ht =>
    .inl (hrel.items_subset ht)
  refine roots_subset hrel.globals ?_ ctx hs
  rw [hrel.retained]
  exact List.filter_subset_self ..

theorem stores (h : Grounded m ctx) (ha : Accounts es m.store) (hst : Stores m ss m')
    (hes : Sparing (es ++ ss.map .stored))
    (hitems : ∀ s ∈ ss, ∀ t ∈ m'.store.items s, m.store.Issued t ∨ m'.store.Issued t) :
    Grounded m' ctx := by
  refine h.changes ha hst.run.changes hes (fun s hs => .inl ?_) fun s t ht => ?_
  · rwa [Machine.roots, hst.globals, hst.retained] at hs
  · by_cases hs : s ∈ ss
    · exact .inr (hitems s hs t ht)
    · rw [Store.items_congr (hst.get?_of_notMem ha.wf hs)] at ht
      exact .inl ht

theorem undoes (h : Grounded m ctx) (ha : Accounts es m.store) (hu : Undoes m m')
    (hrun : Run m es' m') (hes : Sparing (es ++ es')) : Grounded m' ctx := by
  refine h.changes ha hrun.changes hes (fun s hs => .inl ?_) fun s t ht => .inl ?_
  · exact roots_subset hu.globals hu.retained ctx hs
  · rwa [Store.items_congr (hu.get? s)] at ht

theorem closeStatement {mark : Nat} {result : Option Slot} (h : Grounded m ctx)
    (ha : Accounts es m.store)
    (hc : m.store.Changes es' (m.closeStatement mark result ctx).store)
    (hes : Sparing (es ++ es')) : Grounded (m.closeStatement mark result ctx) ctx := by
  refine h.changes ha hc hes (fun s hs => .inl ?_) fun s t ht =>
    .inl (items_closeStatement_subset ht)
  rwa [roots_closeStatement] at hs

theorem moves {a b : Moment β} (h : Grounded a.machine a.ctx) (ha : Accounts es a.machine.store)
    (hown : ∀ s, a.own s → a.machine.store.Issued s) (hm : Moves a es' b)
    (hes : Sparing (es ++ es')) :
    Grounded b.machine b.ctx ∧ ∀ s, b.own s → b.machine.store.Issued s := by
  induction hm generalizing es with
  | refl a => exact ⟨h, hown⟩
  | trans hm _ ih ih' =>
    rw [← List.append_assoc] at hes
    obtain ⟨hb, hown'⟩ := ih h ha hown hes.of_append
    exact ih' hb (ha.changes hm.changes) hown' hes
  | @aside a m hs hg hr =>
    refine ⟨⟨fun s hmem => ?_, fun s t ht => ?_⟩, ?_⟩
    · rw [Machine.roots, hg, hr] at hmem
      rw [hs]
      exact h.roots s hmem
    · rw [hs] at ht ⊢
      exact h.items s t ht
    · intro s hmem
      rw [hs]
      exact hown s hmem
  | give a x =>
    have hst : Stores a.machine [a.machine.store.nextSlot] (a.machine.allocate (.number x)).2 :=
      .snoc (.nil _) _
    refine ⟨h.stores ha hst hes fun s hs t ht => ?_, ?_⟩
    · rw [Moves.items_give ha.wf] at ht
      exact .inl (h.items s t ht)
    · intro s hs
      rcases hs with rfl | hs
      · exact .inl (hst.isLive_of_mem ha.wf (List.mem_singleton_self _))
      · exact ha.issued_mono hst.run.changes hes (hown s hs)
  | @bind a m m' ctx v previous rs hv hb hrel hrs =>
    have hvi : a.machine.store.Issued v := hv.elim (hown v) h.reaches
    have hmid : Grounded m ctx := by
      refine ⟨?_, ?_⟩
      · intro s hs
        rw [hb.store]
        rcases hb.mem_roots s hs with hs | rfl
        · exact h.roots s hs
        · exact hvi
      · intro s t ht
        rw [hb.store] at ht ⊢
        exact h.items s t ht
    have hacc : Accounts es m.store := hb.store.symm ▸ ha
    refine ⟨hmid.releases hacc hrel (fun _ => rfl) hes, ?_⟩
    intro s hs
    refine hacc.issued_mono (hrel.changes fun _ => rfl) hes ?_
    rw [hb.store]
    exact hown s hs

end Grounded

/-! ## Slots from before an evaluation -/

/-- What has become of the slots that had been handed out when the machine was `m₀`. -/
structure Keeps (m₀ : Machine β) (ctx₀ : Context) (m : Machine β) (ctx : Context) : Prop where
  issued : ∀ s, m₀.store.Issued s → m.store.Issued s
  /-- A slot has its value, or it has lost it: a root reached it, and none reaches it any more. -/
  value : ∀ s, m₀.store.Issued s → m.store.get? s = m₀.store.get? s ∨
    m.store.get? s = none ∧ m₀.store.Reaches (m₀.roots ctx₀) s ∧ ¬ m.store.Reaches (m.roots ctx) s
  reached : ∀ s, m₀.store.Issued s → m.store.Reaches (m.roots ctx) s →
    m₀.store.Reaches (m₀.roots ctx₀) s
  /-- New lists have new items. -/
  items : ∀ s, ¬ m₀.store.Issued s → ∀ t ∈ m.store.items s, ¬ m₀.store.Issued t
  retained : m.retained ⊆ m₀.retained
  mem_retained : ∀ s ∈ m₀.retained, m₀.store.isLive s = true → s ∈ m.retained

namespace Keeps

theorem refl (m : Machine β) (ctx : Context) : Keeps m ctx m ctx := by
  refine ⟨fun _ h => h, fun _ _ => .inl rfl, fun _ _ h => h, ?_, List.Subset.refl _, fun _ h _ => h⟩
  intro s hs t ht
  have hstale : m.store.get? s = none := by
    cases hv : m.store.get? s with
    | none => rfl
    | some v => exact absurd (Store.issued_of_get? hv) hs
  rw [Store.items_eq_nil_of_get?_eq_none hstale] at ht
  cases ht

theorem isLive_of_reaches (h : Keeps m₀ ctx₀ m ctx) (hl : m₀.store.isLive s = true)
    (hs : m.store.Reaches (m.roots ctx) s) : m.store.isLive s = true := by
  rcases h.value s (.inl hl) with hsame | ⟨-, -, hn⟩
  · rw [Store.isLive, hsame]
    exact hl
  · exact absurd hs hn

theorem isLive_of_mem_retained (h : Keeps m₀ ctx₀ m ctx) (hs : s ∈ m₀.retained)
    (hl : m₀.store.isLive s = true) : m.store.isLive s = true :=
  h.isLive_of_reaches hl (.root (mem_roots_iff.2 (.inr (.inl (h.mem_retained s hs hl)))))

/-- Slots that were handed out before are reached only from slots that were reached. -/
theorem reaches_of_reaches
    (hsame : ∀ s, m₀.store.Issued s → m'.store.items s ⊆ m.store.items s)
    (hnew : ∀ s, ¬ m₀.store.Issued s → ∀ t ∈ m'.store.items s, ¬ m₀.store.Issued t)
    {roots : List Slot}
    (hroots : ∀ s ∈ roots, m.store.Reaches (m.roots ctx) s ∨ ¬ m₀.store.Issued s)
    (hi : m₀.store.Issued s) (hs : m'.store.Reaches roots s) : m.store.Reaches (m.roots ctx) s := by
  have hclosed : m.store.Reaches (m.roots ctx) s ∨ ¬ m₀.store.Issued s := by
    refine hs.closed hroots fun a ha b hb => ?_
    by_cases hia : m₀.store.Issued a
    · exact .inl ((ha.resolve_right (not_not_intro hia)).item (hsame a hia hb))
    · exact .inr (hnew a hia b hb)
  exact hclosed.resolve_right (not_not_intro hi)

theorem invisible (h : Keeps m₀ ctx₀ m ctx) (hissued : ∀ s, m.store.Issued s → m'.store.Issued s)
    (hget : ∀ s, m₀.store.Issued s → m'.store.get? s = m.store.get? s)
    (hitems : ∀ s, ¬ m₀.store.Issued s → ∀ t ∈ m'.store.items s, ¬ m₀.store.Issued t)
    (hglobals : m'.globals = m.globals) (hretained : m'.retained ⊆ m.retained)
    (hmem : ∀ s ∈ m.retained, m.store.isLive s = true → s ∈ m'.retained) :
    Keeps m₀ ctx₀ m' ctx := by
  have hback : ∀ s, m₀.store.Issued s → m'.store.Reaches (m'.roots ctx) s →
      m.store.Reaches (m.roots ctx) s := fun s hi hs =>
    reaches_of_reaches (fun t ht => by rw [Store.items_congr (hget t ht)]; exact List.Subset.refl _)
      hitems (fun t ht => .inl (.root (roots_subset hglobals hretained ctx ht))) hi hs
  refine ⟨fun s hi => hissued s (h.issued s hi), ?_, ?_, hitems,
    fun s hs => h.retained (hretained hs), ?_⟩
  · intro s hi
    rw [hget s hi]
    exact (h.value s hi).imp id fun ⟨hnone, hreach, hn⟩ =>
      ⟨hnone, hreach, fun hs => hn (hback s hi hs)⟩
  · intro s hi hs
    exact h.reached s hi (hback s hi hs)
  · intro s hs hl
    exact hmem s (h.mem_retained s hs hl) (h.isLive_of_mem_retained hs hl)

theorem stores (h : Keeps m₀ ctx₀ m ctx) (ha : Accounts es m.store) (hst : Stores m ss m')
    (hes : Sparing (es ++ ss.map .stored))
    (hitems : ∀ s ∈ ss, ∀ t ∈ m'.store.items s, t ∈ ss) :
    Keeps m₀ ctx₀ m' ctx ∧ ∀ s ∈ ss, ¬ m₀.store.Issued s := by
  have hnew : ∀ s ∈ ss, ¬ m₀.store.Issued s := fun s hs hi =>
    ha.not_issued_of_stored hst.run.changes hes (List.mem_map_of_mem hs) (h.issued s hi)
  refine ⟨h.invisible (fun s => ha.issued_mono hst.run.changes hes) (fun s hi => ?_)
    (fun s hi t ht => ?_) hst.globals (by rw [hst.retained]; exact List.Subset.refl _)
    fun s hs _ => hst.retained.symm ▸ hs, hnew⟩
  · exact hst.get?_of_notMem ha.wf fun hs => hnew s hs hi
  · by_cases hs : s ∈ ss
    · exact hnew t (hitems s hs t ht)
    · rw [Store.items_congr (hst.get?_of_notMem ha.wf hs)] at ht
      exact h.items s hi t ht

theorem undoes (h : Keeps m₀ ctx₀ m ctx) (ha : Accounts es m.store) (hu : Undoes m m')
    (hrun : Run m es' m') (hes : Sparing (es ++ es')) : Keeps m₀ ctx₀ m' ctx := by
  refine h.invisible (fun s => ha.issued_mono hrun.changes hes) (fun s _ => hu.get? s)
    (fun s hi t ht => ?_) hu.globals hu.retained hu.mem_retained
  rw [Store.items_congr (hu.get? s)] at ht
  exact h.items s hi t ht

/-- Binding a name to a slot that is new or reached loses what only the old binding reached. -/
theorem bind {a : Moment β} {v : Slot} {previous : List Slot} (h : Keeps m₀ ctx₀ a.machine a.ctx)
    (ha : Accounts es a.machine.store) (hown : ∀ s, a.own s → ¬ m₀.store.Issued s) (hv : a.Has v)
    (hb : Rebinds a.machine a.ctx v previous m ctx) (hrel : Releases m rs m')
    (hrs : ∀ t, t ∈ rs ↔ m.store.isLive t = true ∧ m.store.Reaches previous t ∧
      ¬ m.store.Reaches (m.roots ctx) t)
    (hes : Sparing (es ++ rs.map .released)) : Keeps m₀ ctx₀ m' ctx := by
  have hunreached : ∀ r ∈ rs, ¬ m.store.Reaches (m.roots ctx) r := fun r hr => ((hrs r).1 hr).2.2
  have hroots : m'.roots ctx = m.roots ctx := hrel.roots ctx hunreached
  have hitems : ∀ s, m'.store.items s ⊆ a.machine.store.items s := by
    intro s
    rw [← hb.store]
    exact hrel.items_subset
  have hnew : ∀ s, ¬ m₀.store.Issued s → ∀ t ∈ m'.store.items s, ¬ m₀.store.Issued t :=
    fun s hi t ht => h.items s hi t (hitems s ht)
  have hback : ∀ s, m₀.store.Issued s → m'.store.Reaches (m'.roots ctx) s →
      a.machine.store.Reaches (a.machine.roots a.ctx) s := by
    refine fun s hi hs => reaches_of_reaches (fun t _ => hitems t) hnew (fun t ht => ?_) hi hs
    rw [hroots] at ht
    rcases hb.mem_roots t ht with ht | rfl
    · exact .inl (.root ht)
    · exact hv.elim (fun ho => .inr (hown t ho)) .inl
  have hretained : m'.retained = a.machine.retained :=
    (hrel.retained_eq hunreached).trans hb.retained
  have hacc : Accounts es m.store := hb.store.symm ▸ ha
  refine ⟨?_, ?_, fun s hi hs => h.reached s hi (hback s hi hs), hnew, hretained ▸ h.retained,
    hretained ▸ h.mem_retained⟩
  · intro s hi
    refine hacc.issued_mono (hrel.changes fun _ => rfl) hes ?_
    rw [hb.store]
    exact h.issued s hi
  · intro s hi
    by_cases hmem : s ∈ rs
    · -- The slot is released now: the old binding reached it.
      obtain ⟨-, hprevious, -⟩ := (hrs s).1 hmem
      rw [hb.store] at hprevious
      refine .inr ⟨hrel.get?_of_mem hmem, h.reached s hi ?_, fun hs => ?_⟩
      · exact hprevious.mono hb.previous_mem
      · rw [hroots, hrel.reaches_iff hunreached] at hs
        exact hunreached s hmem hs
    · rw [hrel.get?_of_notMem hmem, hb.store]
      exact (h.value s hi).imp id fun ⟨hnone, hreach, hn⟩ =>
        ⟨hnone, hreach, fun hs => hn (hback s hi hs)⟩

theorem moves {a b : Moment β} (h : Keeps m₀ ctx₀ a.machine a.ctx)
    (ha : Accounts es a.machine.store) (hown : ∀ s, a.own s → ¬ m₀.store.Issued s)
    (hm : Moves a es' b) (hes : Sparing (es ++ es')) :
    Keeps m₀ ctx₀ b.machine b.ctx ∧ ∀ s, b.own s → ¬ m₀.store.Issued s := by
  induction hm generalizing es with
  | refl a => exact ⟨h, hown⟩
  | trans hm _ ih ih' =>
    rw [← List.append_assoc] at hes
    obtain ⟨hb, hown'⟩ := ih h ha hown hes.of_append
    exact ih' hb (ha.changes hm.changes) hown' hes
  | @aside a m hs hg hr =>
    refine ⟨?_, hown⟩
    refine h.invisible (fun s => ?_) (fun s _ => ?_) (fun s hi => ?_) hg ?_ fun s hmem _ => ?_
    · rw [hs]
      exact id
    · rw [hs]
    · rw [hs]
      exact h.items s hi
    · rw [hr]
      exact List.Subset.refl _
    · rwa [hr]
  | give a x =>
    have hst : Stores a.machine [a.machine.store.nextSlot] (a.machine.allocate (.number x)).2 :=
      .snoc (.nil _) _
    obtain ⟨hk, hnew⟩ := h.stores ha hst hes fun s hs t ht => by
      rw [Moves.items_give ha.wf, List.mem_singleton.1 hs,
        Store.items_eq_nil_of_get?_eq_none ha.wf.get?_nextSlot] at ht
      cases ht
    refine ⟨hk, ?_⟩
    intro s hs
    rcases hs with rfl | hs
    · exact hnew _ (List.mem_singleton_self _)
    · exact hown s hs
  | bind hv hb hrel hrs => exact ⟨h.bind ha hown hv hb hrel hrs hes, hown⟩

/-- The end of a statement touches what stands in its journal only. -/
theorem closeStatement {mark : Nat} {result : Option Slot} (h : Keeps m₀ ctx₀ m ctx)
    (ha : Accounts es m.store)
    (hc : m.store.Changes es' (m.closeStatement mark result ctx).store)
    (hes : Sparing (es ++ es')) (hj : ∀ s ∈ m.store.journal.toList.drop mark, ¬ m₀.store.Issued s) :
    Keeps m₀ ctx₀ (m.closeStatement mark result ctx) ctx := by
  obtain ⟨rs, m', hrel, heq, hrs⟩ := exists_releases_closeStatement m mark result ctx
  have hretained : (m.closeStatement mark result ctx).retained = m.retained.filter (· ∉ rs) := by
    rw [heq]
    exact hrel.retained
  have hget : ∀ s, m₀.store.Issued s →
      (m.closeStatement mark result ctx).store.get? s = m.store.get? s := by
    intro s hi
    rw [get?_closeStatement, if_neg fun hc => hj s hc.1 hi]
  refine h.invisible (fun s => ha.issued_mono hc hes) hget (fun s hi t ht => ?_)
    globals_closeStatement ?_ fun s hs hl => ?_
  · exact h.items s hi t (items_closeStatement_subset ht)
  · rw [hretained]
    exact List.filter_subset_self ..
  · rw [hretained, List.mem_filter, decide_eq_true_eq]
    refine ⟨hs, fun hmem => ((hrs s).1 hmem).2.2 (.root (List.mem_append_right _ ?_))⟩
    exact mem_roots_iff.2 (.inr (.inl hs))

end Keeps

/-! ## Statements and texts -/

/-- The events `es'` lead from `m` to `m'`, and if no place comes round, a grounded machine stays
grounded on the way, and the slots from before any earlier moment are kept. -/
structure Carries (es' : List Event) (m : Machine β) (ctx : Context) (m' : Machine β)
    (ctx' : Context) : Prop where
  changes : m.store.Changes es' m'.store
  grounded : ∀ es, Accounts es m.store → Sparing (es ++ es') → Grounded m ctx → Grounded m' ctx'
  keeps : ∀ es, Accounts es m.store → Sparing (es ++ es') →
    ∀ m₀ ctx₀, Keeps m₀ ctx₀ m ctx → Keeps m₀ ctx₀ m' ctx'

namespace Carries

theorem refl (m : Machine β) (ctx : Context) : Carries [] m ctx m ctx :=
  ⟨.refl _, fun _ _ _ => id, fun _ _ _ _ _ => id⟩

theorem trans {m'' : Machine β} {ctx'' : Context} {es₁ es₂ : List Event}
    (h : Carries es₁ m ctx m' ctx') (h' : Carries es₂ m' ctx' m'' ctx'') :
    Carries (es₁ ++ es₂) m ctx m'' ctx'' := by
  refine ⟨h.changes.trans h'.changes, ?_, ?_⟩
  · intro es ha hes hg
    rw [← List.append_assoc] at hes
    exact h'.grounded _ (ha.changes h.changes) hes (h.grounded es ha hes.of_append hg)
  · intro es ha hes m₀ ctx₀ hk
    rw [← List.append_assoc] at hes
    exact h'.keeps _ (ha.changes h.changes) hes m₀ ctx₀ (h.keeps es ha hes.of_append m₀ ctx₀ hk)

theorem openStatement (m : Machine β) (ctx : Context) : Carries [] m ctx m.openStatement.2 ctx := by
  refine ⟨.aside rfl rfl rfl, fun es _ _ h => ⟨h.roots, h.items⟩, ?_⟩
  intro es _ _ m₀ ctx₀ h
  exact h.invisible (fun s hs => hs) (fun _ _ => get?_openStatement) h.items rfl
    (List.Subset.refl _) fun _ hs _ => hs

theorem undoes (h : Undoes m m') (hrun : Run m es' m') : Carries es' m ctx m' ctx :=
  ⟨hrun.changes, fun _ ha hes hg => hg.undoes ha h hrun hes,
    fun _ ha hes _ _ hk => hk.undoes ha h hrun hes⟩

/-- Reading an expression and evaluating it. -/
theorem moves {m'' : Machine β} {expr : List Slot} {own : Slot → Prop} (hm : m.store.WF)
    (hl : Loads m ss expr m') (hmoves : Moves ⟨m', ctx, (· ∈ ss)⟩ es' ⟨m'', ctx', own⟩) :
    Carries (ss.map .stored ++ es') m ctx m'' ctx' := by
  have hitems : ∀ s ∈ ss, ∀ t ∈ m'.store.items s, t ∈ ss := fun s hs t ht =>
    hl.mem_iff.2 ((hl.mem_iff.1 hs).item ht)
  refine ⟨hl.stores.run.changes.trans hmoves.changes, ?_, ?_⟩
  · intro es ha hes hg
    rw [← List.append_assoc] at hes
    have hlive : ∀ s ∈ ss, m'.store.Issued s := fun s hs => .inl (hl.stores.isLive_of_mem hm hs)
    have hg' := hg.stores ha hl.stores hes.of_append fun s hs t ht =>
      .inr (hlive t (hitems s hs t ht))
    exact (Grounded.moves hg' (ha.changes hl.stores.run.changes) hlive hmoves hes).1
  · intro es ha hes m₀ ctx₀ hk
    rw [← List.append_assoc] at hes
    obtain ⟨hk', hnew⟩ := hk.stores ha hl.stores hes.of_append hitems
    exact (Keeps.moves hk' (ha.changes hl.stores.run.changes) hnew hmoves hes).1

/-- What happens in a statement is carried to its end: what the end releases stands in the journal,
so it was stored in since the statement began. -/
theorem closeStatement (h : Carries es' m.openStatement.2 ctx m' ctx') {written : List Slot}
    (hj : m'.store.journal.toList = m.store.journal.toList ++ written)
    (hstored : ∀ s ∈ written, .stored s ∈ es') (result : Option Slot) :
    ∃ es'', Carries es'' m ctx (m'.closeStatement m.store.journal.size result ctx') ctx' := by
  obtain ⟨rs, m'', hrel, heq, -⟩ :=
    exists_releases_closeStatement m' m.store.journal.size result ctx'
  have hclose := hrel.changes_closeStatement heq
  have hall := (openStatement m ctx).trans h
  refine ⟨([] ++ es') ++ rs.map .reclaimed, hall.changes.trans hclose, ?_, ?_⟩
  · intro es ha hes hg
    rw [← List.append_assoc] at hes
    have hg' := hall.grounded es ha hes.of_append hg
    exact hg'.closeStatement (ha.changes hall.changes) hclose hes
  · intro es ha hes m₀ ctx₀ hk
    rw [← List.append_assoc] at hes
    have hk' := hall.keeps es ha hes.of_append m₀ ctx₀ hk
    refine hk'.closeStatement (ha.changes hall.changes) hclose hes fun s hs hi => ?_
    rw [hj, ← Array.length_toList, List.drop_left] at hs
    exact ha.not_issued_of_stored hall.changes hes.of_append (hstored s hs) (hk.issued s hi)

end Carries

theorem exists_carries_ran {keep : Bool} {out : Outcome (Option Slot) × Machine β}
    (h : Ran keep m ctx out) (hm : m.store.WF) : ∃ es', Carries es' m ctx out.2 out.1.2 := by
  cases h with
  | unread e hu =>
    obtain ⟨es', hrun, -⟩ := hu.run
    obtain ⟨written, hj, hstored⟩ := hrun.journal
    exact (Carries.undoes hu hrun).closeStatement hj hstored _
  | @read m₁ m₂ ss expr es ctx' own result hl hmoves =>
    obtain ⟨written, hj, hstored⟩ := hmoves.journal
    have hload : m₁.store.journal.toList = m.store.journal.toList ++ ss :=
      hl.stores.journal (Nat.succ_pos _)
    have hall : m₂.store.journal.toList = m.store.journal.toList ++ (ss ++ written) := by
      rw [← List.append_assoc, ← hload]
      exact hj
    refine (Carries.moves hm.openJournal hl hmoves).closeStatement hall (fun s hs => ?_) _
    rcases List.mem_append.1 hs with hs | hs
    · exact List.mem_append_left _ (List.mem_map_of_mem hs)
    · exact List.mem_append_right _ (hstored s hs)

theorem exists_carries_evaluateOne {call : Evaluator β} (hc : Behaves call) (hm : m.store.WF)
    (statement : List Char) (ctx : Context) :
    ∃ es', Carries es' m ctx (evaluateOne call statement ctx m).2
      (evaluateOne call statement ctx m).1.2 := by
  unfold evaluateOne
  split
  · next e m' hparse =>
    have hu := undoes_of_parse hm hparse
    obtain ⟨es', hrun, -⟩ := hu.run
    exact ⟨es', .undoes hu hrun⟩
  · next expr m' hparse =>
    obtain ⟨ss, hl⟩ := exists_loads_of_parse hm hparse
    have hexpr : ∀ s ∈ expr, s ∈ ss := fun s hs => hl.mem_iff.2 (.root hs)
    obtain ⟨es', own, hmoves, -⟩ := hc ⟨m', ctx, (· ∈ ss)⟩ expr (sound_of_loads hm hl) hexpr
    exact ⟨_, .moves hm hl hmoves⟩

theorem exists_carries_runStatement {call : Evaluator β} (hc : Behaves call) (hm : m.store.WF)
    (keep : Bool) (statement : List Char) (ctx : Context) :
    ∃ es', Carries es' m ctx (runStatement call keep statement ctx m).2
      (runStatement call keep statement ctx m).1.2 := by
  cases hr : m.config.reclaimTemporaries with
  | true => exact exists_carries_ran (ran_runStatement hc hm hr statement) hm
  | false =>
    rw [runStatement_of_not_reclaim hr]
    exact exists_carries_evaluateOne hc hm statement ctx

theorem exists_carries_runStatements {call : Evaluator β} (hc : Behaves call) (hruns : Runs call)
    (statements : List (List Char)) (ctx : Context) (m : Machine β) (hm : m.store.WF) :
    ∃ es', Carries es' m ctx (runStatements call statements ctx m).2
      (runStatements call statements ctx m).1.2 := by
  fun_induction runStatements call statements ctx m with
  | case1 ctx m => exact ⟨_, .refl m ctx⟩
  | case2 statement ctx m => exact exists_carries_runStatement hc hm true statement ctx
  | case3 statement rest ctx m _ e ctx' m' heq =>
    have h := exists_carries_runStatement hc hm false statement ctx
    rwa [heq] at h
  | case4 statement rest ctx m _ r ctx' m' heq ih =>
    obtain ⟨es₁, h₁⟩ := exists_carries_runStatement hc hm false statement ctx
    obtain ⟨es₀, hrun⟩ := exists_run_runStatement hruns hm false statement ctx
    rw [heq] at h₁ hrun
    obtain ⟨es₂, h₂⟩ := ih (hrun.wf hm)
    exact ⟨_, h₁.trans h₂⟩

theorem exists_carries_eval {m : Machine Command} (hm : m.store.WF) (source : String)
    (ctx : Context) :
    ∃ es', Carries es' m ctx (m.eval library source ctx).2 (m.eval library source ctx).1.2 := by
  unfold Machine.eval evalTextBy
  split
  · exact ⟨_, .refl m ctx⟩
  · exact exists_carries_runStatements behaves_evaluate (runs_evaluate library) _ ctx m hm

end SlotScript.Console

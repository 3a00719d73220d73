import SlotScript.Machine.Reclaim
import SlotScript.Proofs.Store.Reachability
import SlotScript.Proofs.Store.WellFormed

/-!
# Releasing many slots

`Releases m rs m'` says that the machine `m'` comes from `m` by releasing the live slots `rs`, one
after the other, and by nothing else. All that such a sequence does can be read off `rs`: these
slots are live no longer, every other one keeps its value, and they are no longer retained.

The three releases of a machine are of this form, and for each of them `rs` is known exactly:

* `exists_releases_releaseAll`: what is live and reached from the pending slots;
* `exists_releases_releaseAllUnreachable`: of these, what no binding and no retained slot reaches;
* `exists_releases_reclaim`: of the allocated slots, what is live and neither the result nor a
  binding nor a retained slot reaches.
-/

namespace SlotScript.Machine

variable {β : Type} {m m' : Machine β} {s t : Slot} {v : Value β} {rs : List Slot}

/-! ## Releasing one slot -/

theorem value_eq_ok_iff : m.value s = .ok v ↔ m.store.get? s = some v :=
  Store.get_eq_ok_iff

theorem get?_of_value_eq_error {e : Error} (h : m.value s = .error e) : m.store.get? s = none := by
  cases hs : m.store.get? s with
  | none => rfl
  | some v =>
    rw [value_eq_ok_iff.2 hs] at h
    cases h

@[simp] theorem store_discard : (m.discard v).store = m.store := by
  unfold discard
  split <;> rfl

@[simp] theorem globals_discard : (m.discard v).globals = m.globals := by
  unfold discard
  split <;> rfl

@[simp] theorem config_discard : (m.discard v).config = m.config := by
  unfold discard
  split <;> rfl

@[simp] theorem depth_discard : (m.discard v).depth = m.depth := by
  unfold discard
  split <;> rfl

@[simp] theorem retained_discard : (m.discard v).retained = m.retained := by
  unfold discard
  split <;> rfl

@[simp] theorem store_vacate : (m.vacate s v).store = m.store.vacate s v :=
  store_discard

@[simp] theorem globals_vacate : (m.vacate s v).globals = m.globals :=
  globals_discard

@[simp] theorem config_vacate : (m.vacate s v).config = m.config :=
  config_discard

@[simp] theorem depth_vacate : (m.vacate s v).depth = m.depth :=
  depth_discard

@[simp] theorem retained_vacate : (m.vacate s v).retained = m.retained.filter (· ≠ s) :=
  retained_discard

/-! ## Releasing one slot after another -/

/-- `m'` comes from `m` by releasing the slots `rs` in order, each of which is live when its turn
comes. -/
inductive Releases : Machine β → List Slot → Machine β → Prop
  | nil (m : Machine β) : Releases m [] m
  | cons {m m' : Machine β} {s : Slot} {v : Value β} {rs : List Slot}
      (h : m.store.get? s = some v) (hr : Releases (m.vacate s v) rs m') : Releases m (s :: rs) m'

namespace Releases

/-- The released slots are live no longer; every other slot keeps its value. -/
theorem get? (h : Releases m rs m') :
    m'.store.get? t = if t ∈ rs then none else m.store.get? t := by
  induction h with
  | nil m => simp
  | @cons m m' s v rs hs hr ih =>
    rw [ih, store_vacate, Store.get?_vacate hs]
    by_cases ht : t = s
    · simp [ht]
    · simp [ht]

theorem get?_of_mem (h : Releases m rs m') (ht : t ∈ rs) : m'.store.get? t = none := by
  rw [h.get?, if_pos ht]

theorem get?_of_notMem (h : Releases m rs m') (ht : t ∉ rs) :
    m'.store.get? t = m.store.get? t := by
  rw [h.get?, if_neg ht]

theorem isLive (h : Releases m rs m') (ht : t ∈ rs) : m.store.isLive t = true := by
  induction h with
  | nil m => cases ht
  | @cons m m' s v rs hs hr ih =>
    rcases List.mem_cons.1 ht with rfl | ht
    · exact Store.isLive_iff.2 ⟨v, hs⟩
    · obtain ⟨w, hw⟩ := Store.isLive_iff.1 (ih ht)
      rw [store_vacate, Store.get?_vacate hs] at hw
      split at hw
      · cases hw
      · exact Store.isLive_iff.2 ⟨w, hw⟩

theorem nodup (h : Releases m rs m') : rs.Nodup := by
  induction h with
  | nil m => exact List.nodup_nil
  | @cons m m' s v rs hs hr ih =>
    refine List.nodup_cons.2 ⟨fun hm => ?_, ih⟩
    obtain ⟨w, hw⟩ := Store.isLive_iff.1 (hr.isLive hm)
    rw [store_vacate, Store.get?_vacate hs, if_pos rfl] at hw
    cases hw

theorem wf (h : Releases m rs m') (hm : m.store.WF) : m'.store.WF := by
  induction h with
  | nil m => exact hm
  | cons hs hr ih => exact ih (by rw [store_vacate]; exact hm.vacate hs)

theorem journal (h : Releases m rs m') :
    m'.store.journal = m.store.journal ∧ m'.store.journals = m.store.journals := by
  induction h with
  | nil m => exact ⟨rfl, rfl⟩
  | cons hs hr ih =>
    exact ⟨ih.1.trans (by rw [store_vacate]; rfl), ih.2.trans (by rw [store_vacate]; rfl)⟩

theorem globals (h : Releases m rs m') : m'.globals = m.globals := by
  induction h with
  | nil m => rfl
  | cons hs hr ih => rw [ih, globals_vacate]

theorem config (h : Releases m rs m') : m'.config = m.config := by
  induction h with
  | nil m => rfl
  | cons hs hr ih => rw [ih, config_vacate]

theorem depth (h : Releases m rs m') : m'.depth = m.depth := by
  induction h with
  | nil m => rfl
  | cons hs hr ih => rw [ih, depth_vacate]

theorem retained (h : Releases m rs m') : m'.retained = m.retained.filter (· ∉ rs) := by
  induction h with
  | nil m => exact (List.filter_eq_self.2 fun t _ => by simp).symm
  | @cons m m' s v rs hs hr ih =>
    rw [ih, retained_vacate, List.filter_filter]
    refine List.filter_congr fun t _ => ?_
    simp [Bool.and_comm]

theorem items_subset (h : Releases m rs m') : m'.store.items t ⊆ m.store.items t := by
  by_cases ht : t ∈ rs
  · rw [Store.items_eq_nil_of_get?_eq_none (h.get?_of_mem ht)]
    exact List.nil_subset _
  · rw [Store.items_congr (h.get?_of_notMem ht)]
    exact List.Subset.refl _

theorem reaches (h : Releases m rs m') {roots : List Slot} (ht : m'.store.Reaches roots t) :
    m.store.Reaches roots t :=
  ht.closed (fun _ hr => .root hr) fun _ ha _ hb => ha.item (h.items_subset hb)

/-- A release that spares everything that the roots reach leaves them reaching the same. -/
theorem reaches_iff (h : Releases m rs m') {roots : List Slot}
    (hrs : ∀ r ∈ rs, ¬ m.store.Reaches roots r) :
    m'.store.Reaches roots t ↔ m.store.Reaches roots t := by
  refine Store.Reaches.congr fun r hr => Store.items_congr (h.get?_of_notMem fun hm => ?_)
  exact hrs r hm hr

end Releases

theorem releases_vacate (h : m.store.get? s = some v) : Releases m [s] (m.vacate s v) :=
  .cons h (.nil _)

/-! ## Releasing a tree -/

/-- Once a slot is released, its items stand for it: they and the other pending slots reach the rest
of what the slot and the other pending ones reached. -/
theorem reaches_vacate_iff (h : m.store.get? s = some v) (hts : t ≠ s) (pending : List Slot) :
    (m.vacate s v).store.Reaches (v.items.reverse ++ pending) t ↔
      m.store.Reaches (s :: pending) t := by
  have hrel := releases_vacate h
  have hitems : m.store.items s = v.items := Store.items_of_get? h
  constructor
  · intro ht
    refine (hrel.reaches ht).trans fun r hr => ?_
    rcases List.mem_append.1 hr with hr | hr
    · exact .item (.root List.mem_cons_self) (hitems ▸ List.mem_reverse.1 hr)
    · exact .root (List.mem_cons_of_mem _ hr)
  · intro ht
    refine (ht.closed (P := fun x => x = s ∨ _) (fun r hr => ?_)
      fun a ha b hb => ?_).resolve_left hts
    · exact (List.mem_cons.1 hr).imp id fun hr => .root (List.mem_append_right _ hr)
    · right
      by_cases has : a = s
      · subst has
        exact .root (List.mem_append_left _ (List.mem_reverse.2 (hitems ▸ hb)))
      · refine (ha.resolve_left has).item ?_
        rw [Store.items_congr (hrel.get?_of_notMem (by simpa using has))]
        exact hb

theorem reaches_cons_of_stale (h : m.store.get? s = none) (hts : t ≠ s) (pending : List Slot) :
    m.store.Reaches (s :: pending) t ↔ m.store.Reaches pending t := by
  constructor
  · intro ht
    refine (ht.closed (P := fun x => x = s ∨ _) (fun r hr => ?_)
      fun a ha b hb => ?_).resolve_left hts
    · exact (List.mem_cons.1 hr).imp id .root
    · rcases ha with rfl | ha
      · rw [Store.items_eq_nil_of_get?_eq_none h] at hb
        cases hb
      · exact .inr (ha.item hb)
  · exact (·.mono (List.subset_cons_self ..))

theorem ne_of_isLive (ht : m.store.isLive t = true) (hs : m.store.get? s = none) : t ≠ s := by
  rintro rfl
  rw [Store.isLive, hs] at ht
  cases ht

theorem isLive_vacate_iff (h : m.store.get? s = some v) :
    (m.vacate s v).store.isLive t = true ↔ t ≠ s ∧ m.store.isLive t = true := by
  rw [Store.isLive, store_vacate, Store.get?_vacate h]
  by_cases ht : t = s
  · simp [ht]
  · simp [ht, Store.isLive]

/-- `releaseAll` releases exactly what is live and reached from the pending slots. -/
theorem exists_releases_releaseAll (m : Machine β) (pending : List Slot) :
    ∃ rs, Releases m rs (m.releaseAll pending) ∧
      ∀ t, t ∈ rs ↔ m.store.isLive t = true ∧ m.store.Reaches pending t := by
  fun_induction releaseAll m pending with
  | case1 m =>
    refine ⟨[], .nil m, fun t => ⟨fun h => absurd h List.not_mem_nil, fun h => ?_⟩⟩
    exact h.2.not_nil.elim
  | case2 m s pending e hv ih =>
    obtain ⟨rs, hrel, hrs⟩ := ih
    refine ⟨rs, hrel, fun t => (hrs t).trans (and_congr_right fun ht => ?_)⟩
    have hs := get?_of_value_eq_error hv
    exact (reaches_cons_of_stale hs (ne_of_isLive ht hs) pending).symm
  | case3 m s pending v hv ih =>
    obtain ⟨rs, hrel, hrs⟩ := ih
    have hs := value_eq_ok_iff.1 hv
    refine ⟨s :: rs, .cons hs hrel, ?_⟩
    intro t
    rw [List.mem_cons, hrs t, isLive_vacate_iff hs]
    by_cases hts : t = s
    · subst hts
      simp only [true_or, true_iff]
      exact ⟨Store.isLive_iff.2 ⟨v, hs⟩, .root List.mem_cons_self⟩
    · rw [reaches_vacate_iff hs hts pending]
      simp [hts]

/-! ## Releasing what nothing reaches -/

theorem mem_roots_iff {ctx : Context} :
    s ∈ m.roots ctx ↔ s ∈ m.globals.slots ∨ s ∈ m.retained ∨ s ∈ ctx.slots := by
  simp only [roots, List.mem_append, or_assoc]

theorem roots_subset (hg : m'.globals = m.globals) (hr : m'.retained ⊆ m.retained) (ctx : Context) :
    m'.roots ctx ⊆ m.roots ctx := by
  intro s hs
  rw [mem_roots_iff, hg] at hs
  exact mem_roots_iff.2 (hs.imp id (Or.imp (@hr s) id))

/-- A retained slot reaches itself, so a release that spares what the roots reach lets none of them
go. -/
theorem Releases.retained_eq (h : Releases m rs m') {ctx : Context}
    (hrs : ∀ r ∈ rs, ¬ m.store.Reaches (m.roots ctx) r) : m'.retained = m.retained := by
  rw [h.retained]
  refine List.filter_eq_self.2 fun t ht => decide_eq_true fun hm => hrs t hm (.root ?_)
  exact mem_roots_iff.2 (.inr (.inl ht))

theorem Releases.roots (h : Releases m rs m') (ctx : Context)
    (hrs : ∀ r ∈ rs, ¬ m.store.Reaches (m.roots ctx) r) : m'.roots ctx = m.roots ctx := by
  rw [Machine.roots, Machine.roots, h.globals, h.retained_eq hrs]

theorem isReachable_iff {ctx : Context} :
    m.isReachable ctx s = true ↔ m.store.Reaches (m.roots ctx) s := by
  rw [isReachable, decide_eq_true_eq, Store.mem_reach]

/-- `releaseAllUnreachable` releases exactly what is live and reached from the pending slots, but
not from a binding or a retained slot. -/
theorem exists_releases_releaseAllUnreachable (m : Machine β) (ctx : Context)
    (pending : List Slot) :
    ∃ rs, Releases m rs (m.releaseAllUnreachable ctx pending) ∧
      ∀ t, t ∈ rs ↔ m.store.isLive t = true ∧ m.store.Reaches pending t ∧
        ¬ m.store.Reaches (m.roots ctx) t := by
  fun_induction releaseAllUnreachable m ctx pending with
  | case1 m =>
    refine ⟨[], .nil m, fun t => ⟨fun h => absurd h List.not_mem_nil, fun h => ?_⟩⟩
    exact h.2.1.not_nil.elim
  | case2 m s pending hs ih =>
    obtain ⟨rs, hrel, hrs⟩ := ih
    refine ⟨rs, hrel, fun t => (hrs t).trans (and_congr_right fun _ => and_congr_left fun hn => ?_)⟩
    have hsr := isReachable_iff.1 hs
    refine ⟨(·.mono (List.subset_cons_self ..)), ?_⟩
    intro h
    rw [← List.singleton_append, Store.Reaches.append_iff] at h
    refine h.resolve_left fun h => hn (h.trans fun r hr => ?_)
    rwa [List.mem_singleton.1 hr]
  | case3 m s pending hs e hv ih =>
    obtain ⟨rs, hrel, hrs⟩ := ih
    refine ⟨rs, hrel, fun t => (hrs t).trans (and_congr_right fun ht => and_congr_left fun _ => ?_)⟩
    have hstale := get?_of_value_eq_error hv
    exact (reaches_cons_of_stale hstale (ne_of_isLive ht hstale) pending).symm
  | case4 m s pending hs v hv ih =>
    obtain ⟨rs, hrel, hrs⟩ := ih
    have hlive := value_eq_ok_iff.1 hv
    have hsr : ¬ m.store.Reaches (m.roots ctx) s := fun h => hs (isReachable_iff.2 h)
    -- The slot is unreachable, so releasing it moves neither the roots nor what they reach.
    have hone : ∀ r ∈ [s], ¬ m.store.Reaches (m.roots ctx) r := by
      intro r hr
      rwa [List.mem_singleton.1 hr]
    have hroots := (releases_vacate hlive).roots ctx hone
    refine ⟨s :: rs, .cons hlive hrel, ?_⟩
    intro t
    rw [List.mem_cons, hrs t, hroots, (releases_vacate hlive).reaches_iff hone,
      isLive_vacate_iff hlive]
    by_cases hts : t = s
    · subst hts
      simp only [true_or, true_iff]
      exact ⟨Store.isLive_iff.2 ⟨v, hlive⟩, .root List.mem_cons_self, hsr⟩
    · rw [reaches_vacate_iff hlive hts pending]
      simp [hts]

/-! ## Reclaiming -/

/-- Of a slot that is not retained, only the value goes. -/
theorem releaseIfLive_of_get? (h : m.store.get? s = some v) (hs : s ∉ m.retained) :
    m.releaseIfLive s = m.vacate s v := by
  have hret : m.retained.filter (· ≠ s) = m.retained := by
    refine List.filter_eq_self.2 fun t ht => decide_eq_true ?_
    rintro rfl
    exact hs ht
  rw [releaseIfLive, value_eq_ok_iff.2 h, vacate, hret]

theorem releaseIfLive_of_stale (h : m.store.get? s = none) : m.releaseIfLive s = m := by
  unfold releaseIfLive
  split
  · next v hv =>
    rw [value_eq_ok_iff.1 hv] at h
    cases h
  · rfl

theorem exists_releases_foldl_releaseIfLive (go : List Slot) (m : Machine β)
    (hgo : ∀ s ∈ go, s ∉ m.retained) :
    ∃ rs, Releases m rs (go.foldl releaseIfLive m) ∧
      ∀ t, t ∈ rs ↔ t ∈ go ∧ m.store.isLive t = true := by
  induction go generalizing m with
  | nil => exact ⟨[], .nil m, by simp⟩
  | cons s go ih =>
    rw [List.foldl_cons]
    cases hs : m.store.get? s with
    | some v =>
      rw [releaseIfLive_of_get? hs (hgo s List.mem_cons_self)]
      have hrest : ∀ t ∈ go, t ∉ (m.vacate s v).retained := by
        intro t ht hmem
        rw [retained_vacate] at hmem
        exact hgo t (List.mem_cons_of_mem _ ht) (List.mem_filter.1 hmem).1
      obtain ⟨rs, hrel, hrs⟩ := ih (m.vacate s v) hrest
      refine ⟨s :: rs, .cons hs hrel, ?_⟩
      intro t
      rw [List.mem_cons, hrs t, isLive_vacate_iff hs, List.mem_cons]
      by_cases hts : t = s
      · subst hts
        simp [Store.isLive_iff.2 ⟨v, hs⟩]
      · simp [hts]
    | none =>
      rw [releaseIfLive_of_stale hs]
      obtain ⟨rs, hrel, hrs⟩ := ih m fun t ht => hgo t (List.mem_cons_of_mem _ ht)
      refine ⟨rs, hrel, ?_⟩
      intro t
      rw [hrs t, List.mem_cons]
      refine and_congr_left fun ht => ?_
      simp [ne_of_isLive ht hs]

/-- `reclaim` releases exactly what was allocated, is live and reached neither from the result nor
from a binding nor from a retained slot. It does not look at the retained slots when it releases;
they reach themselves, so it never comes to one. -/
theorem exists_releases_reclaim (m : Machine β) (allocated : List Slot) (result : Option Slot)
    (ctx : Context) :
    ∃ rs, Releases m rs (m.reclaim allocated result ctx).2 ∧
      ∀ t, t ∈ rs ↔ t ∈ allocated ∧ m.store.isLive t = true ∧
        ¬ m.store.Reaches (result.toList ++ m.roots ctx) t := by
  have hmem : ∀ t, t ∈ allocated.filter
      (not ∘ fun s => decide (s ∈ m.store.reach (result.toList ++ m.roots ctx))) ↔
        t ∈ allocated ∧ ¬ m.store.Reaches (result.toList ++ m.roots ctx) t := by
    intro t
    simp only [List.mem_filter, Function.comp_apply, Bool.not_eq_true', decide_eq_false_iff_not,
      Store.mem_reach]
  simp only [reclaim, List.partition_eq_filter_filter]
  obtain ⟨rs, hrel, hrs⟩ := exists_releases_foldl_releaseIfLive
    (allocated.filter (not ∘ fun s => decide (s ∈ m.store.reach (result.toList ++ m.roots ctx)))) m
    fun s hs hret => ((hmem s).1 hs).2 (.root (List.mem_append_right _
      (mem_roots_iff.2 (.inr (.inl hret)))))
  refine ⟨rs, hrel, fun t => (hrs t).trans ?_⟩
  rw [hmem, and_assoc]
  exact and_congr_right fun _ => and_comm

theorem mem_survivors_iff {allocated : List Slot} {result : Option Slot} {ctx : Context} :
    t ∈ (m.reclaim allocated result ctx).1 ↔ t ∈ allocated ∧
      m.store.Reaches (result.toList ++ m.roots ctx) t ∧ m.store.isLive t = true := by
  simp only [reclaim, List.partition_eq_filter_filter, List.mem_filter, decide_eq_true_eq,
    Store.mem_reach, and_assoc]

end SlotScript.Machine

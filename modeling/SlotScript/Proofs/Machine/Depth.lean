import SlotScript.Proofs.Machine.Acceptance
import SlotScript.Proofs.Machine.Lasting

/-!
# How deep lists nest

`Store.Shallow st k s` says that lists nest at most `k` deep in what the slot `s` holds. A text
whose brackets nest `k` deep is read into slots of this kind (`exists_shallow_of_parse`), and a slot
of this kind is written with `k + 1` levels to go (`calm_unfold`).

Lists are made by reading only. If every list of a later store was the same list before
(`Store.Trims`), then nothing has become deeper. Reading itself could make an old list deeper only
by storing in a slot that the list mentions, and such a slot was handed out before; so on a store
whose places last, all lists stay less deep than the limit (`Flat.parse`).
-/

namespace SlotScript

variable {β : Type}

/-! ## Shallow slots -/

namespace Store

variable {st st' st'' : Store β} {k k' : Nat} {s t : Slot}

/-- Lists nest at most `k` deep in what the slot holds. -/
def Shallow (st : Store β) : Nat → Slot → Prop
  | 0, s => ∀ items, st.get? s ≠ some (.list items)
  | k + 1, s => ∀ items, st.get? s = some (.list items) → ∀ t ∈ items, st.Shallow k t

namespace Shallow

theorem of_not_list (h : ∀ items, st.get? s ≠ some (.list items)) (k : Nat) : st.Shallow k s := by
  cases k with
  | zero => exact h
  | succ k => exact fun items hget => absurd hget (h items)

theorem succ (h : st.Shallow k s) : st.Shallow (k + 1) s := by
  induction k generalizing s with
  | zero => exact of_not_list h 1
  | succ k ih => exact fun items hget t ht => ih (h items hget t ht)

theorem mono (h : st.Shallow k s) (hk : k ≤ k') : st.Shallow k' s := by
  induction hk with
  | refl => exact h
  | step _ ih => exact ih.succ

/-- The items of a list are one less deep. -/
theorem items {items : List Slot} (h : st.Shallow k s) (hget : st.get? s = some (.list items)) :
    ∃ j, k = j + 1 ∧ ∀ t ∈ items, st.Shallow j t := by
  cases k with
  | zero => exact absurd hget (h items)
  | succ j => exact ⟨j, rfl, h items hget⟩

/-- What a slot reaches lies as it was, so the slot is as shallow as it was. -/
theorem congr {P : Slot → Prop} (hclosed : ∀ s, P s → ∀ t ∈ st.items s, P t)
    (hget : ∀ s, P s → st'.get? s = st.get? s) (hs : P s) (h : st.Shallow k s) :
    st'.Shallow k s := by
  induction k generalizing s with
  | zero =>
    intro items
    rw [hget s hs]
    exact h items
  | succ k ih =>
    intro items hitems t ht
    rw [hget s hs] at hitems
    refine ih (hclosed s hs t ?_) (h items hitems t ht)
    rw [items_of_get? hitems]
    exact ht

end Shallow

mutual

/-- Slots are as deep as the trees that they stand for. -/
theorem Shows.shallow : ∀ {t : Tree β} {s : Slot}, st.Shows s t → st.Shallow t.depth s
  | .leaf v, s, ⟨hget, hv⟩ => by
    intro items hlist
    obtain rfl := Option.some.inj (hget.symm.trans hlist)
    exact hv rfl
  | .node trees, s, ⟨items, hget, hall⟩ => by
    intro items' hlist
    obtain ⟨⟩ := Option.some.inj (hget.symm.trans hlist)
    exact hall.shallow

theorem ShowsAll.shallow : ∀ {trees : List (Tree β)} {ss : List Slot}, st.ShowsAll ss trees →
    ∀ s ∈ ss, st.Shallow (Tree.depthAll trees) s
  | [], _, rfl => fun s hs => absurd hs List.not_mem_nil
  | t :: trees, _, ⟨s, rest, rfl, hs, hrest⟩ => by
    intro r hr
    rcases List.mem_cons.1 hr with rfl | hr
    · exact hs.shallow.mono (Nat.le_max_left ..)
    · exact (hrest.shallow r hr).mono (Nat.le_max_right ..)

end

/-! ## Stores without new lists -/

/-- Every list of `st'` is the same list in `st`. -/
def Trims (st st' : Store β) : Prop :=
  ∀ s items, st'.get? s = some (.list items) → st.get? s = some (.list items)

namespace Trims

theorem of_get? (h : ∀ s, st'.get? s = st.get? s) : st.Trims st' :=
  fun s _ hget => (h s).symm.trans hget

theorem refl (st : Store β) : st.Trims st :=
  of_get? fun _ => rfl

theorem trans (h : st.Trims st') (h' : st'.Trims st'') : st.Trims st'' :=
  fun s items hget => h s items (h' s items hget)

theorem shallow (h : st.Trims st') (hs : st.Shallow k s) : st'.Shallow k s := by
  induction k generalizing s with
  | zero => exact fun items hget => hs items (h s items hget)
  | succ k ih => exact fun items hget t ht => ih (hs items (h s items hget) t ht)

theorem allocate (hst : st.WF) {v : Value β} (hv : ∀ items, v ≠ .list items) :
    st.Trims (st.allocate v).2 := by
  intro s items hget
  rw [hst.get?_allocate] at hget
  split at hget
  · exact absurd (Option.some.inj hget) (hv items)
  · exact hget

end Trims

end Store

namespace Machine

open SlotScript.Syntax (Nests Term)

variable {α γ : Type} {m m' : Machine β} {k room : Nat} {s : Slot} {expr : List Slot}
  {source : List Char}

theorem Releases.trims {rs : List Slot} (h : Releases m rs m') : m.store.Trims m'.store := by
  intro s items hget
  rw [h.get?] at hget
  split at hget
  · cases hget
  · exact hget

theorem trims_closeStatement (m : Machine β) (mark : Nat) (result : Option Slot) (ctx : Context) :
    m.store.Trims (m.closeStatement mark result ctx).store := by
  intro s items hget
  rw [get?_closeStatement] at hget
  split at hget
  · cases hget
  · exact hget

/-! ## Writing -/

/-- Something other than nesting too deep, if it fails at all. -/
def Calm (x : Except Error α) : Prop :=
  ∀ n, x ≠ .error (.tooDeep n)

theorem calm_ok (a : α) : Calm (.ok a) := by
  simp [Calm]

theorem calm_error {e : Error} (h : ∀ n, e ≠ .tooDeep n) : Calm (.error e : Except Error α) := by
  simpa [Calm] using h

/-- A failure that is passed on. -/
theorem Calm.error {x : Except Error α} {e : Error} (h : Calm x) (he : x = .error e) :
    Calm (.error e : Except Error γ) :=
  calm_error fun n hn => h n (hn ▸ he)

theorem Calm.map {x : Except Error α} (h : Calm x) (f : α → γ) : Calm (x.map f) := by
  cases x with
  | ok a => exact calm_ok _
  | error e => exact h.error rfl

theorem calm_value (m : Machine β) (s : Slot) : Calm (m.value s) := by
  unfold value Store.get
  split
  · exact calm_ok _
  · exact calm_error (by simp)

theorem calm_resolve (m : Machine β) (ctx : Context) (name : String) :
    Calm (m.resolve ctx name) := by
  unfold resolve
  split
  · exact calm_ok _
  · exact calm_error (by simp)

theorem calm_collect {f : α → Except Error γ} {members : List α} (h : ∀ a ∈ members, Calm (f a)) :
    Calm (collect f members) := by
  induction members with
  | nil => exact calm_ok _
  | cons a rest ih =>
    have ha := h a List.mem_cons_self
    rw [collect]
    cases hfa : f a with
    | error e => exact ha.error hfa
    | ok c => exact (ih fun b hb => h b (List.mem_cons_of_mem _ hb)).map _

/-- A slot is written if lists nest less deep in it than there are levels to go. -/
theorem calm_unfold (h : m.store.Shallow k s) (hk : k < room) : Calm (m.unfold room s) := by
  induction room generalizing k s with
  | zero => exact absurd hk (Nat.not_lt_zero k)
  | succ room ih =>
    rw [unfold]
    split
    · next e he => exact (calm_value m s).error he
    · next items hv =>
      obtain ⟨j, rfl, hitems⟩ := h.items (value_eq_ok_iff.1 hv)
      exact (calm_collect fun t ht => ih (hitems t ht) (Nat.lt_of_succ_lt_succ hk)).map _
    · exact calm_ok _

theorem calm_render (h : m.store.Shallow (m.config.maxDepth - 1) s) (hm : 0 < m.config.maxDepth) :
    Calm (m.render s) :=
  (calm_unfold h (Nat.sub_one_lt_of_lt hm)).map _

/-! ## Reading -/

/-- The slots of an expression are as shallow as the brackets of its text, which nest less deep than
the limit. -/
theorem exists_shallow_of_parse (hm : m.store.WF) (h : m.parse source = (.ok expr, m')) :
    ∃ k, k < m'.config.maxDepth ∧ (∀ d, Nests d source → d = k) ∧
      ∀ s ∈ expr, m'.store.Shallow k s := by
  obtain ⟨terms, hread, hprints⟩ := prints_of_parse hm h
  refine ⟨_, hprints.depth, fun d hd => ?_, hprints.shows.shallow⟩
  obtain ⟨terms', hread', hdepth⟩ := Term.exists_read_of_nests hd
  obtain rfl : terms = terms' := Except.ok.inj (hread.symm.trans hread')
  exact (Term.depthAll_trees terms ▸ hdepth).symm

/-- Between statements: lists nest less deep than the limit, and their items were handed out. -/
structure Flat (m : Machine β) : Prop where
  wf : m.store.WF
  shallow : ∀ s, m.store.Shallow (m.config.maxDepth - 1) s
  issued : ∀ s, ∀ t ∈ m.store.items s, m.store.Issued t
  depth : m.depth = 0

namespace Flat

theorem trims (h : Flat m) (htrims : m.store.Trims m'.store) (hlast : m.store.Lasts m'.store)
    (hconfig : m'.config = m.config) (hdepth : m'.depth = m.depth) : Flat m' := by
  refine ⟨hlast.wf, fun s => ?_, fun s t ht => ?_, hdepth.trans h.depth⟩
  · rw [hconfig]
    exact htrims.shallow (h.shallow s)
  · obtain ⟨items, hget, hmem⟩ := Store.exists_list_of_mem_items ht
    refine hlast.issued (h.issued s t ?_)
    rw [Store.items_of_get? (htrims s items hget)]
    exact hmem

/-- Reading stores in new slots, which no list mentions that was there before. -/
theorem parse (h : Flat m) (hparse : m.parse source = (.ok expr, m'))
    (hlast : m.store.Lasts m'.store) : Flat m' := by
  obtain ⟨ss, hloads⟩ := exists_loads_of_parse h.wf hparse
  obtain ⟨k, hk, -, hexpr⟩ := exists_shallow_of_parse h.wf hparse
  have hrun := hloads.stores.run
  have hnew : ∀ s ∈ ss, ¬ m.store.Issued s := fun s hs =>
    hlast.not_issued_of_stored hrun.changes (List.mem_map_of_mem hs)
  have hold : ∀ s, m.store.Issued s → m'.store.get? s = m.store.get? s := fun s hs =>
    hloads.stores.get?_of_notMem h.wf fun hmem => hnew s hmem hs
  have hreached : ∀ s, m'.store.Reaches expr s → m'.store.Shallow (m'.config.maxDepth - 1) s := by
    intro s hs
    induction hs with
    | root hs => exact (hexpr _ hs).mono (Nat.le_sub_one_of_lt hk)
    | @item s t _ ht ih =>
      obtain ⟨items, hget, hmem⟩ := Store.exists_list_of_mem_items ht
      obtain ⟨j, hj, hitems⟩ := ih.items hget
      exact (hitems t hmem).mono (by omega)
  refine ⟨hlast.wf, fun s => ?_, fun s t ht => ?_, hrun.depth.trans h.depth⟩
  · by_cases hs : s ∈ ss
    · exact hreached s (hloads.mem_iff.1 hs)
    · by_cases hissued : m.store.Issued s
      · rw [hrun.config]
        exact (h.shallow s).congr (fun s _ t ht => h.issued s t ht) hold hissued
      · -- Not handed out before and not stored in since: the slot is not live.
        refine .of_not_list (fun items hget => ?_) _
        rw [hloads.stores.get?_of_notMem h.wf hs] at hget
        exact hissued (Store.issued_of_get? hget)
  · by_cases hs : s ∈ ss
    · obtain ⟨v, hv⟩ := Store.isLive_iff.1
        (hloads.stores.isLive_of_mem h.wf (hloads.mem_iff.2 ((hloads.mem_iff.1 hs).item ht)))
      exact Store.issued_of_get? hv
    · rw [Store.items_congr (hloads.stores.get?_of_notMem h.wf hs)] at ht
      exact hlast.issued (h.issued s t ht)

theorem undoes (h : Flat m) (hu : Undoes m m') (hlast : m.store.Lasts m'.store) : Flat m' := by
  obtain ⟨es, hrun, -⟩ := hu.run
  exact h.trims (.of_get? hu.get?) hlast hrun.config hrun.depth

end Flat

end Machine

end SlotScript

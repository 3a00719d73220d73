import SlotScript.Machine.Eval
import SlotScript.Proofs.Machine.Releases
import SlotScript.Proofs.Store.History

/-!
# Runs of a machine

A builtin changes a machine only through requests, and a request comes down to a few small changes:
a value is stored in the next slot, a live slot is overwritten or released, bindings, retained slots
and notices change. `Run m es m'` says that such changes lead from `m` to `m'`; the events `es`
tell, in order, which slots were stored in and which ones ended, and why. Two constructors are
brackets. What a text that cannot be read takes back was stored since its reading began, and what
the end of a statement reclaims is what `closeStatement` releases.

A run says nothing about which library it belongs to. `runs_evaluate` shows that every
evaluation with every library is a run, so a property of all runs holds whatever the builtins do.

The facts about runs are inductions over their steps:

* `Run.changes`: the events of a run are those of its store, which stays well formed;
* `Run.journal`: what a run has added to the journal was stored by it;
* `Run.isLive`: a slot that was live and that no request released is live, and was not stored anew.

`FreesOnly` keeps an account of the slots that are released by request, so that it can be said of an
evaluation which requests they are due to.
-/

namespace SlotScript

namespace Machine

variable {β : Type}

/-! ## The end of a statement -/

variable {m m' : Machine β} {es es' : List Event} {s t : Slot} {mark : Nat} {result : Option Slot}
  {ctx : Context}

@[simp] theorem get?_openStatement : m.openStatement.2.store.get? s = m.store.get? s :=
  Store.get?_openJournal

@[simp] theorem get?_closeJournal : (m.closeJournal mark).2.store.get? s = m.store.get? s :=
  Store.get?_closeJournal mark

theorem closeJournal_fst : (m.closeJournal mark).1 = m.store.journal.toList.drop mark :=
  Store.closeJournal_fst mark

theorem reaches_closeJournal_iff {roots : List Slot} :
    (m.closeJournal mark).2.store.Reaches roots t ↔ m.store.Reaches roots t :=
  Store.Reaches.congr fun _ _ => Store.items_congr get?_closeJournal

/-- The end of a statement releases slots one after the other, those in its journal that are live
and that neither the result nor a binding nor a retained slot reaches. -/
theorem exists_releases_closeStatement (m : Machine β) (mark : Nat) (result : Option Slot)
    (ctx : Context) :
    ∃ rs m', Releases (m.closeJournal mark).2 rs m' ∧
      m.closeStatement mark result ctx = { m' with
        store := m'.store.note
          ((m.closeJournal mark).2.reclaim (m.closeJournal mark).1 result ctx).1 } ∧
      ∀ t, t ∈ rs ↔ t ∈ m.store.journal.toList.drop mark ∧ m.store.isLive t = true ∧
        ¬ m.store.Reaches (result.toList ++ m.roots ctx) t := by
  obtain ⟨rs, hrel, hrs⟩ :=
    exists_releases_reclaim (m.closeJournal mark).2 (m.closeJournal mark).1 result ctx
  refine ⟨rs, _, hrel, rfl, ?_⟩
  intro t
  rw [hrs t, closeJournal_fst, reaches_closeJournal_iff, Store.isLive, get?_closeJournal]
  rfl

theorem get?_closeStatement :
    (m.closeStatement mark result ctx).store.get? t =
      if t ∈ m.store.journal.toList.drop mark ∧
        ¬ m.store.Reaches (result.toList ++ m.roots ctx) t then none else m.store.get? t := by
  obtain ⟨rs, m', hrel, heq, hrs⟩ := exists_releases_closeStatement m mark result ctx
  rw [heq, Store.get?_note, hrel.get?, get?_closeJournal]
  cases hv : m.store.get? t with
  | none => simp
  | some v =>
    have hlive : m.store.isLive t = true := Store.isLive_iff.2 ⟨v, hv⟩
    simp only [hrs, hlive, true_and]

/-- The end of a statement releases nothing that is reached from a root, so the roots stay as they
are. -/
theorem roots_closeStatement :
    (m.closeStatement mark result ctx).roots ctx = m.roots ctx := by
  obtain ⟨rs, m', hrel, heq, hrs⟩ := exists_releases_closeStatement m mark result ctx
  have hroots : m'.roots ctx = (m.closeJournal mark).2.roots ctx := by
    refine hrel.roots ctx fun r hr hreach => ((hrs r).1 hr).2.2 ?_
    rw [reaches_closeJournal_iff] at hreach
    exact hreach.mono (List.subset_append_right ..)
  rw [heq]
  exact hroots

theorem reaches_closeStatement_iff :
    (m.closeStatement mark result ctx).store.Reaches (result.toList ++ m.roots ctx) t ↔
      m.store.Reaches (result.toList ++ m.roots ctx) t := by
  refine Store.Reaches.congr fun r hr => Store.items_congr ?_
  rw [get?_closeStatement, if_neg fun hc => hc.2 hr]

theorem items_closeStatement_subset :
    (m.closeStatement mark result ctx).store.items t ⊆ m.store.items t := by
  obtain ⟨rs, m', hrel, heq, -⟩ := exists_releases_closeStatement m mark result ctx
  intro s hs
  rw [heq, Store.items_congr (Store.get?_note _)] at hs
  have hs := hrel.items_subset hs
  rwa [Store.items_congr get?_closeJournal] at hs

@[simp] theorem config_closeStatement : (m.closeStatement mark result ctx).config = m.config := by
  obtain ⟨rs, m', hrel, heq, -⟩ := exists_releases_closeStatement m mark result ctx
  rw [heq]
  exact hrel.config

@[simp] theorem depth_closeStatement : (m.closeStatement mark result ctx).depth = m.depth := by
  obtain ⟨rs, m', hrel, heq, -⟩ := exists_releases_closeStatement m mark result ctx
  rw [heq]
  exact hrel.depth

@[simp] theorem globals_closeStatement :
    (m.closeStatement mark result ctx).globals = m.globals := by
  obtain ⟨rs, m', hrel, heq, -⟩ := exists_releases_closeStatement m mark result ctx
  rw [heq]
  exact hrel.globals

theorem journals_closeStatement :
    (m.closeStatement mark result ctx).store.journals = m.store.journals - 1 := by
  obtain ⟨rs, m', hrel, heq, -⟩ := exists_releases_closeStatement m mark result ctx
  rw [heq, Store.journals_note, hrel.journal.2]
  rfl

/-- The end of a statement cuts the journal at the mark and writes some of what it cut off behind
the mark again. -/
theorem journal_closeStatement (m : Machine β) (mark : Nat) (result : Option Slot)
    (ctx : Context) :
    ∃ written, (m.closeStatement mark result ctx).store.journal.toList =
      m.store.journal.toList.take mark ++ written ∧
        written ⊆ m.store.journal.toList.drop mark := by
  obtain ⟨rs, m', hrel, heq, -⟩ := exists_releases_closeStatement m mark result ctx
  have hcut : (m.closeJournal mark).2.store.journal.toList = m.store.journal.toList.take mark :=
    Store.toList_journal_closeJournal mark
  refine ⟨_, by rw [heq, Store.toList_journal_note, hrel.journal.1, hcut], ?_⟩
  intro s hs
  split at hs
  · have hs := (mem_survivors_iff.1 hs).1
    rwa [closeJournal_fst] at hs
  · cases hs

theorem Releases.changes {rs : List Slot} {f : Slot → Event} (h : Releases m rs m')
    (hf : ∀ s, (f s).ended? = some s) : m.store.Changes (rs.map f) m'.store := by
  induction h with
  | nil m => exact .refl _
  | @cons m m' s v rs hs hr ih =>
    rw [store_vacate] at ih
    exact .trans (.vacate hs (hf s)) ih

theorem Releases.changes_closeStatement {m'' : Machine β} {rs survivors : List Slot}
    (h : Releases (m'.closeJournal mark).2 rs m'')
    (heq : m'.closeStatement mark result ctx = { m'' with store := m''.store.note survivors }) :
    m'.store.Changes (rs.map .reclaimed) (m'.closeStatement mark result ctx).store := by
  have hclose : m'.store.Changes [] (m'.closeJournal mark).2.store := .aside rfl rfl rfl
  have hnote : m''.store.Changes [] (m''.store.note survivors) :=
    .aside (Store.places_note _) (Store.vacant_note _) (by rw [Store.tally_note])
  have hrel := h.changes (f := Event.reclaimed) fun _ => rfl
  have hall := (hclose.trans hrel).trans hnote
  rw [List.nil_append, List.append_nil] at hall
  rw [heq]
  exact hall

/-! ## Runs -/

/-- The operations of builtins lead from one machine to another. -/
inductive Run : Machine β → List Event → Machine β → Prop
  | refl (m : Machine β) : Run m [] m
  | trans {m m' m'' : Machine β} {es es' : List Event} (h : Run m es m') (h' : Run m' es' m'') :
      Run m (es ++ es') m''
  /-- Bindings, retained slots and notices change. -/
  | outside (m : Machine β) (globals : Bindings) (retained : List Slot) (notices : List Notice) :
      Run m [] { m with globals, retained, notices }
  /-- A value is stored in the next slot. -/
  | store (m : Machine β) (v : Value β) : Run m [.stored m.store.nextSlot] (m.allocate v).2
  /-- A live slot is overwritten. -/
  | put {m : Machine β} {s : Slot} {w : Value β} (hs : m.store.get? s = some w) (v : Value β) :
      Run m [] { m with store := m.store.put s v }
  /-- Live slots are released by a request. -/
  | release {m m' : Machine β} {rs : List Slot} (h : Releases m rs m') :
      Run m (rs.map .released) m'
  /-- Slots that were not live at the start are taken back. -/
  | undo {m m' m'' : Machine β} {es : List Event} {rs : List Slot} (h : Run m es m')
      (hr : Releases m' rs m'') (hm : ∀ s ∈ rs, m.store.get? s = none) :
      Run m (es ++ rs.map .undone) m''
  /-- Something happens at a deeper level. -/
  | deeper {m m' : Machine β} {es : List Event} (h : Run { m with depth := m.depth + 1 } es m') :
      Run m es { m' with depth := m'.depth - 1 }
  /-- Something happens in a statement, whose end releases the slots `rs` and writes some of the
  other ones into the enclosing journal. -/
  | statement {m m' m'' : Machine β} {es : List Event} {rs survivors : List Slot}
      {result : Option Slot} {ctx : Context} (h : Run m.openStatement.2 es m')
      (hr : Releases (m'.closeJournal m.store.journal.size).2 rs m'')
      (heq : m'.closeStatement m.store.journal.size result ctx =
        { m'' with store := m''.store.note survivors }) :
      Run m (es ++ rs.map .reclaimed) (m'.closeStatement m.store.journal.size result ctx)

/-! ## Facts about runs -/

namespace Run

theorem register (m : Machine β) (name : String) (v : Value β) :
    Run m [.stored m.store.nextSlot] (m.register name v).2 := by
  have h := (Run.store m v).trans (.outside _ (m.globals.assign name m.store.nextSlot).2 m.retained
    m.notices)
  rwa [List.append_nil] at h

theorem changes (h : Run m es m') : m.store.Changes es m'.store := by
  induction h with
  | refl m => exact .refl _
  | trans _ _ ih ih' => exact ih.trans ih'
  | outside m globals retained notices => exact .refl _
  | store m v => exact .store _ v
  | put hs v => exact .put hs v
  | release hr => exact hr.changes fun _ => rfl
  | undo _ hr _ ih => exact ih.trans (hr.changes fun _ => rfl)
  | deeper _ ih => exact ih
  | @statement m m' m'' es rs survivors result ctx _ hr heq ih =>
    have hopen : m.store.Changes [] m.openStatement.2.store := .aside rfl rfl rfl
    have h := (hopen.trans ih).trans (hr.changes_closeStatement heq)
    rwa [List.nil_append] at h

theorem wf (h : Run m es m') (hm : m.store.WF) : m'.store.WF :=
  h.changes.wf hm

theorem config (h : Run m es m') : m'.config = m.config := by
  induction h with
  | refl m => rfl
  | trans _ _ ih ih' => exact ih'.trans ih
  | outside m globals retained notices => rfl
  | store m v => rfl
  | put hs v => rfl
  | release hr => exact hr.config
  | undo _ hr _ ih => exact hr.config.trans ih
  | deeper _ ih => exact ih
  | statement _ _ _ ih => exact config_closeStatement.trans ih

theorem depth (h : Run m es m') : m'.depth = m.depth := by
  induction h with
  | refl m => rfl
  | trans _ _ ih ih' => exact ih'.trans ih
  | outside m globals retained notices => rfl
  | store m v => rfl
  | put hs v => rfl
  | release hr => exact hr.depth
  | undo _ hr _ ih => exact hr.depth.trans ih
  | deeper _ ih =>
    show _ - 1 = _
    rw [ih]
    exact Nat.add_sub_cancel ..
  | statement _ _ _ ih => exact depth_closeStatement.trans ih

theorem journals (h : Run m es m') : m'.store.journals = m.store.journals := by
  induction h with
  | refl m => rfl
  | trans _ _ ih ih' => exact ih'.trans ih
  | outside m globals retained notices => rfl
  | store m v => exact Store.journals_allocate
  | put hs v => rfl
  | release hr => exact hr.journal.2
  | undo _ hr _ ih => exact hr.journal.2.trans ih
  | deeper _ ih => exact ih
  | @statement m m' m'' es rs survivors result ctx _ _ _ ih =>
    have hopen : m'.store.journals = m.store.journals + 1 := ih
    rw [journals_closeStatement, hopen]
    exact Nat.add_sub_cancel ..

/-- A run leaves the journal as it was and writes behind it, and it writes only slots that it stored
in. -/
theorem journal (h : Run m es m') : m.store.WritesOn es m'.store := by
  induction h with
  | refl m => exact .same rfl
  | trans _ _ ih ih' => exact ih.trans ih'
  | outside m globals retained notices => exact .same rfl
  | store m v => exact .allocate _ v
  | put hs v => exact .same rfl
  | release hr => exact .same hr.journal.1
  | undo _ hr _ ih => exact ih.trans (.same hr.journal.1)
  | deeper _ ih => exact ih
  | @statement m m' m'' es rs survivors result ctx _ _ _ ih =>
    -- The statement's journal stands behind the mark, and what survives goes behind the mark again.
    obtain ⟨w, hw, hes⟩ := ih
    have hw : m'.store.journal.toList = m.store.journal.toList ++ w := hw
    obtain ⟨w', hw', hsub⟩ := journal_closeStatement m' m.store.journal.size result ctx
    rw [hw, ← Array.length_toList, List.take_left] at hw'
    rw [hw, ← Array.length_toList, List.drop_left] at hsub
    exact ⟨w', hw', fun s hs => List.mem_append_left _ (hes s (hsub hs))⟩

/-- A slot that is live at the start and that no request releases stays live, and nothing is stored
in it. The journal is what connects the two: only what was stored since a statement began can be
reclaimed at its end. -/
theorem isLive (h : Run m es m') (hm : m.store.WF) (hs : m.store.isLive s = true)
    (hes : .released s ∉ es) : m'.store.isLive s = true ∧ .stored s ∉ es := by
  induction h with
  | refl m => exact ⟨hs, by simp⟩
  | trans h _ ih ih' =>
    rw [List.mem_append, not_or] at hes
    have h1 := ih hm hs hes.1
    have h2 := ih' (h.wf hm) h1.1 hes.2
    exact ⟨h2.1, by rw [List.mem_append, not_or]; exact ⟨h1.2, h2.2⟩⟩
  | outside m globals retained notices => exact ⟨hs, by simp⟩
  | store m v =>
    have hne : s ≠ m.store.nextSlot := ne_of_isLive hs hm.get?_nextSlot
    refine ⟨?_, by simpa using hne⟩
    show ((m.store.allocate v).2.get? s).isSome = true
    rw [hm.get?_allocate, if_neg hne]
    exact hs
  | @put m r w hr v =>
    refine ⟨?_, by simp⟩
    show ((m.store.put r v).get? s).isSome = true
    rw [Store.get?_put hr]
    split
    · rfl
    · exact hs
  | release hr =>
    have hn : s ∉ _ := fun h => hes (List.mem_map_of_mem h)
    refine ⟨?_, by simp⟩
    rw [Store.isLive, hr.get?_of_notMem hn]
    exact hs
  | undo _ hr hfresh ih =>
    rw [List.mem_append, not_or] at hes
    have h1 := ih hm hs hes.1
    refine ⟨?_, by simpa using h1.2⟩
    rw [Store.isLive, hr.get?_of_notMem fun h => ne_of_isLive hs (hfresh s h) rfl]
    exact h1.1
  | deeper _ ih => exact ih hm hs hes
  | @statement m m' m'' es rs survivors result ctx h _ _ ih =>
    rw [List.mem_append, not_or] at hes
    have h1 := ih hm.openJournal (by rw [Store.isLive, get?_openStatement]; exact hs) hes.1
    obtain ⟨w, hw, hstored⟩ := h.journal
    have hw : m'.store.journal.toList = m.store.journal.toList ++ w := hw
    -- Only what stands in the statement's journal is reclaimed, and that was stored in.
    have hn : s ∉ m'.store.journal.toList.drop m.store.journal.size := by
      rw [hw, ← Array.length_toList, List.drop_left]
      exact fun hmem => h1.2 (hstored s hmem)
    refine ⟨?_, by simpa using h1.2⟩
    rw [Store.isLive, get?_closeStatement, if_neg fun hc => hn hc.1]
    exact h1.1

end Run

/-! ## What is released by request -/

/-- A run leads from `m` to `m'` in which requests release no slots but those that `p` allows. -/
def FreesOnly (p : Slot → Prop) (m m' : Machine β) : Prop :=
  ∃ es, Run m es m' ∧ ∀ s, .released s ∈ es → p s

namespace FreesOnly

variable {p q : Slot → Prop} {m'' : Machine β}

theorem refl (p : Slot → Prop) (m : Machine β) : FreesOnly p m m :=
  ⟨[], .refl m, fun _ hs => (nomatch hs)⟩

theorem exists_run (h : FreesOnly p m m') : ∃ es, Run m es m' :=
  h.imp fun _ hes => hes.1

theorem mono (h : FreesOnly p m m') (hpq : ∀ s, p s → q s) : FreesOnly q m m' :=
  h.imp fun _ hes => ⟨hes.1, fun s hs => hpq s (hes.2 s hs)⟩

theorem trans (h : FreesOnly p m m') (h' : FreesOnly p m' m'') : FreesOnly p m m'' := by
  obtain ⟨es, hrun, hes⟩ := h
  obtain ⟨es', hrun', hes'⟩ := h'
  refine ⟨es ++ es', hrun.trans hrun', fun s hs => ?_⟩
  exact (List.mem_append.1 hs).elim (hes s) (hes' s)

theorem release {rs : List Slot} (h : Releases m rs m') (hrs : ∀ s ∈ rs, p s) :
    FreesOnly p m m' := by
  refine ⟨_, .release h, fun s hs => ?_⟩
  obtain ⟨r, hr, heq⟩ := List.mem_map.1 hs
  cases heq
  exact hrs s hr

end FreesOnly

end Machine

end SlotScript

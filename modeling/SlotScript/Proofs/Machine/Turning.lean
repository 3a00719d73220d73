import SlotScript.Proofs.Machine.Levels

/-!
# Places that come round

A text that is nothing but an unbound name takes the place that was released last, fails and gives
the place back, one generation on. That is all it does, apart from the counters (`eval_unbound`), so
by repeating it the place goes through all its generations and comes back to the one it was in
(`turned_turned`).
-/

namespace SlotScript.Machine

variable {β : Type} {m : Machine β} {name source : String}

/-- A machine between statements with a vacant place, on which a name stands for nothing. What
nothing keeps is released after a statement, and no root is a list or a slot of the next place. -/
structure Idle (m : Machine β) (name : String) : Prop where
  wf : m.store.WF
  reclaims : m.config.reclaimTemporaries = true
  room : m.depth < m.config.maxDepth
  vacant : m.store.vacant ≠ []
  journal : m.store.journal = #[]
  journals : m.store.journals = 0
  unbound : m.globals.find? name = none
  aside : ∀ r ∈ m.roots none, m.store.items r = [] ∧ r.index ≠ m.store.nextSlot.index

/-- The next place is `n` generations on, each of which held a value that was then released. -/
def turned (m : Machine β) (n : Nat) : Machine β :=
  { m with
    store := { m.store with
      places := m.store.places.setIfInBounds m.store.nextSlot.index
        ⟨m.store.nextSlot.generation + UInt32.ofNat n, none⟩
      tally := { m.store.tally with
        stored := m.store.tally.stored + n
        reused := m.store.tally.reused + n
        released := m.store.tally.released + n } } }

namespace Idle

theorem nextSlot_cases (h : Idle m name) :
    ∃ rest, m.store.vacant = m.store.nextSlot.index :: rest ∧
      m.store.places[m.store.nextSlot.index]? = some ⟨m.store.nextSlot.generation, none⟩ :=
  h.wf.nextSlot_cases.resolve_right fun hnone => h.vacant hnone.1

/-- Turning changes only slots of the next place. -/
theorem get?_turned {n : Nat} {s : Slot} (hs : s.index ≠ m.store.nextSlot.index) :
    (m.turned n).store.get? s = m.store.get? s := by
  have hplace : (m.turned n).store.places[s.index]? = m.store.places[s.index]? :=
    Array.getElem?_setIfInBounds_ne hs.symm
  simp only [Store.get?, hplace]

theorem nextSlot_turned (h : Idle m name) (n : Nat) :
    (m.turned n).store.nextSlot =
      ⟨m.store.nextSlot.index, m.store.nextSlot.generation + UInt32.ofNat n⟩ := by
  obtain ⟨rest, hvacant, hplace⟩ := h.nextSlot_cases
  obtain ⟨hlt, -⟩ := Array.getElem?_eq_some_iff.1 hplace
  have hvacant' : (m.turned n).store.vacant = m.store.nextSlot.index :: rest := hvacant
  have hplace' : (m.turned n).store.places[m.store.nextSlot.index]? =
      some ⟨m.store.nextSlot.generation + UInt32.ofNat n, none⟩ :=
    Array.getElem?_setIfInBounds_self_of_lt hlt
  generalize m.store.nextSlot = next at hvacant' hplace' ⊢
  rw [Store.nextSlot, hvacant']
  simp only [hplace', Option.map_some, Option.getD_some]

theorem turned_zero (h : Idle m name) : m.turned 0 = m := by
  obtain ⟨rest, -, hplace⟩ := h.nextSlot_cases
  have hsame : m.store.places.setIfInBounds m.store.nextSlot.index
      ⟨m.store.nextSlot.generation + UInt32.ofNat 0, none⟩ = m.store.places := by
    have hzero : m.store.nextSlot.generation + UInt32.ofNat 0 = m.store.nextSlot.generation :=
      UInt32.add_zero _
    rw [hzero]
    refine Array.ext_getElem? fun j => ?_
    by_cases hj : m.store.nextSlot.index = j
    · subst hj
      rw [hplace]
      exact Array.getElem?_setIfInBounds_self_of_lt (Array.getElem?_eq_some_iff.1 hplace).1
    · exact Array.getElem?_setIfInBounds_ne hj
  unfold turned
  rw [hsame]
  rfl

theorem turned_turned (h : Idle m name) (n k : Nat) : (m.turned n).turned k = m.turned (n + k) := by
  have hgeneration : m.store.nextSlot.generation + UInt32.ofNat n + UInt32.ofNat k =
      m.store.nextSlot.generation + UInt32.ofNat (n + k) := by
    rw [UInt32.add_assoc, UInt32.ofNat_add]
  have hnext := h.nextSlot_turned n
  unfold turned at hnext ⊢
  simp only [hnext, Array.setIfInBounds_setIfInBounds, hgeneration, Nat.add_assoc]

theorem wf_turned (h : Idle m name) (n : Nat) : (m.turned n).store.WF := by
  obtain ⟨rest, hvacant, hplace⟩ := h.nextSlot_cases
  refine ⟨h.wf.nodup, fun {i} => ?_⟩
  by_cases hi : m.store.nextSlot.index = i
  · subst hi
    have hturned := Array.getElem?_setIfInBounds_self_of_lt
      (a := ⟨m.store.nextSlot.generation + UInt32.ofNat n, none⟩)
      (Array.getElem?_eq_some_iff.1 hplace).1
    exact iff_of_true (hvacant ▸ List.mem_cons_self) ⟨_, hturned⟩
  · have hsame : (m.turned n).store.places[i]? = m.store.places[i]? :=
      Array.getElem?_setIfInBounds_ne hi
    rw [hsame]
    exact h.wf.mem_vacant

/-- A turned machine is as idle as it was. -/
theorem turned (h : Idle m name) (n : Nat) : Idle (m.turned n) name := by
  have hnext := h.nextSlot_turned n
  refine ⟨h.wf_turned n, h.reclaims, h.room, h.vacant, h.journal, h.journals, h.unbound,
    fun r hr => ?_⟩
  obtain ⟨hitems, hindex⟩ := h.aside r hr
  rw [hnext]
  exact ⟨(Store.items_congr (get?_turned hindex)).trans hitems, hindex⟩

end Idle

/-! ## What a turn does -/

theorem parse_symbol (hm : 0 < m.config.maxDepth)
    (hread : Syntax.Term.read source.toList = .ok [.symbol name]) :
    m.parse source.toList =
      (.ok [m.store.nextSlot], (m.allocate (.symbol name)).2) := by
  obtain ⟨room, hroom⟩ := Nat.exists_eq_succ_of_ne_zero (Nat.ne_of_gt hm)
  rw [parse, hroom]
  simp only [hread, loadAll, load, List.reverse_singleton]
  rfl

theorem evaluate_unbound (lib : Library β) {s : Slot} (hroom : m.depth < m.config.maxDepth)
    (hs : m.store.get? s = some (.symbol name)) (hunbound : m.globals.find? name = none) :
    evaluate lib [s] none m = ((.error (.undefinedSymbol name), none), m) := by
  obtain ⟨room, hroom⟩ := Nat.exists_eq_succ_of_ne_zero (Nat.sub_ne_zero_of_lt hroom)
  have hoperator : ({ m with depth := m.depth + 1 } : Machine β).operator none s =
      .error (.undefinedSymbol name) := by
    have hvalue : ({ m with depth := m.depth + 1 } : Machine β).value s = .ok (.symbol name) :=
      value_eq_ok_iff.2 hs
    rw [operator, hvalue]
    simp only [resolve, Context.resolve?_none, hunbound]
  rw [evaluate, hroom, evaluateAt, apply, hoperator]
  rfl

/-- Of one allocated slot that no root reaches, only the value goes. -/
theorem reclaim_of_not_reaches {s : Slot} {v : Value β} (hs : m.store.get? s = some v)
    (hfree : ¬ m.store.Reaches (m.roots none) s) :
    m.reclaim [s] none none = ([], { m with store := m.store.vacate s v }.discard v) := by
  have hkept : ¬ s ∈ m.store.reach (m.roots none) := fun h => hfree (Store.mem_reach.1 h)
  have hrelease : m.releaseIfLive s = { m with store := m.store.vacate s v }.discard v := by
    rw [releaseIfLive, value_eq_ok_iff.2 hs]
  rw [← hrelease]
  simp [reclaim, List.partition_eq_filter_filter, hkept]

namespace Idle

/-- A value that is stored in the next place and released again leaves it one generation on. -/
theorem vacate_allocate (h : Idle m name) {v : Value β} (hv : v.isText = false) :
    ((m.store.openJournal.2.allocate v).2.closeJournal 0).2.vacate m.store.nextSlot v =
      (m.turned 1).store := by
  obtain ⟨rest, hvacant, -⟩ := h.nextSlot_cases
  have hnext : m.store.openJournal.2.nextSlot = m.store.nextSlot := rfl
  have hopen : m.store.openJournal.2.vacant = m.store.nextSlot.index :: rest := hvacant
  have hnoted : 0 < m.store.openJournal.2.journals := Nat.succ_pos _
  have htally : (m.store.tally.store v true).release v = (m.turned 1).store.tally := by
    simp only [Tally.store, Tally.release, hv, Bool.false_eq_true, ↓reduceIte, Nat.add_zero]
    rfl
  have hjournal : (m.store.journal.appendList [m.store.nextSlot]).shrink 0 = m.store.journal := by
    rw [h.journal]
    rfl
  simp only [Store.allocate, hopen, hnext, Store.note, hnoted, ↓reduceIte, Store.closeJournal,
    Store.vacate, Array.setIfInBounds_setIfInBounds, List.tail_cons, Nat.add_sub_cancel]
  exact (Store.mk.injEq ..).mpr ⟨rfl, hvacant.symm, rfl, htally, hjournal, rfl⟩

/-- No root reaches the next slot, also when a value is stored there. -/
theorem not_reaches_nextSlot (h : Idle m name) {store : Store β}
    (hstore : ∀ s, s ≠ m.store.nextSlot → store.get? s = m.store.get? s) :
    ¬ store.Reaches (m.roots none) m.store.nextSlot := by
  intro hreach
  have hroot : m.store.nextSlot ∈ m.roots none := by
    refine Store.Reaches.closed (fun r hr => hr) (fun r hr t ht => ?_) hreach
    obtain ⟨hitems, hindex⟩ := h.aside r hr
    have hne : r ≠ m.store.nextSlot := fun heq => hindex (congrArg Slot.index heq)
    rw [Store.items_congr (hstore r hne), hitems] at ht
    cases ht
  exact (h.aside _ hroot).2 rfl

/-- The one slot that the statement allocated goes, and its place is vacant again. -/
theorem closeStatement (h : Idle m name) :
    (m.openStatement.2.allocate (.symbol name)).2.closeStatement 0 none none = m.turned 1 := by
  have hopen : m.openStatement.2.store.WF := h.wf.openJournal
  have hallocated : ((m.openStatement.2.allocate (.symbol name)).2.closeJournal 0).1 =
      [m.store.nextSlot] := by
    have hmark : (m.openStatement.2.allocate (.symbol name)).2.store.journal.toList =
        m.store.journal.toList ++ if 0 < m.store.journals + 1 then [m.store.nextSlot] else [] :=
      Store.toList_journal_allocate
    rw [h.journal] at hmark
    exact (Store.closeJournal_fst 0).trans hmark
  have hget : ∀ s, ((m.openStatement.2.allocate (.symbol name)).2.closeJournal 0).2.store.get? s =
      if s = m.store.nextSlot then some (.symbol name) else m.store.get? s :=
    fun s => (Store.get?_closeJournal 0).trans hopen.get?_allocate
  have hreclaim := reclaim_of_not_reaches ((hget _).trans (if_pos rfl))
    (h.not_reaches_nextSlot fun s hs => (hget s).trans (if_neg hs))
  have hstore : ((m.openStatement.2.allocate (.symbol name)).2.closeJournal 0).2.store.vacate
      m.store.nextSlot (.symbol name) = (m.turned 1).store := h.vacate_allocate rfl
  rw [Machine.closeStatement]
  simp only [hallocated, hreclaim]
  rw [hstore]
  have hnote : (m.turned 1).store.note [] = (m.turned 1).store :=
    if_neg (Nat.not_lt.2 (Nat.le_of_eq h.journals))
  exact congrArg (fun store => ({ m with store } : Machine β)) hnote

end Idle

/-- A text that is an unbound name takes the next place and gives it back. -/
theorem eval_unbound (lib : Library β) (h : Idle m name)
    (hs : Syntax.statements ';' source.toList = .ok [source.toList])
    (hread : Syntax.Term.read source.toList = .ok [.symbol name]) :
    m.eval lib source none = ((.error (.undefinedSymbol name), none), m.turned 1) := by
  have hm : 0 < m.openStatement.2.config.maxDepth := Nat.zero_lt_of_lt h.room
  have hopen : m.openStatement.2.store.WF := h.wf.openJournal
  have hstored : (m.openStatement.2.allocate (.symbol name)).2.store.get?
      m.openStatement.2.store.nextSlot = some (.symbol name) :=
    hopen.get?_allocate.trans (if_pos rfl)
  have hone : evaluateOne (evaluate lib) source.toList none m.openStatement.2 =
      ((.error (.undefinedSymbol name), none),
        (m.openStatement.2.allocate (.symbol name)).2) := by
    rw [evaluateOne, parse_symbol hm hread]
    exact evaluate_unbound lib h.room hstored h.unbound
  rw [eval_of_statements hs, runStatements, runStatement_of_reclaim h.reclaims, hone, h.journal]
  exact Prod.ext rfl h.closeStatement

end SlotScript.Machine

import SlotScript.Proofs.Store.Counters

/-!
# Nested journals

All open journals of a store share one array; what separates them are the marks that their clients
keep. `brackets` follows the marks through a sequence of operations and fails when a journal is
closed with another mark than that of the innermost open one. `own` has the slots that a sequence
enters in the journal that is the innermost one at its start.

The invariant is `Layered`: the array up to the mark of a journal is what it was when that journal
was opened. An operation appends to the top layer, opening adds a layer without slots, and closing
cuts the array back to the layer below (`Layered.step`). So a journal that is closed gives back what
was entered while it was the innermost one, and nothing of the journals inside of it
(`journals_nest`).
-/

namespace SlotScript.Store

variable {β : Type} {st : Store β} {ops body : List (Operation β)} {op : Operation β}
  {base js : List Slot} {marks marks' : List Nat} {m outer : Nat}

/-! ## Bracketed operations -/

/-- What an operation enters in a journal: the slot that it hands out, or the slots that it is
given. -/
def entered (st : Store β) : Operation β → List Slot
  | .client (.allocate v) => [(st.allocate v).1]
  | .client (.use ..) => []
  | .openJournal => []
  | .closeJournal _ => []
  | .note slots => slots

/-- The marks of the open journals, innermost first, after an operation. Only the innermost journal
can be closed, with its own mark. -/
def marksAfter (st : Store β) (marks : List Nat) : Operation β → Option (List Nat)
  | .openJournal => some (st.openJournal.1 :: marks)
  | .closeJournal mark =>
    match marks with
    | [] => none
    | m :: marks => if mark = m then some marks else none
  | .client _ => some marks
  | .note _ => some marks

/-- The marks of the open journals after a sequence of operations, if each of them is closed with
its own mark. -/
def brackets (st : Store β) (marks : List Nat) : List (Operation β) → Option (List Nat)
  | [] => some marks
  | op :: ops =>
    match st.marksAfter marks op with
    | none => none
    | some marks => (st.operate op).brackets marks ops

/-- The number of open journals after an operation. -/
def levelAfter (level : Nat) : Operation β → Nat
  | .openJournal => level + 1
  | .closeJournal _ => level - 1
  | .client _ => level
  | .note _ => level

/-- The slots that operations enter in a journal while no journal inside of it is open, oldest
first; `level` journals inside of it are open at the start. -/
def own (st : Store β) (level : Nat) : List (Operation β) → List Slot
  | [] => []
  | op :: ops =>
    (if level = 0 then st.entered op else []) ++ (st.operate op).own (levelAfter level op) ops

theorem brackets_append {ops' : List (Operation β)} :
    st.brackets marks (ops ++ ops') =
      (st.brackets marks ops).bind fun marks' => (ops.foldl operate st).brackets marks' ops' := by
  induction ops generalizing st marks with
  | nil => rfl
  | cons op ops ih =>
    rw [List.cons_append, brackets, brackets, List.foldl_cons]
    cases st.marksAfter marks op with
    | none => rfl
    | some marks => exact ih

theorem brackets_singleton : st.brackets marks [op] = st.marksAfter marks op := by
  rw [brackets]
  cases st.marksAfter marks op <;> rfl

theorem brackets_snoc :
    st.brackets marks (ops ++ [op]) =
      (st.brackets marks ops).bind fun marks' => (ops.foldl operate st).marksAfter marks' op := by
  simp only [brackets_append, brackets_singleton]

/-- Operations that close only what they have opened do not depend on the journals around them. -/
theorem brackets_append_marks (below : List Nat) (h : st.brackets marks ops = some marks') :
    st.brackets (marks ++ below) ops = some (marks' ++ below) := by
  induction ops generalizing st marks with
  | nil =>
    obtain rfl := Option.some.inj h
    rfl
  | cons op ops ih =>
    rw [brackets] at h ⊢
    cases op with
    | client op => exact ih h
    | note slots => exact ih h
    | openJournal => exact ih h
    | closeJournal mark =>
      cases marks with
      | nil => cases h
      | cons m marks =>
        simp only [marksAfter, List.cons_append] at h ⊢
        split at h
        · cases h
        · next marks' hmark =>
          by_cases hm : mark = m
          · rw [if_pos hm] at hmark ⊢
            obtain rfl := Option.some.inj hmark
            exact ih h
          · rw [if_neg hm] at hmark
            cases hmark

/-- A journal that is opened and closed, with bracketed operations in between. -/
theorem brackets_journal (h : st.openJournal.2.brackets [] body = some []) :
    st.brackets [] (.openJournal :: (body ++ [.closeJournal st.openJournal.1])) = some [] := by
  have hbody : st.openJournal.2.brackets [st.openJournal.1] body = some [st.openJournal.1] :=
    brackets_append_marks [st.openJournal.1] h
  have hopen : st.operate .openJournal = st.openJournal.2 := rfl
  rw [brackets]
  simp only [marksAfter, hopen, brackets_snoc, hbody, Option.bind_some, ↓reduceIte]

/-! ## Where a journal was opened -/

/-- The innermost open journal was opened at some point, and what came after that has closed every
journal that it opened. -/
theorem exists_opened (h : st.brackets marks ops = some (m :: marks'))
    (hlen : marks.length ≤ marks'.length) :
    ∃ before body, ops = before ++ .openJournal :: body ∧ st.brackets marks before = some marks' ∧
      (before.foldl operate st).openJournal.1 = m ∧
      (before.foldl operate st).openJournal.2.brackets [] body = some [] := by
  induction hn : ops.length using Nat.strongRecOn generalizing ops m marks' with
  | ind n ih =>
    rcases List.eq_nil_or_concat ops with rfl | ⟨ops, op, rfl⟩
    · obtain rfl := Option.some.inj h
      rw [List.length_cons] at hlen
      omega
    · rw [List.concat_eq_append] at h hn ⊢
      rw [brackets_snoc] at h
      obtain ⟨between, hbetween, hlast⟩ := Option.bind_eq_some_iff.1 h
      have hshort : ops.length < n := by simp [← hn]
      -- An operation that leaves the open journals alone comes after the innermost one was opened.
      have hinside : between = m :: marks' → (∀ st : Store β, st.marksAfter [] op = some []) →
          ∃ before body, ops ++ [op] = before ++ .openJournal :: body ∧
            st.brackets marks before = some marks' ∧ (before.foldl operate st).openJournal.1 = m ∧
            (before.foldl operate st).openJournal.2.brackets [] body = some [] := by
        rintro rfl hop
        obtain ⟨before, body, rfl, hbefore, hmark, hbody⟩ := ih _ hshort hbetween hlen rfl
        refine ⟨before, body ++ [op], by simp, hbefore, hmark, ?_⟩
        rw [brackets_snoc, hbody]
        exact hop _
      cases op with
      | client op => exact hinside (Option.some.inj hlast) fun _ => rfl
      | note slots => exact hinside (Option.some.inj hlast) fun _ => rfl
      | openJournal =>
        obtain ⟨rfl, rfl⟩ := List.cons.inj (Option.some.inj hlast)
        exact ⟨ops, [], rfl, hbetween, rfl, rfl⟩
      | closeJournal mark =>
        -- The last operation closes a journal that was opened inside of the innermost one.
        cases between with
        | nil => cases hlast
        | cons m' rest =>
          simp only [marksAfter, Option.ite_none_right_eq_some, Option.some.injEq] at hlast
          obtain ⟨rfl, rfl⟩ := hlast
          have hlen' : marks.length ≤ (m :: marks').length := by simp; omega
          obtain ⟨middle, inner, rfl, hmiddle, hmark, hinner⟩ := ih _ hshort hbetween hlen' rfl
          have hshort' : middle.length < n := by
            simp at hshort
            omega
          obtain ⟨before, body, rfl, hbefore, hmark', hbody⟩ := ih _ hshort' hmiddle hlen rfl
          simp only [List.foldl_append, List.foldl_cons] at hmark hinner
          refine ⟨before, body ++ .openJournal :: (inner ++ [.closeJournal mark]), by simp, hbefore,
            hmark', ?_⟩
          rw [brackets_append, hbody, ← hmark]
          exact brackets_journal hinner

/-! ## Layers -/

/-- The array up to the mark of a journal is what it was when that journal was opened. Below all the
journals with the given marks lies `base`. -/
def Layered (base : List Slot) : List Nat → List Slot → Prop
  | [], js => js = base
  | m :: marks, js => m ≤ js.length ∧ Layered base marks (js.take m)

/-- What is written belongs to the innermost journal. -/
theorem Layered.append (h : Layered base (m :: marks) js) (js' : List Slot) :
    Layered base (m :: marks) (js ++ js') := by
  obtain ⟨hm, hbelow⟩ := h
  refine ⟨by simp; omega, ?_⟩
  rwa [List.take_append_of_le_length hm]

theorem Layered.opened (h : Layered base marks js) : Layered base (js.length :: marks) js := by
  refine ⟨Nat.le_refl _, ?_⟩
  rwa [List.take_length]

/-- A use of a slot leaves the journals alone. -/
theorem journal_useSlot (st : Store β) (s : Slot) (u : Use β) :
    (st.useSlot s u).2.journal = st.journal ∧ (st.useSlot s u).2.journals = st.journals := by
  cases hs : st.get? s with
  | none =>
    rw [useSlot_of_stale hs]
    exact ⟨rfl, rfl⟩
  | some v => cases u <;> simp [Store.useSlot, release, modify, replace, hs, settle, Except.map,
      Store.vacate, Store.put]

/-- An operation that neither opens nor closes a journal writes what it enters, if a journal is
open. -/
theorem journal_operate_client (st : Store β) (op : Op β) :
    (st.operate (.client op)).journal.toList =
        st.journal.toList ++ (if 0 < st.journals then st.entered (.client op) else []) ∧
      (st.operate (.client op)).journals = st.journals := by
  cases op with
  | allocate v => exact ⟨toList_journal_allocate, journals_allocate⟩
  | use s u =>
    obtain ⟨hjournal, hjournals⟩ := journal_useSlot st s u
    refine ⟨?_, hjournals⟩
    simp [operate, runOp, hjournal, entered]

theorem Layered.write (h : Layered base marks js) (outer : Nat) (slots : List Slot) :
    Layered (base ++ if 0 < outer ∧ marks = [] then slots else []) marks
      (js ++ if 0 < outer + marks.length then slots else []) := by
  cases marks with
  | nil =>
    obtain rfl : js = base := h
    by_cases houter : 0 < outer <;> simp [Layered, houter]
  | cons m marks =>
    have hwrite : 0 < outer + (m :: marks).length := Nat.add_pos_right outer (Nat.succ_pos _)
    rw [if_pos hwrite, if_neg (by simp), List.append_nil]
    exact h.append slots

/-- One operation. `outer` journals are open below those with the given marks. -/
theorem Layered.step (h : Layered base marks st.journal.toList)
    (hopen : st.journals = outer + marks.length) (hmarks : st.marksAfter marks op = some marks') :
    Layered (base ++ if 0 < outer ∧ marks = [] then st.entered op else []) marks'
        (st.operate op).journal.toList ∧
      (st.operate op).journals = outer + marks'.length ∧
      levelAfter marks.length op = marks'.length := by
  cases op with
  | client op =>
    obtain rfl := Option.some.inj hmarks
    obtain ⟨hjournal, hjournals⟩ := journal_operate_client st op
    refine ⟨?_, hjournals.trans hopen, rfl⟩
    rw [hjournal, hopen]
    exact h.write outer _
  | note slots =>
    obtain rfl := Option.some.inj hmarks
    refine ⟨?_, (journals_note slots).trans hopen, rfl⟩
    have hjournal : (st.note slots).journal.toList =
        st.journal.toList ++ if 0 < st.journals then slots else [] := toList_journal_note slots
    rw [hopen] at hjournal
    exact hjournal ▸ h.write outer slots
  | openJournal =>
    obtain rfl := Option.some.inj hmarks
    have hopened :
        Layered base (st.openJournal.1 :: marks) (st.operate .openJournal).journal.toList :=
      h.opened
    refine ⟨by simpa [entered] using hopened, ?_, by simp [levelAfter]⟩
    have hjournals : (st.operate .openJournal).journals = st.journals + 1 := rfl
    rw [hjournals, hopen, List.length_cons, Nat.add_assoc]
  | closeJournal mark =>
    cases marks with
    | nil => cases hmarks
    | cons m marks =>
      simp only [marksAfter, Option.ite_none_right_eq_some, Option.some.injEq] at hmarks
      obtain ⟨rfl, rfl⟩ := hmarks
      have hjournal : (st.operate (.closeJournal mark)).journal.toList =
          st.journal.toList.take mark := toList_journal_closeJournal mark
      have hjournals : (st.operate (.closeJournal mark)).journals = st.journals - 1 := rfl
      refine ⟨by simpa [hjournal] using h.2, ?_, by simp [levelAfter]⟩
      rw [hjournals, hopen, List.length_cons]
      omega

/-- Bracketed operations write what they enter at their own level, and nothing when no journal is
open around them. -/
theorem Layered.run (h : Layered base marks st.journal.toList)
    (hopen : st.journals = outer + marks.length) (hmarks : st.brackets marks ops = some marks') :
    Layered (base ++ if 0 < outer then st.own marks.length ops else []) marks'
        (ops.foldl operate st).journal.toList ∧
      (ops.foldl operate st).journals = outer + marks'.length := by
  induction ops generalizing st base marks with
  | nil =>
    obtain rfl := Option.some.inj hmarks
    exact ⟨by simpa [own] using h, hopen⟩
  | cons op ops ih =>
    rw [brackets] at hmarks
    split at hmarks
    · cases hmarks
    · next hop =>
      obtain ⟨hstep, hstepOpen, hlevel⟩ := h.step hopen hop
      obtain ⟨hrun, hrunOpen⟩ := ih hstep hstepOpen hmarks
      refine ⟨?_, hrunOpen⟩
      rw [List.foldl_cons, own, hlevel]
      rw [List.append_assoc] at hrun
      by_cases houter : 0 < outer
      · simpa [houter, List.length_eq_zero_iff] using hrun
      · simpa [houter] using hrun

/-! ## Nested journals -/

/-- A journal that is closed gives back what was entered at its own level, and what was written
before it was opened is left. -/
theorem closeJournal_of_brackets (h : st.openJournal.2.brackets [] body = some []) :
    ((body.foldl operate st.openJournal.2).closeJournal st.openJournal.1).1 =
        st.openJournal.2.own 0 body ∧
      ((body.foldl operate st.openJournal.2).closeJournal st.openJournal.1).2.journal =
        st.journal := by
  have hstart : Layered st.journal.toList [] st.openJournal.2.journal.toList := rfl
  have hopen : st.openJournal.2.journals = (st.journals + 1) + ([] : List Nat).length := rfl
  have hjournal : _ = _ := (hstart.run hopen h).1
  rw [if_pos (Nat.succ_pos _)] at hjournal
  have hmark : st.openJournal.1 = st.journal.toList.length := rfl
  refine ⟨?_, Array.toList_inj.1 ?_⟩
  · rw [closeJournal_fst, hjournal, hmark, List.drop_left]
    rfl
  · rw [toList_journal_closeJournal, hjournal, hmark, List.take_left]

/-- After operations on an empty store that close each journal with its own mark there are as many
open journals as marks, and without an open journal the journal is empty and stays so when values
are stored and slots are noted. Each closing has its opening; it gives back the slots that were
entered between the two while no journal inside was open, oldest first, and leaves the journal as it
was at the opening. -/
theorem journals_nest {marks : List Nat} (h : Store.empty.brackets [] ops = some marks) :
    (operateAll ops).journals = marks.length ∧
    (marks = [] → (operateAll ops).journal = #[] ∧
      (∀ v, ((operateAll ops).allocate v).2.journal = #[]) ∧
      ∀ slots, ((operateAll ops).note slots).journal = #[]) ∧
    ∀ before mark after, ops = before ++ .closeJournal mark :: after →
      ∃ opened body, before = opened ++ .openJournal :: body ∧
        (operateAll opened).openJournal.1 = mark ∧
        (operateAll opened).openJournal.2.brackets [] body = some [] ∧
        ((operateAll before).closeJournal mark).1 = (operateAll opened).openJournal.2.own 0 body ∧
        ((operateAll before).closeJournal mark).2.journal = (operateAll opened).journal := by
  have hstart : Layered [] [] (Store.empty : Store β).journal.toList := rfl
  have hnone : (Store.empty : Store β).journals = 0 + ([] : List Nat).length := rfl
  obtain ⟨hlayers, hjournals⟩ := hstart.run hnone h
  rw [Nat.zero_add] at hjournals
  refine ⟨hjournals, ?_, ?_⟩
  · rintro rfl
    have hempty : (operateAll ops).journal.toList = [] := hlayers
    have hclosed : (operateAll ops).journals = 0 := hjournals
    refine ⟨Array.toList_eq_nil_iff.1 hempty, fun v => ?_, fun slots => ?_⟩
    · apply Array.toList_eq_nil_iff.1
      rw [toList_journal_allocate, hempty, hclosed]
      rfl
    · apply Array.toList_eq_nil_iff.1
      rw [toList_journal_note, hempty, hclosed]
      rfl
  · rintro before mark after rfl
    rw [brackets_append] at h
    obtain ⟨between, hbefore, hclose⟩ := Option.bind_eq_some_iff.1 h
    cases between with
    | nil => cases hclose
    | cons m rest =>
      have hmark : m = mark := by
        by_contra hne
        simp [brackets, marksAfter, Ne.symm hne] at hclose
      subst hmark
      obtain ⟨opened, body, rfl, -, hmark, hbody⟩ := exists_opened hbefore (Nat.zero_le _)
      have hrun : operateAll (opened ++ .openJournal :: body) =
          body.foldl operate (operateAll opened).openJournal.2 := by
        simp [operateAll, operate]
      refine ⟨opened, body, rfl, hmark, hbody, ?_⟩
      rw [hrun, ← hmark]
      exact closeJournal_of_brackets hbody

/-- The slot of an inner journal is noted in the outer one after the inner one was closed; the slot
that was released is given back like the others. -/
theorem journals_nest_noted :
    let before : List (Operation Unit) :=
      [.openJournal, .client (.allocate .nil), .openJournal, .client (.allocate .nil),
        .client (.use ⟨0, 0⟩ .release), .closeJournal 1, .note [⟨1, 0⟩]]
    Store.empty.brackets [] (before ++ [.closeJournal 0]) = some [] ∧
      (operateAll (before ++ [.closeJournal 0])).journal = #[] ∧
      ((operateAll before).closeJournal 0).1 = [⟨0, 0⟩, ⟨1, 0⟩] ∧
      ∃ opened body, before = opened ++ .openJournal :: body ∧
        (operateAll opened).openJournal.2.own 0 body = [⟨0, 0⟩, ⟨1, 0⟩] := by
  intro before
  have hmarks : Store.empty.brackets [] (before ++ [.closeJournal 0]) = some [] := by decide
  have hgiven : ((operateAll before).closeJournal 0).1 = [⟨0, 0⟩, ⟨1, 0⟩] := by decide
  obtain ⟨-, hempty, hclosed⟩ := journals_nest hmarks
  obtain ⟨opened, body, heq, -, -, hown, -⟩ := hclosed before 0 [] rfl
  exact ⟨hmarks, (hempty rfl).1, hgiven, opened, body, heq, hown.symm.trans hgiven⟩

end SlotScript.Store

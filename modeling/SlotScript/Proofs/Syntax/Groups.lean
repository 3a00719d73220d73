import SlotScript.Proofs.Syntax.Cutting

/-!
# Reading group by group

A text is read in one pass. It could as well be cut into words and each word be read by itself, a
group by reading its inside as a text of its own. The words of a balanced text stand for the terms
that it is read as, one for one, and a group stands for the list of what its inside is read as
(`exists_words_denote`).

The induction is on the grammar of balanced texts (`exists_words_of_nests`). What it says of a text
has to hold wherever the text stands: inside other groups, behind other terms and in the midst of a
word. It also tells how deep the terms are: as deep as the brackets nest.
-/

namespace SlotScript.Syntax

open SlotScript.Text (isBlank)
open Nesting (top)

variable {d : Nat} {s word : List Char} {ws : List (List Char)}

namespace Term

/-- What a word of a text is read as. -/
inductive Denotes : List Char → Term → Prop
  | word {w : List Char} (h : IsWord w) : Denotes w (ofWord w)
  | quoted {q : Char} {t : List Char} (hq : q = '"' ∨ q = '\x27') :
      Denotes (q :: t ++ [q]) (.text (.ofList t))
  | group {opener closer : Char} {t : List Char} {items : List Term}
      (hoc : opener = '(' ∧ closer = ')' ∨ opener = '[' ∧ closer = ']') (h : read t = .ok items) :
      Denotes (opener :: t ++ [closer]) (.list items)

/-- The term that an unfinished word makes, if there is one. -/
def ofUnfinished (word : List Char) : List Term :=
  (putWord word []).map ofWord

theorem denotes_putWord {terms : List Term} (hword : InWord word)
    (h : List.Forall₂ Denotes ws terms) :
    List.Forall₂ Denotes (putWord word ws) (ofUnfinished word ++ terms) := by
  cases word with
  | nil => exact h
  | cons c word => exact .cons (.word (hword.isWord (List.cons_ne_nil _ _))) h

theorem depthAll_cons (t : Term) (terms : List Term) :
    depthAll (t :: terms) = max (t.tree : Tree Empty).depth (depthAll terms) :=
  rfl

/-- A word is no list. -/
theorem depthAll_ofUnfinished (word : List Char) (terms : List Term) :
    depthAll (ofUnfinished word ++ terms) = depthAll terms := by
  have hword : ∀ w : List Char, ((ofWord w).tree : Tree Empty).depth = 0 := by
    intro w
    rw [ofWord]
    split <;> rfl
  cases word with
  | nil => rfl
  | cons c word => exact (congrArg (max · _) (hword _)).trans (Nat.zero_max _)

namespace Reader

variable {r : Reader} {terms : List Term}

theorem endWord_eq (r : Reader) :
    r.endWord = { r with word := [], items := (ofUnfinished r.word).reverse ++ r.items } := by
  obtain ⟨nesting, word, items, outer⟩ := r
  cases word <;> rfl

/-- What follows the end of a word, a quoted text or a group is read on from there. -/
theorem Reads.next (front : List Char) (mid : List Term)
    (hfront : ∀ rest, r.run (front ++ rest) =
      { r with word := [], items := mid.reverse ++ r.endWord.items }.run rest)
    (h : Reads { r with word := [], items := mid.reverse ++ r.endWord.items } s terms) :
    Reads r (front ++ s) (ofUnfinished r.word ++ (mid ++ terms)) := by
  obtain ⟨r', hrun, hnesting, hend⟩ := h
  refine ⟨r', fun rest => ?_, hnesting, ?_⟩
  · rw [List.append_assoc, hfront, hrun]
  · rw [hend, endWord_eq r]
    simp only [List.reverse_append, List.append_assoc]

/-- A blank ends a word. -/
theorem run_blank {c : Char} (hq : r.nesting.quote = none) (hc : Mark.of c = .plain)
    (hblank : isBlank c = true) (rest : List Char) :
    r.run (c :: rest) = { r with word := [], items := r.endWord.items }.run rest := by
  have hstep : r.nesting.step c = .ok r.nesting := by
    simp only [Nesting.step, hq, hc]
  have hpush : r.push r.nesting c = { r with word := [], items := r.endWord.items } := by
    simp only [push, hq, hc, hblank, ↓reduceIte, word_endWord, outer_endWord]
  rw [run_cons hstep, hpush]

end Reader

open Reader in
/-- The words of a balanced text that stands behind an unfinished word, and how it is read there. -/
theorem exists_words_of_nests (h : Nests d s) (hword : InWord word) :
    ∃ ws terms, wordsFrom top word s = .ok ws ∧ List.Forall₂ Denotes ws terms ∧
      depthAll terms = d ∧
      ∀ r : Reader, r.nesting.quote = none → r.word = word → r.Reads s terms := by
  induction h generalizing word with
  | nil =>
    refine ⟨_, _, rfl, denotes_putWord hword .nil, depthAll_ofUnfinished word [], ?_⟩
    rintro r hq rfl
    exact ⟨r, fun _ => rfl, rfl, by rw [endWord_eq, List.append_nil]⟩
  | @plain d c s hc _ ih =>
    have hmark := Mark.of_eq_plain_iff.2 hc
    cases hblank : isBlank c with
    | true =>
      obtain ⟨ws, terms, hws, hdenotes, hdepth, hreads⟩ := ih inWord_nil
      refine ⟨putWord word ws, ofUnfinished word ++ terms, ?_, denotes_putWord hword hdenotes,
        (depthAll_ofUnfinished word terms).trans hdepth, ?_⟩
      · rw [wordsFrom_plain hmark, hblank, hws]
        rfl
      · rintro r hq rfl
        exact Reads.next [c] [] (run_blank hq hmark hblank) (hreads _ hq rfl)
    | false =>
      have hword' : InWord (c :: word) := List.forall_mem_cons.2 ⟨⟨hblank, hmark⟩, hword⟩
      obtain ⟨ws, terms, hws, hdenotes, hdepth, hreads⟩ := ih hword'
      refine ⟨ws, terms, ?_, hdenotes, hdepth, ?_⟩
      · rw [wordsFrom_plain hmark, hblank]
        exact hws
      · rintro r hq rfl
        obtain ⟨r', hrun, hnesting, hend⟩ := hreads { r with word := c :: r.word } hq rfl
        refine ⟨r', fun rest => ?_, hnesting, hend⟩
        rw [← hrun rest, List.cons_append, ← List.singleton_append]
        exact run_plain hq fun c' hc' => List.mem_singleton.1 hc' ▸ ⟨hblank, hmark⟩
  | @quoted d q t s hq ht _ ih =>
    have htext : q :: t ++ q :: s = (q :: t ++ [q]) ++ s := by
      rw [List.append_assoc, List.singleton_append]
    obtain ⟨ws, terms, hws, hdenotes, hdepth, hreads⟩ := ih inWord_nil
    refine ⟨putWord word ((q :: t ++ [q]) :: ws),
      ofUnfinished word ++ ([.text (.ofList t)] ++ terms), ?_, ?_, ?_, ?_⟩
    · rw [htext, wordsFrom_closed (.quoted hq ht), hws]
      rfl
    · exact denotes_putWord hword (.cons (.quoted hq) hdenotes)
    · rw [depthAll_ofUnfinished, List.singleton_append, depthAll_cons, hdepth]
      exact Nat.zero_max d
    · rintro r hr rfl
      rw [htext]
      refine Reads.next _ [.text (.ofList t)] (fun rest => ?_) (hreads _ hr rfl)
      rw [List.append_assoc, List.singleton_append, run_string hr (Mark.of_eq_quote_iff.2 hq) ht]
      rfl
  | @group d e opener closer t s hoc ht _ ih ih' =>
    have htext : opener :: t ++ closer :: s = (opener :: t ++ [closer]) ++ s := by
      rw [List.append_assoc, List.singleton_append]
    obtain ⟨_, items, -, -, hinside, hitems⟩ := ih inWord_nil
    obtain ⟨ws, terms, hws, hdenotes, hdepth, hreads⟩ := ih' inWord_nil
    refine ⟨putWord word ((opener :: t ++ [closer]) :: ws),
      ofUnfinished word ++ ([.list items] ++ terms), ?_, ?_, ?_, ?_⟩
    · rw [htext, wordsFrom_closed (.group hoc ⟨d, ht⟩), hws]
      rfl
    · have hread : read t = .ok items := (hitems {} rfl rfl).read
      exact denotes_putWord hword (.cons (.group hoc hread) hdenotes)
    · rw [depthAll_ofUnfinished, List.singleton_append, depthAll_cons, hdepth, ← hinside]
      rfl
    · rintro r hr rfl
      rw [htext]
      refine Reads.next _ [.list items] (fun rest => ?_) (hreads _ hr rfl)
      rw [List.append_assoc, List.singleton_append, run_group hr hoc (hitems _ rfl rfl)]
      rfl

/-- The words of a balanced text stand for the terms that it is read as, which are as deep as its
brackets nest. -/
theorem exists_words_denote (h : Nests d s) :
    ∃ ws terms, words s = .ok ws ∧ read s = .ok terms ∧ List.Forall₂ Denotes ws terms ∧
      depthAll terms = d := by
  obtain ⟨ws, terms, hws, hdenotes, hdepth, hreads⟩ := exists_words_of_nests h inWord_nil
  exact ⟨ws, terms, hws, (hreads {} rfl rfl).read, hdenotes, hdepth⟩

/-- A balanced text is read as terms that are as deep as its brackets nest. -/
theorem exists_read_of_nests (h : Nests d s) :
    ∃ terms, read s = .ok terms ∧ depthAll terms = d := by
  obtain ⟨_, terms, -, hread, -, hdepth⟩ := exists_words_denote h
  exact ⟨terms, hread, hdepth⟩

end Term

/-- Brackets nest in one depth only. -/
theorem Nests.unique {e : Nat} (h : Nests d s) (h' : Nests e s) : d = e := by
  obtain ⟨terms, hread, rfl⟩ := Term.exists_read_of_nests h
  obtain ⟨terms', hread', rfl⟩ := Term.exists_read_of_nests h'
  rw [Except.ok.inj (hread.symm.trans hread')]

end SlotScript.Syntax

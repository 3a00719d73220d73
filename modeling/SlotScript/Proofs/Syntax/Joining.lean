import SlotScript.Proofs.Syntax.Balance

/-!
# Cutting joined texts

Both cuts of command text forget everything at a separator that stands outside groups and quotes.
When two texts are joined by one, and the first of them is balanced, the joined text is cut into the
parts of the first text and then those of the second; when the second text is not balanced, the
joined one is refused as the second one is (`cuts_join`).

A balanced text leaves nothing open, so at its end the word that is being read is the only thing
that a cut remembers, and the separator ends that word: `wordsFrom_append` for blanks,
`piecesFrom_append` for a delimiter.
-/

namespace SlotScript.Syntax

open SlotScript.Text (isBlank)

variable {n : Nesting} {a b word : List Char} {ws : List (List Char)} {c : Char}

theorem putWord_append (word : List Char) (ws ws' : List (List Char)) :
    putWord word (ws ++ ws') = putWord word ws ++ ws' := by
  unfold putWord
  split <;> simp

/-- A word in front of the others stays there when further words follow. -/
theorem map_putWord_append {r r' : Except NestingError (List (List Char))}
    (h : r.map (putWord word) = .ok ws)
    (hr : ∀ ws', r = .ok ws' → r' = (words b).map (ws' ++ ·)) :
    r'.map (putWord word) = (words b).map (ws ++ ·) := by
  cases r with
  | error e => cases h
  | ok ws' =>
    obtain rfl := Except.ok.inj h
    rw [hr ws' rfl]
    cases words b with
    | error e => rfl
    | ok rest => simp [Except.map, putWord_append]

/-- A blank behind a text that leaves nothing open ends its last word, and what follows is cut on
its own. -/
theorem wordsFrom_append (hc : isBlank c = true) (h : wordsFrom n word a = .ok ws) :
    wordsFrom n word (a ++ c :: b) = (words b).map (ws ++ ·) := by
  induction a generalizing n word ws with
  | nil =>
    rw [wordsFrom] at h
    cases hfinish : n.finish with
    | error e =>
      rw [hfinish] at h
      cases h
    | ok _ =>
      rw [hfinish] at h
      obtain rfl := Except.ok.inj h
      obtain rfl := Nesting.finish_eq_ok_iff.1 hfinish
      have hstep : Nesting.top.step c = .ok .top := Nesting.step_top_plain (mark_of_isBlank hc)
      have htop : Nesting.top.isTop = true := rfl
      rw [List.nil_append, wordsFrom, hstep]
      simp only [htop, hc, ↓reduceIte]
      -- Nothing but the word was read when the blank comes.
      refine map_putWord_append (r := .ok []) rfl fun ws' hws' => ?_
      obtain rfl := Except.ok.inj hws'
      simp only [words, List.nil_append]
      cases wordsFrom .top [] b <;> rfl
  | cons d a ih =>
    rw [List.cons_append, wordsFrom]
    rw [wordsFrom] at h
    cases hstep : n.step d with
    | error e =>
      rw [hstep] at h
      cases h
    | ok n' =>
      rw [hstep] at h
      cases hn : n.isTop <;> cases hn' : n'.isTop <;> simp only [hn, hn'] at h ⊢
      · exact ih h
      · exact map_putWord_append h fun ws' hws' => ih hws'
      · exact map_putWord_append h fun ws' hws' => ih hws'
      · by_cases hd : isBlank d = true
        · rw [if_pos hd] at h ⊢
          exact map_putWord_append h fun ws' hws' => ih hws'
        · rw [if_neg hd] at h ⊢
          exact ih h

/-- A balanced text has words. -/
theorem exists_words_eq_ok (h : Balanced a) : ∃ ws, words a = .ok ws := by
  have hverdict := verdict_words a
  rw [scan_top_eq_ok_iff.2 h] at hverdict
  exact verdict_eq_ok_iff.1 hverdict

/-- Two texts with a separator between them, the first of them balanced. If the second one is
balanced too, a blank joins the words of both and a delimiter that is no quote or bracket joins
their statements, those of the first text in front. If not, the joined text is refused with the
error of the second one. -/
theorem cuts_join (ha : Balanced a) (b : List Char) :
    (Balanced b → ∃ ws ws', words a = .ok ws ∧ words b = .ok ws' ∧
      ∀ c, isBlank c = true → words (a ++ c :: b) = .ok (ws ++ ws')) ∧
    (Balanced b → ∀ c ∉ ['"', '\x27', '(', ')', '[', ']'],
      ∃ ps ps', statements c a = .ok ps ∧ statements c b = .ok ps' ∧
        statements c (a ++ c :: b) = .ok (ps ++ ps')) ∧
    (¬ Balanced b → ∃ e, words b = .error e ∧ (∀ c, statements c b = .error e) ∧
      (∀ c, isBlank c = true → words (a ++ c :: b) = .error e) ∧
      ∀ c ∉ ['"', '\x27', '(', ')', '[', ']'], statements c (a ++ c :: b) = .error e) := by
  obtain ⟨ws, hws⟩ := exists_words_eq_ok ha
  refine ⟨fun hb => ?_, fun hb c hc => ?_, fun hb => ?_⟩
  · obtain ⟨ws', hws'⟩ := exists_words_eq_ok hb
    refine ⟨ws, ws', hws, hws', fun c hc => ?_⟩
    have hjoin : words (a ++ c :: b) = (words b).map (ws ++ ·) := wordsFrom_append hc hws
    rw [hjoin, hws']
    rfl
  · obtain ⟨ps, hps⟩ := exists_statements_eq_ok c ha
    obtain ⟨ps', hps'⟩ := exists_statements_eq_ok c hb
    refine ⟨ps, ps', hps, hps', ?_⟩
    rw [statements_append (Mark.of_eq_plain_iff.2 hc) hps, hps']
    rfl
  · obtain ⟨e, he⟩ := exists_words_eq_error hb
    have hstatements : ∀ c, statements c b = .error e := fun c => statements_eq_error_iff.2 he
    refine ⟨e, he, hstatements, fun c hc => ?_, fun c hc => ?_⟩
    · have hjoin : words (a ++ c :: b) = (words b).map (ws ++ ·) := wordsFrom_append hc hws
      rw [hjoin, he]
      rfl
    · obtain ⟨ps, hps⟩ := exists_statements_eq_ok c ha
      rw [statements_append (Mark.of_eq_plain_iff.2 hc) hps, hstatements c]
      rfl

/-- Blanks on both sides of the delimiter are trimmed, one inside a group does not cut, and a closer
without its opener is refused behind any text. -/
theorem cuts_join_trimmed :
    Balanced "f(1; 2) ".toList ∧ Balanced " 'x;' ;".toList ∧ ¬ Balanced " x)".toList ∧
    statements ';' "f(1; 2) ; 'x;' ;".toList = .ok ["f(1; 2)".toList, "'x;'".toList] ∧
    words "f(1; 2)   'x;' ;".toList =
      .ok ["f".toList, "(1; 2)".toList, "'x;'".toList, ";".toList] ∧
    statements ';' "f(1; 2) ; x)".toList = .error (.strayCloser ')') := by
  have ha : Balanced "f(1; 2) ".toList := walk_top_eq_ok_iff.1 (by decide)
  have hb : Balanced " 'x;' ;".toList := walk_top_eq_ok_iff.1 (by decide)
  have hb' : ¬ Balanced " x)".toList := fun h => absurd (walk_top_eq_ok_iff.2 h) (by decide)
  refine ⟨ha, hb, hb', ?_, ?_, ?_⟩
  · obtain ⟨ps, ps', hps, hps', hjoin⟩ := (cuts_join ha " 'x;' ;".toList).2.1 hb ';' (by decide)
    have hfirst : statements ';' "f(1; 2) ".toList = .ok ["f(1; 2)".toList] := by decide
    have hsecond : statements ';' " 'x;' ;".toList = .ok ["'x;'".toList] := by decide
    obtain rfl := Except.ok.inj (hps.symm.trans hfirst)
    obtain rfl := Except.ok.inj (hps'.symm.trans hsecond)
    exact hjoin
  · obtain ⟨ws, ws', hws, hws', hjoin⟩ := (cuts_join ha " 'x;' ;".toList).1 hb
    have hfirst : words "f(1; 2) ".toList = .ok ["f".toList, "(1; 2)".toList] := by decide
    have hsecond : words " 'x;' ;".toList = .ok ["'x;'".toList, ";".toList] := by decide
    obtain rfl := Except.ok.inj (hws.symm.trans hfirst)
    obtain rfl := Except.ok.inj (hws'.symm.trans hsecond)
    exact hjoin ' ' (by decide)
  · obtain ⟨e, he, -, -, hjoin⟩ := (cuts_join ha " x)".toList).2.2 hb'
    have herror : words " x)".toList = .error (.strayCloser ')') := by decide
    obtain rfl := Except.error.inj (he.symm.trans herror)
    exact hjoin ';' (by decide)

end SlotScript.Syntax

import SlotScript.Proofs.Syntax.RoundTrip
import SlotScript.Syntax.Split

/-!
# Balanced texts

`Nests d s` is the grammar of command text: `s` is a sequence of plain characters, quoted strings
and groups, and its brackets nest `d` deep. `Balanced` forgets the depth.

The cuts `words` and `statements` and the reader of terms all follow the nesting of what they have
read. `Nesting.scan` is what they have in common: it only follows the nesting, and each of them
fails when it fails and with the same error (`verdict_words`, `verdict_statements`,
`Term.verdict_read`). It accepts exactly the balanced texts: a balanced text leads from any nesting
back to the same one (`Nests.walk`), and a text that closes everything that is open is cut by its
closers into balanced texts (`closes_of_scan`).
-/

namespace SlotScript.Syntax

open SlotScript.Text (isBlank trim)

/-! ## The grammar -/

/-- A sequence of plain characters, quoted strings and groups, with brackets nested `d` deep. -/
inductive Nests : Nat → List Char → Prop
  | nil : Nests 0 []
  | plain {d : Nat} {c : Char} {s : List Char} (hc : c ∉ ['"', '\x27', '(', ')', '[', ']'])
      (h : Nests d s) : Nests d (c :: s)
  | quoted {d : Nat} {q : Char} {t s : List Char} (hq : q = '"' ∨ q = '\x27') (ht : q ∉ t)
      (h : Nests d s) : Nests d (q :: t ++ q :: s)
  | group {d e : Nat} {opener closer : Char} {t s : List Char}
      (hoc : opener = '(' ∧ closer = ')' ∨ opener = '[' ∧ closer = ']') (h : Nests d t)
      (h' : Nests e s) : Nests (max (d + 1) e) (opener :: t ++ closer :: s)

/-- A text whose quotes and brackets are all closed, each by its own kind. -/
def Balanced (s : List Char) : Prop :=
  ∃ d, Nests d s

theorem nests_of_plain {s : List Char} (h : ∀ c ∈ s, c ∉ ['"', '\x27', '(', ')', '[', ']']) :
    Nests 0 s := by
  induction s with
  | nil => exact .nil
  | cons c s ih =>
    exact .plain (h c List.mem_cons_self) (ih fun c hc => h c (List.mem_cons_of_mem _ hc))

theorem Nests.append {d e : Nat} {s t : List Char} (hs : Nests d s) (ht : Nests e t) :
    Nests (max d e) (s ++ t) := by
  induction hs with
  | nil => rwa [Nat.zero_max]
  | plain hc _ ih => exact .plain hc ih
  | quoted hq hm _ ih =>
    rw [List.append_assoc, List.cons_append]
    exact .quoted hq hm ih
  | group hoc h _ _ ih =>
    rw [List.append_assoc, List.cons_append, Nat.max_assoc]
    exact .group hoc h ih

theorem Balanced.append {s t : List Char} (hs : Balanced s) (ht : Balanced t) :
    Balanced (s ++ t) := by
  obtain ⟨d, hd⟩ := hs
  obtain ⟨e, he⟩ := ht
  exact ⟨_, hd.append he⟩

theorem Balanced.group {opener closer : Char} {s t : List Char}
    (hoc : Mark.of opener = .opener closer) (hs : Balanced s) (ht : Balanced t) :
    Balanced (opener :: s ++ closer :: t) := by
  obtain ⟨d, hd⟩ := hs
  obtain ⟨e, he⟩ := ht
  exact ⟨_, .group (Mark.of_eq_opener_iff.1 hoc) hd he⟩

/-! ## Following the nesting -/

namespace Nesting

variable {n n' : Nesting} {s t : List Char} {c : Char}

/-- The nesting after a text. -/
def walk (n : Nesting) : List Char → Except NestingError Nesting
  | [] => .ok n
  | c :: s =>
    match n.step c with
    | .error e => .error e
    | .ok n' => n'.walk s

/-- Follows the nesting to the end of a text, where nothing may be open. -/
def scan (n : Nesting) : List Char → Except NestingError Unit
  | [] => n.finish
  | c :: s =>
    match n.step c with
    | .error e => .error e
    | .ok n' => n'.scan s

theorem walk_cons (h : n.step c = .ok n') : n.walk (c :: s) = n'.walk s := by
  rw [walk, h]

theorem walk_append (h : n.walk s = .ok n') : n.walk (s ++ t) = n'.walk t := by
  induction s generalizing n with
  | nil => rw [← Except.ok.inj h, List.nil_append]
  | cons c s ih =>
    rw [walk] at h
    split at h
    · cases h
    · next n₁ hstep =>
      rw [List.cons_append, walk_cons hstep]
      exact ih h

theorem walk_append_of_error {e : NestingError} (h : n.walk s = .error e) :
    n.walk (s ++ t) = .error e := by
  induction s generalizing n with
  | nil => cases h
  | cons c s ih =>
    rw [walk] at h
    rw [List.cons_append, walk]
    split at h
    · exact h
    · exact ih h

theorem finish_eq_ok_iff : n.finish = .ok () ↔ n = top := by
  obtain ⟨closers, quote⟩ := n
  cases quote <;> cases closers <;> simp [finish, top]

theorem isTop_iff : n.isTop = true ↔ n = top := by
  obtain ⟨closers, quote⟩ := n
  cases quote <;> cases closers <;> simp [isTop, top]

/-- A text is accepted when it leads to the end with nothing open. -/
theorem scan_eq_ok_iff : n.scan s = .ok () ↔ n.walk s = .ok top := by
  induction s generalizing n with
  | nil => rw [scan, walk, finish_eq_ok_iff, Except.ok.injEq]
  | cons c s ih =>
    rw [scan, walk]
    split
    · simp
    · exact ih

theorem step_plain (hc : Mark.of c = .plain) (hq : n.quote ≠ some c) : n.step c = .ok n := by
  unfold step
  split
  · next q hquote =>
    have hne : c ≠ q := fun h => hq (by rw [hquote, h])
    rw [if_neg hne]
  · rw [hc]

theorem step_top_plain (hc : Mark.of c = .plain) : top.step c = .ok top :=
  step_plain hc nofun

theorem walk_quoted {q : Char} (hq : n.quote = some q) (hs : q ∉ s) :
    n.walk (s ++ q :: t) = { n with quote := none }.walk t := by
  induction s with
  | nil =>
    refine walk_cons ?_
    simp only [step, hq, ↓reduceIte]
  | cons c s ih =>
    obtain ⟨hc, hs⟩ := not_or.1 (mt List.mem_cons.2 hs)
    have hstep : n.step c = .ok n := by simp only [step, hq, if_neg (Ne.symm hc)]
    rw [List.cons_append, walk_cons hstep]
    exact ih hs

/-- Walking opens no quote but by a quote character. -/
theorem quote_of_walk (h : n.walk s = .ok n') (hn : ∀ q, n.quote = some q → Mark.of q = .quote) :
    ∀ q, n'.quote = some q → Mark.of q = .quote := by
  induction s generalizing n with
  | nil => rwa [← Except.ok.inj h]
  | cons c s ih =>
    rw [walk] at h
    split at h
    · cases h
    · next n₁ hstep =>
      refine ih h fun q hq => ?_
      cases hquote : n.quote with
      | none =>
        rw [quote_of_step hquote hstep] at hq
        split at hq
        · next hmark => exact Option.some.inj hq ▸ hmark
        · cases hq
      | some q' =>
        simp only [step, hquote, Except.ok.injEq] at hstep
        split at hstep
        · rw [← hstep] at hq
          cases hq
        · exact hn q (hstep.symm ▸ hq)

end Nesting

/-- A balanced text leads back to where it began. -/
theorem Nests.walk {d : Nat} {s : List Char} (h : Nests d s) {n : Nesting} (hn : n.quote = none) :
    n.walk s = .ok n := by
  induction h generalizing n with
  | nil => rfl
  | plain hc _ ih =>
    have hstep := Nesting.step_plain (n := n) (Mark.of_eq_plain_iff.2 hc) (by rw [hn]; simp)
    rw [Nesting.walk_cons hstep]
    exact ih hn
  | @quoted d q t s hq ht _ ih =>
    have hstep : n.step q = .ok { n with quote := some q } := by
      simp only [Nesting.step, hn, Mark.of_eq_quote_iff.2 hq]
    rw [List.cons_append, Nesting.walk_cons hstep, Nesting.walk_quoted rfl ht]
    have hsame : { n with quote := none } = n := by rw [← hn]
    rw [hsame]
    exact ih hn
  | @group d e opener closer t s hoc _ _ ih ih' =>
    have hopen : n.step opener = .ok { n with closers := closer :: n.closers } := by
      simp only [Nesting.step, hn, Mark.of_eq_opener_iff.2 hoc]
    have hmark : Mark.of closer = .closer := by
      rcases hoc with ⟨-, rfl⟩ | ⟨-, rfl⟩ <;> rfl
    have hclose : Nesting.step { n with closers := closer :: n.closers } closer = .ok n := by
      simp only [Nesting.step, hn, hmark, ↓reduceIte]
      rw [← hn]
    have hinside : Nesting.walk { n with closers := closer :: n.closers } t =
        .ok { n with closers := closer :: n.closers } := ih hn
    rw [List.cons_append, Nesting.walk_cons hopen, Nesting.walk_append hinside,
      Nesting.walk_cons hclose]
    exact ih' hn

/-! ## What closes everything that is open -/

/-- A text that closes groups with the given closers, innermost first: balanced texts with the
closers between them. -/
def Closes : List Char → List Char → Prop
  | [], s => Balanced s
  | closer :: closers, s => ∃ a b, Balanced a ∧ Closes closers b ∧ s = a ++ closer :: b

theorem Closes.append {closers a s : List Char} (ha : Balanced a) (hs : Closes closers s) :
    Closes closers (a ++ s) := by
  cases closers with
  | nil => exact Balanced.append ha hs
  | cons closer closers =>
    obtain ⟨b, r, hb, hr, rfl⟩ := hs
    exact ⟨a ++ b, r, ha.append hb, hr, by rw [List.append_assoc]⟩

/-- What an accepted text consists of when it begins inside groups, and perhaps inside a quoted
string. -/
theorem closes_of_scan {s : List Char} {n : Nesting} (h : n.scan s = .ok ())
    (hn : ∀ q, n.quote = some q → Mark.of q = .quote) :
    match n.quote with
    | none => Closes n.closers s
    | some q => ∃ t r, q ∉ t ∧ Closes n.closers r ∧ s = t ++ q :: r := by
  induction s generalizing n with
  | nil =>
    obtain rfl := Nesting.finish_eq_ok_iff.1 h
    exact ⟨0, .nil⟩
  | cons c s ih =>
    rw [Nesting.scan] at h
    split at h
    · cases h
    · next n' hstep =>
      have hwalk : n.walk [c] = .ok n' := Nesting.walk_cons hstep
      have hn' := Nesting.quote_of_walk hwalk hn
      have hs := ih h hn'
      split
      · next hquote =>
        simp only [Nesting.step, hquote] at hstep
        split at hstep
        · next hmark =>
          -- A quoted string begins.
          obtain rfl := Except.ok.inj hstep
          obtain ⟨t, r, ht, hr, rfl⟩ := hs
          have hstring : Balanced (c :: t ++ [c]) :=
            ⟨0, .quoted (Mark.of_eq_quote_iff.1 hmark) ht .nil⟩
          simpa using hr.append hstring
        · next closer hmark =>
          -- A group begins.
          obtain rfl := Except.ok.inj hstep
          simp only at hs
          obtain ⟨a, b, ha, hb, rfl⟩ := hs
          have hgroup : Balanced (c :: a ++ [closer]) := Balanced.group hmark ha ⟨0, .nil⟩
          simpa using hb.append hgroup
        · next hmark =>
          -- The innermost group ends.
          split at hstep
          · cases hstep
          · next expected rest hclosers =>
            split at hstep
            · next heq =>
              obtain rfl := Except.ok.inj hstep
              simp only at hs
              rw [hclosers, heq]
              exact ⟨[], s, ⟨0, .nil⟩, hs, rfl⟩
            · cases hstep
        · next hmark =>
          obtain rfl := Except.ok.inj hstep
          simp only [hquote] at hs
          have hplain : Balanced [c] := ⟨0, .plain (Mark.of_eq_plain_iff.1 hmark) .nil⟩
          exact hs.append hplain
      · next q hquote =>
        simp only [Nesting.step, hquote, Except.ok.injEq] at hstep
        split at hstep
        · next hc =>
          obtain rfl := hstep
          exact ⟨[], s, List.not_mem_nil, hs, by rw [hc, List.nil_append]⟩
        · next hc =>
          obtain rfl := hstep
          simp only [hquote] at hs
          obtain ⟨t, r, ht, hr, rfl⟩ := hs
          refine ⟨c :: t, r, ?_, hr, rfl⟩
          rintro (_ | ⟨_, hmem⟩)
          · exact hc rfl
          · exact ht hmem

/-- The texts that are accepted are the balanced ones. -/
theorem scan_top_eq_ok_iff {s : List Char} : Nesting.top.scan s = .ok () ↔ Balanced s := by
  constructor
  · exact fun h => closes_of_scan h fun q hq => (nomatch hq)
  · rintro ⟨d, hd⟩
    exact Nesting.scan_eq_ok_iff.2 (hd.walk rfl)

theorem walk_top_eq_ok_iff {s : List Char} : Nesting.top.walk s = .ok .top ↔ Balanced s :=
  Nesting.scan_eq_ok_iff.symm.trans scan_top_eq_ok_iff

/-! ## All readers accept the same texts -/

/-- What is left of a result when only its failure counts. -/
def verdict {α : Type} (r : Except NestingError α) : Except NestingError Unit :=
  r.map fun _ => ()

@[simp] theorem verdict_map {α γ : Type} (r : Except NestingError α) (f : α → γ) :
    verdict (r.map f) = verdict r := by
  cases r <;> rfl

theorem verdict_eq_ok_iff {α : Type} {r : Except NestingError α} :
    verdict r = .ok () ↔ ∃ a, r = .ok a := by
  cases r <;> simp [verdict, Except.map]

theorem verdict_eq_error_iff {α : Type} {r : Except NestingError α} {e : NestingError} :
    verdict r = .error e ↔ r = .error e := by
  cases r <;> simp [verdict, Except.map]

theorem verdict_wordsFrom (n : Nesting) (word s : List Char) :
    verdict (wordsFrom n word s) = n.scan s := by
  induction s generalizing n word with
  | nil =>
    rw [wordsFrom, Nesting.scan, verdict_map]
    cases n.finish <;> rfl
  | cons c s ih =>
    rw [wordsFrom, Nesting.scan]
    cases n.step c with
    | error e => rfl
    | ok n' =>
      dsimp only
      split
      · split
        · rw [verdict_map, ih]
        · rw [ih]
      · rw [verdict_map, ih]
      · rw [verdict_map, ih]
      · rw [ih]

theorem verdict_piecesFrom (delim : Char) (n : Nesting) (piece s : List Char) :
    verdict (piecesFrom delim n piece s) = n.scan s := by
  induction s generalizing n piece with
  | nil =>
    rw [piecesFrom, Nesting.scan, verdict_map]
    cases n.finish <;> rfl
  | cons c s ih =>
    rw [piecesFrom, Nesting.scan]
    cases n.step c with
    | error e => rfl
    | ok n' =>
      dsimp only
      split
      · rw [verdict_map, ih]
      · rw [ih]

theorem verdict_words (s : List Char) : verdict (words s) = Nesting.top.scan s :=
  verdict_wordsFrom ..

theorem verdict_statements (delim : Char) (s : List Char) :
    verdict (statements delim s) = Nesting.top.scan s := by
  rw [statements, verdict_map]
  exact verdict_piecesFrom ..

namespace Term

theorem Reader.nesting_push (r : Reader) (n : Nesting) (c : Char) : (r.push n c).nesting = n := by
  unfold Reader.push
  split
  · split <;> rfl
  · split
    · rfl
    · rfl
    · rfl
    · split <;> rfl

theorem Reader.verdict_run (r : Reader) (s : List Char) : verdict (r.run s) = r.nesting.scan s := by
  induction s generalizing r with
  | nil =>
    rw [Reader.run, Nesting.scan, verdict_map]
    cases r.nesting.finish <;> rfl
  | cons c s ih =>
    rw [Reader.run, Nesting.scan]
    cases r.nesting.step c with
    | error e => rfl
    | ok n => rw [ih, Reader.nesting_push]

theorem verdict_read (s : List Char) : verdict (read s) = Nesting.top.scan s :=
  Reader.verdict_run ..

theorem read_eq_error_iff {s : List Char} {e : NestingError} :
    read s = .error e ↔ words s = .error e := by
  have hsame : verdict (read s) = verdict (words s) := (verdict_read s).trans (verdict_words s).symm
  rw [← verdict_eq_error_iff (r := read s), hsame, verdict_eq_error_iff]

end Term

theorem statements_eq_error_iff {delim : Char} {s : List Char} {e : NestingError} :
    statements delim s = .error e ↔ words s = .error e := by
  have hsame : verdict (statements delim s) = verdict (words s) :=
    (verdict_statements delim s).trans (verdict_words s).symm
  rw [← verdict_eq_error_iff (r := statements delim s), hsame, verdict_eq_error_iff]

theorem exists_words_eq_error {s : List Char} (h : ¬ Balanced s) : ∃ e, words s = .error e := by
  cases hwords : words s with
  | error e => exact ⟨e, rfl⟩
  | ok ws =>
    have hverdict := verdict_words s
    rw [hwords] at hverdict
    exact absurd (scan_top_eq_ok_iff.1 hverdict.symm) h

/-! ## Statements of a balanced text -/

theorem balanced_of_mem_piecesFrom {delim : Char} {n : Nesting} {piece s : List Char}
    {ps : List (List Char)} (hpiece : Nesting.top.walk piece.reverse = .ok n)
    (h : piecesFrom delim n piece s = .ok ps) : ∀ p ∈ ps, Balanced p := by
  induction s generalizing n piece ps with
  | nil =>
    rw [piecesFrom] at h
    cases hfinish : n.finish with
    | error e =>
      rw [hfinish] at h
      cases h
    | ok _ =>
      rw [hfinish] at h
      obtain rfl := Except.ok.inj h
      obtain rfl := Nesting.finish_eq_ok_iff.1 hfinish
      intro p hp
      rw [List.mem_singleton.1 hp]
      exact walk_top_eq_ok_iff.1 hpiece
  | cons c s ih =>
    rw [piecesFrom] at h
    split at h
    · cases h
    · next n' hstep =>
      split at h
      · next hcut =>
        simp only [Bool.and_eq_true, Nesting.isTop_iff] at hcut
        obtain ⟨⟨rfl, rfl⟩, -⟩ := hcut
        cases hrest : piecesFrom delim .top [] s with
        | error e =>
          rw [hrest] at h
          cases h
        | ok rest =>
          rw [hrest] at h
          obtain rfl := Except.ok.inj h
          intro p hp
          rcases List.mem_cons.1 hp with rfl | hp
          · exact walk_top_eq_ok_iff.1 hpiece
          · exact ih rfl hrest p hp
      · refine ih ?_ h
        rw [List.reverse_cons, Nesting.walk_append hpiece]
        exact Nesting.walk_cons hstep

/-- A delimiter between two texts cuts there and nowhere else: the pieces of the joined text are
those of the first one, which nothing leaves open, and those of the second one. -/
theorem piecesFrom_append {delim : Char} (hdelim : Mark.of delim = .plain) {n : Nesting}
    {piece a b : List Char} {ps : List (List Char)} (h : piecesFrom delim n piece a = .ok ps) :
    piecesFrom delim n piece (a ++ delim :: b) = (pieces delim b).map (ps ++ ·) := by
  induction a generalizing n piece ps with
  | nil =>
    rw [piecesFrom] at h
    cases hfinish : n.finish with
    | error e =>
      rw [hfinish] at h
      cases h
    | ok _ =>
      rw [hfinish] at h
      obtain rfl := Except.ok.inj h
      obtain rfl := Nesting.finish_eq_ok_iff.1 hfinish
      have hstep : Nesting.top.step delim = .ok .top := Nesting.step_top_plain hdelim
      have htop : Nesting.top.isTop = true := rfl
      rw [List.nil_append, piecesFrom, hstep]
      simp only [htop, Bool.and_self, beq_self_eq_true, ↓reduceIte]
      rfl
  | cons c a ih =>
    rw [List.cons_append, piecesFrom]
    rw [piecesFrom] at h
    cases hstep : n.step c with
    | error e =>
      rw [hstep] at h
      cases h
    | ok n' =>
      rw [hstep] at h
      simp only at h ⊢
      split at h
      · next hcut =>
        cases hrest : piecesFrom delim n' [] a with
        | error e =>
          rw [hrest] at h
          cases h
        | ok rest =>
          rw [hrest] at h
          obtain rfl := Except.ok.inj h
          rw [if_pos hcut, ih hrest]
          cases pieces delim b <;> rfl
      · next hcut =>
        rw [if_neg hcut]
        exact ih h

/-- The statements of two texts with a delimiter between them are those of the first text and then
those of the second one. -/
theorem statements_append {delim : Char} (hdelim : Mark.of delim = .plain) {a b : List Char}
    {ps : List (List Char)} (h : statements delim a = .ok ps) :
    statements delim (a ++ delim :: b) = (statements delim b).map (ps ++ ·) := by
  unfold statements at h ⊢
  cases hpieces : pieces delim a with
  | error e =>
    rw [hpieces] at h
    cases h
  | ok pieces₁ =>
    rw [hpieces] at h
    obtain rfl := Except.ok.inj h
    have hjoin : pieces delim (a ++ delim :: b) = (pieces delim b).map (pieces₁ ++ ·) :=
      piecesFrom_append hdelim hpieces
    rw [hjoin]
    cases pieces delim b with
    | error e => rfl
    | ok pieces₂ => simp only [Except.map, List.map_append, List.filter_append]

/-- A balanced text has statements. -/
theorem exists_statements_eq_ok {s : List Char} (delim : Char) (h : Balanced s) :
    ∃ ps, statements delim s = .ok ps := by
  have hverdict := verdict_statements delim s
  rw [scan_top_eq_ok_iff.2 h] at hverdict
  exact verdict_eq_ok_iff.1 hverdict

theorem mark_of_isBlank {c : Char} (h : isBlank c = true) : Mark.of c = .plain := by
  rw [Mark.of_eq_plain_iff]
  intro hc
  have hall : (['"', '\x27', '(', ')', '[', ']'].all fun c => !isBlank c) = true := by decide
  have hc' := List.all_eq_true.1 hall c hc
  rw [h] at hc'
  cases hc'

/-- Blanks change nothing about what is open. -/
theorem walk_blanks {n : Nesting} {s t : List Char}
    (hn : ∀ q, n.quote = some q → Mark.of q = .quote)
    (hs : ∀ c ∈ s, isBlank c = true) : n.walk (s ++ t) = n.walk t := by
  induction s with
  | nil => rfl
  | cons c s ih =>
    have hmark := mark_of_isBlank (hs c List.mem_cons_self)
    have hstep : n.step c = .ok n := by
      refine Nesting.step_plain hmark fun hq => ?_
      rw [hn c hq] at hmark
      cases hmark
    rw [List.cons_append, Nesting.walk_cons hstep]
    exact ih fun c' hc' => hs c' (List.mem_cons_of_mem _ hc')

theorem Balanced.of_blanks {a s b : List Char} (h : Balanced (a ++ s ++ b))
    (ha : ∀ c ∈ a, isBlank c = true) (hb : ∀ c ∈ b, isBlank c = true) : Balanced s := by
  have htop : ∀ q, Nesting.top.quote = some q → Mark.of q = .quote := fun q hq => (nomatch hq)
  rw [← walk_top_eq_ok_iff, List.append_assoc, walk_blanks htop ha] at h
  rw [← walk_top_eq_ok_iff]
  cases hs : Nesting.top.walk s with
  | error e =>
    rw [Nesting.walk_append_of_error hs] at h
    cases h
  | ok n =>
    have hwalk := walk_blanks (t := []) (Nesting.quote_of_walk hs htop) hb
    rw [Nesting.walk_append hs, ← List.append_nil b, hwalk] at h
    exact h

theorem exists_trim_eq (s : List Char) :
    ∃ a b, s = a ++ trim s ++ b ∧ (∀ c ∈ a, isBlank c = true) ∧ ∀ c ∈ b, isBlank c = true := by
  refine ⟨s.takeWhile isBlank, ((s.dropWhile isBlank).reverse.takeWhile isBlank).reverse,
    ?_, ?_, ?_⟩
  · rw [trim, List.append_assoc, ← List.reverse_append, List.takeWhile_append_dropWhile,
      List.reverse_reverse, List.takeWhile_append_dropWhile]
  · exact fun c hc => List.mem_takeWhile_imp hc
  · exact fun c hc => List.mem_takeWhile_imp (List.mem_reverse.1 hc)

/-- The statements of a text are balanced. -/
theorem balanced_of_mem_statements {delim : Char} {s : List Char} {ps : List (List Char)}
    (h : statements delim s = .ok ps) : ∀ p ∈ ps, Balanced p := by
  unfold statements pieces at h
  cases hpieces : piecesFrom delim .top [] s with
  | error e =>
    rw [hpieces] at h
    cases h
  | ok pieces =>
    rw [hpieces] at h
    obtain rfl := Except.ok.inj h
    intro p hp
    obtain ⟨piece, hmem, rfl⟩ := List.mem_map.1 (List.mem_of_mem_filter hp)
    obtain ⟨a, b, heq, ha, hb⟩ := exists_trim_eq piece
    have hpiece := balanced_of_mem_piecesFrom rfl hpieces piece hmem
    rw [heq] at hpiece
    exact hpiece.of_blanks ha hb

end SlotScript.Syntax

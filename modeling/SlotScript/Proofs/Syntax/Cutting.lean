import Mathlib.Data.List.DropRight
import SlotScript.Proofs.Syntax.Balance

/-!
# What the cuts of a text keep

The two cuts of command text lose nothing but what they are to leave out. The words of a balanced
text are runs of ordinary characters, complete quoted strings and complete groups, and together they
are the text without its outer blanks; the pieces are the text with the delimiters taken out.
Cutting again what was cut changes nothing (`cuts_exact`).

A balanced text is a row of plain characters, quoted strings and groups (`Balanced.row`). Inside of
a quoted string or a group something is open at every character (`Nesting.Deep`), so each reader
passes over it as over one piece: `wordsFrom_closed`, `denseFrom_closed`. The pieces need no such
induction: a delimiter that was passed over did not stand outside groups and quotes (`Uncut`), and
that is still so when the piece is trimmed.
-/

namespace SlotScript.Syntax

open SlotScript.Text (isBlank trim)
open Nesting (top)

variable {n n' : Nesting} {s t b p word : List Char} {c delim : Char}

/-! ## Quoted strings and groups -/

/-- A complete quoted string or a complete group. -/
inductive Closed : List Char → Prop
  | quoted {q : Char} {t : List Char} (hq : q = '"' ∨ q = '\x27') (ht : q ∉ t) :
      Closed (q :: t ++ [q])
  | group {opener closer : Char} {t : List Char}
      (hoc : opener = '(' ∧ closer = ')' ∨ opener = '[' ∧ closer = ']') (h : Balanced t) :
      Closed (opener :: t ++ [closer])

/-- A row of plain characters, quoted strings and groups. -/
inductive Row : List Char → Prop
  | nil : Row []
  | plain {c : Char} {s : List Char} (hc : Mark.of c = .plain) (h : Row s) : Row (c :: s)
  | closed {b s : List Char} (hb : Closed b) (h : Row s) : Row (b ++ s)

theorem Balanced.row (h : Balanced s) : Row s := by
  obtain ⟨d, hd⟩ := h
  induction hd with
  | nil => exact .nil
  | plain hc _ ih => exact .plain (Mark.of_eq_plain_iff.2 hc) ih
  | @quoted d q t s hq ht _ ih =>
    have hrow := Row.closed (.quoted hq ht) ih
    rwa [List.append_assoc, List.singleton_append] at hrow
  | @group d e opener closer t s hoc ht _ _ ih =>
    have hrow := Row.closed (.group hoc ⟨d, ht⟩) ih
    rwa [List.append_assoc, List.singleton_append] at hrow

/-- The text leads from one nesting to another, and something is open all the time. -/
inductive Nesting.Deep : Nesting → List Char → Nesting → Prop
  | nil {n : Nesting} (hn : n.isTop = false) : Deep n [] n
  | cons {n n₁ n' : Nesting} {c : Char} {s : List Char} (hn : n.isTop = false)
      (hstep : n.step c = .ok n₁) (h : Deep n₁ s n') : Deep n (c :: s) n'

namespace Nesting.Deep

theorem start (h : Deep n s n') : n.isTop = false := by
  cases h with
  | nil hn => exact hn
  | cons hn _ _ => exact hn

theorem append {n'' : Nesting} (h : Deep n s n') (h' : Deep n' t n'') : Deep n (s ++ t) n'' := by
  induction h with
  | nil _ => exact h'
  | cons hn hstep _ ih => exact .cons hn hstep (ih h')

/-- Inside a quoted string. -/
theorem quoted {q : Char} (hq : n.quote = some q) (ht : q ∉ t) : Deep n t n := by
  have hn : n.isTop = false := by simp [isTop, hq]
  induction t with
  | nil => exact .nil hn
  | cons c t ih =>
    obtain ⟨hc, ht⟩ := not_or.1 (mt List.mem_cons.2 ht)
    exact .cons hn (by simp only [step, hq, if_neg (Ne.symm hc)]) (ih ht)

end Nesting.Deep

/-- A quoted string or a group begins at the outside, ends there, and is deep in between. -/
inductive Block : List Char → Prop
  | intro {c c' : Char} {n : Nesting} {t : List Char} (hopen : top.step c = .ok n)
      (hinside : n.Deep t n) (hclose : n.step c' = .ok top) : Block (c :: t ++ [c'])

section Blocks

variable {q opener closer : Char}

theorem step_quote (hq : q = '"' ∨ q = '\x27') (hn : n.quote = none) :
    n.step q = .ok { n with quote := some q } ∧
      Nesting.step { n with quote := some q } q = .ok n := by
  have hsame : { n with quote := none } = n := by rw [← hn]
  simp only [Nesting.step, hn, Mark.of_eq_quote_iff.2 hq, ↓reduceIte, hsame, and_self]

theorem step_group (hoc : opener = '(' ∧ closer = ')' ∨ opener = '[' ∧ closer = ']')
    (hn : n.quote = none) :
    n.step opener = .ok { n with closers := closer :: n.closers } ∧
      Nesting.step { n with closers := closer :: n.closers } closer = .ok n := by
  have hmark : Mark.of closer = .closer := by
    rcases hoc with ⟨-, rfl⟩ | ⟨-, rfl⟩ <;> rfl
  have hopener := Mark.of_eq_opener_iff.2 hoc
  simp only [Nesting.step, hn, hopener, hmark, ↓reduceIte, true_and]
  rw [← hn]

/-- A balanced text inside a group. -/
theorem Nests.deep {d : Nat} (h : Nests d s) (hquote : n.quote = none) (hn : n.isTop = false) :
    n.Deep s n := by
  induction h generalizing n with
  | nil => exact .nil hn
  | plain hc _ ih =>
    have hstep := Nesting.step_plain (n := n) (Mark.of_eq_plain_iff.2 hc) (by rw [hquote]; simp)
    exact .cons hn hstep (ih hquote hn)
  | @quoted d q t s hq ht _ ih =>
    obtain ⟨hopen, hclose⟩ := step_quote hq hquote
    have hinside : Nesting.Deep { n with quote := some q } t _ := .quoted rfl ht
    exact (Nesting.Deep.cons hn hopen hinside).append (.cons hinside.start hclose (ih hquote hn))
  | @group d e opener closer t s hoc _ _ ih ih' =>
    obtain ⟨hopen, hclose⟩ := step_group hoc hquote
    have hinside := ih (n := { n with closers := closer :: n.closers }) hquote rfl
    exact (Nesting.Deep.cons hn hopen hinside).append (.cons hinside.start hclose (ih' hquote hn))

end Blocks

theorem Closed.block (h : Closed b) : Block b := by
  cases h with
  | quoted hq ht =>
    obtain ⟨hopen, hclose⟩ := step_quote (n := top) hq rfl
    exact .intro hopen (.quoted rfl ht) hclose
  | group hoc h =>
    obtain ⟨d, hd⟩ := h
    obtain ⟨hopen, hclose⟩ := step_group (n := top) hoc rfl
    exact .intro hopen (hd.deep rfl rfl) hclose

theorem Closed.ne_nil (h : Closed b) : b ≠ [] := by
  cases h <;> simp

/-! ## Words -/

/-- A text without its blanks outside groups and quotes, from the middle of the text on. -/
def denseFrom (n : Nesting) : List Char → List Char
  | [] => []
  | c :: s =>
    match n.step c with
    | .error _ => c :: s
    | .ok n' => if n.isTop && isBlank c then denseFrom n' s else c :: denseFrom n' s

/-- A text without its blanks outside groups and quotes. -/
def dense (s : List Char) : List Char :=
  denseFrom .top s

theorem wordsFrom_plain (hc : Mark.of c = .plain) :
    wordsFrom top word (c :: s) =
      if isBlank c then (wordsFrom top [] s).map (putWord word)
      else wordsFrom top (c :: word) s := by
  rw [wordsFrom, Nesting.step_top_plain hc]
  rfl

theorem denseFrom_plain (hc : Mark.of c = .plain) :
    denseFrom top (c :: s) = if isBlank c then denseFrom top s else c :: denseFrom top s := by
  rw [denseFrom, Nesting.step_top_plain hc]
  rfl

theorem wordsFrom_deep (h : n.Deep t n') :
    wordsFrom n word (t ++ s) = wordsFrom n' (t.reverse ++ word) s := by
  induction h generalizing word with
  | nil _ => rfl
  | cons hn hstep h ih =>
    rw [List.cons_append, wordsFrom, hstep]
    simp only [hn, h.start]
    rw [ih, List.reverse_cons, List.append_assoc, List.singleton_append]

theorem denseFrom_deep (h : n.Deep t n') : denseFrom n (t ++ s) = t ++ denseFrom n' s := by
  induction h with
  | nil _ => rfl
  | cons hn hstep h ih =>
    rw [List.cons_append, denseFrom, hstep]
    simp only [hn, Bool.false_and, Bool.false_eq_true, ↓reduceIte, ih, List.cons_append]

/-- A quoted string or a group is a word of its own. -/
theorem wordsFrom_closed (h : Closed b) :
    wordsFrom top word (b ++ s) = (wordsFrom top [] s).map fun ws => putWord word (b :: ws) := by
  obtain ⟨hopen, hinside, hclose⟩ := h.block
  have htop : top.isTop = true := rfl
  rw [List.append_assoc, List.cons_append, wordsFrom, hopen]
  simp only [htop, hinside.start]
  rw [wordsFrom_deep hinside, List.singleton_append, wordsFrom, hclose]
  simp only [hinside.start, htop]
  cases wordsFrom top [] s with
  | error e => rfl
  | ok ws => simp [Except.map, putWord]

theorem denseFrom_closed (h : Closed b) : denseFrom top (b ++ s) = b ++ denseFrom top s := by
  obtain @⟨c, c', n, t, hopen, hinside, hclose⟩ := h.block
  have hmark : isBlank c = false := by
    refine Bool.eq_false_iff.2 fun hc => ?_
    have hstep := Nesting.step_top_plain (mark_of_isBlank hc)
    rw [hopen] at hstep
    have hdeep := hinside.start
    rw [Except.ok.inj hstep] at hdeep
    cases hdeep
  rw [List.append_assoc, List.cons_append, denseFrom, hopen]
  simp only [hmark, Bool.and_false, Bool.false_eq_true, ↓reduceIte]
  rw [denseFrom_deep hinside, List.singleton_append, denseFrom, hclose]
  simp only [hinside.start, Bool.false_and, Bool.false_eq_true, ↓reduceIte, List.append_assoc,
    List.cons_append, List.nil_append]

/-- The characters of an unfinished word. -/
def InWord (word : List Char) : Prop :=
  ∀ c ∈ word, isBlank c = false ∧ Mark.of c = .plain

theorem inWord_nil : InWord [] :=
  fun _ hc => (nomatch hc)

theorem InWord.isWord (h : InWord word) (hne : word ≠ []) : IsWord word.reverse := by
  refine ⟨by simpa using hne, fun c hc => (h c (List.mem_reverse.1 hc)).1, fun c hc => ?_⟩
  exact Mark.of_eq_plain_iff.1 (h c (List.mem_reverse.1 hc)).2

theorem flatten_putWord (word : List Char) (ws : List (List Char)) :
    (putWord word ws).flatten = word.reverse ++ ws.flatten := by
  cases word with
  | nil => rfl
  | cons c word => rfl

theorem forall_mem_putWord {P : List Char → Prop} {ws : List (List Char)}
    (hword : word ≠ [] → P word.reverse) (hws : ∀ w ∈ ws, P w) : ∀ w ∈ putWord word ws, P w := by
  intro w hw
  unfold putWord at hw
  split at hw
  · exact hws w hw
  · next hne =>
    rcases List.mem_cons.1 hw with rfl | hw
    · exact hword (by simpa using hne)
    · exact hws w hw

/-- The words of a balanced text, when some characters of a word have been read before it. -/
theorem exists_wordsFrom_eq_ok (h : Row s) (hword : InWord word) :
    ∃ ws, wordsFrom top word s = .ok ws ∧ (∀ w ∈ ws, IsWord w ∨ Closed w) ∧
      ws.flatten = word.reverse ++ denseFrom top s := by
  induction h generalizing word with
  | nil =>
    refine ⟨putWord word [], rfl, ?_, flatten_putWord word []⟩
    exact forall_mem_putWord (fun hne => .inl (hword.isWord hne)) fun w hw => (nomatch hw)
  | @plain c s hc _ ih =>
    rw [wordsFrom_plain hc, denseFrom_plain hc]
    cases hblank : isBlank c with
    | true =>
      obtain ⟨ws, hws, hshape, hflat⟩ := ih inWord_nil
      refine ⟨putWord word ws, by simp [hws, Except.map], ?_, ?_⟩
      · exact forall_mem_putWord (fun hne => .inl (hword.isWord hne)) hshape
      · rw [flatten_putWord, hflat]
        rfl
    | false =>
      have hword' : InWord (c :: word) := List.forall_mem_cons.2 ⟨⟨hblank, hc⟩, hword⟩
      obtain ⟨ws, hws, hshape, hflat⟩ := ih hword'
      exact ⟨ws, by simpa using hws, hshape, by simpa using hflat⟩
  | @closed b s hb _ ih =>
    obtain ⟨ws, hws, hshape, hflat⟩ := ih inWord_nil
    refine ⟨putWord word (b :: ws), by rw [wordsFrom_closed hb, hws]; rfl, ?_, ?_⟩
    · refine forall_mem_putWord (fun hne => .inl (hword.isWord hne)) ?_
      exact List.forall_mem_cons.2 ⟨.inr hb, hshape⟩
    · rw [flatten_putWord, List.flatten_cons, hflat, denseFrom_closed hb]
      rfl

/-! ## Words of words -/

theorem wordsFrom_inWord (h : InWord t) :
    wordsFrom top word (t ++ s) = wordsFrom top (t.reverse ++ word) s := by
  induction t generalizing word with
  | nil => rfl
  | cons c t ih =>
    obtain ⟨⟨hblank, hc⟩, ht⟩ := List.forall_mem_cons.1 h
    rw [List.cons_append, wordsFrom_plain hc, hblank]
    simp only [Bool.false_eq_true, ↓reduceIte]
    rw [ih ht, List.reverse_cons, List.append_assoc, List.singleton_append]

theorem IsWord.inWord (h : IsWord word) : InWord word :=
  fun c hc => ⟨h.notBlank c hc, Mark.of_eq_plain_iff.2 (h.notMarked c hc)⟩

theorem putWord_reverse (hne : word ≠ []) (ws : List (List Char)) :
    putWord word.reverse ws = word :: ws := by
  simp [putWord, hne]

/-- A word is the only word of itself. -/
theorem words_self (h : IsWord word ∨ Closed word) : words word = .ok [word] := by
  rw [words, ← List.append_nil word]
  rcases h with h | h
  · rw [wordsFrom_inWord h.inWord, List.append_nil, List.append_nil, wordsFrom,
      ← putWord_reverse h.ne_nil]
    rfl
  · rw [wordsFrom_closed h, List.append_nil]
    rfl

/-- A word with a space behind it is the first word of the text. -/
theorem words_append_space (h : IsWord word ∨ Closed word) :
    words (word ++ ' ' :: s) = (words s).map (word :: ·) := by
  have hspace : Mark.of ' ' = .plain := by decide
  have hblank : isBlank ' ' = true := by decide
  rw [words]
  rcases h with h | h
  · rw [wordsFrom_inWord h.inWord, List.append_nil, wordsFrom_plain hspace, hblank]
    simp only [↓reduceIte]
    exact congrArg (Except.map · _) (funext (putWord_reverse h.ne_nil))
  · rw [wordsFrom_closed h, wordsFrom_plain hspace, hblank]
    simp only [↓reduceIte, words]
    cases wordsFrom top [] s <;> rfl

/-- Words with single spaces between them are the words of that text. -/
theorem words_intercalate {ws : List (List Char)} (h : ∀ w ∈ ws, IsWord w ∨ Closed w) :
    words ([' '].intercalate ws) = .ok ws := by
  induction ws with
  | nil => rfl
  | cons w ws ih =>
    obtain ⟨hw, hws⟩ := List.forall_mem_cons.1 h
    cases ws with
    | nil =>
      rw [List.intercalate_singleton]
      exact words_self hw
    | cons w' ws =>
      rw [List.intercalate_cons_cons, List.append_assoc, List.singleton_append,
        words_append_space hw, ih hws]
      rfl

/-! ## Pieces -/

theorem intercalate_of_piecesFrom {ps : List (List Char)} (h : piecesFrom delim n p s = .ok ps) :
    [delim].intercalate ps = p.reverse ++ s ∧ ps ≠ [] := by
  induction s generalizing n p ps with
  | nil =>
    rw [piecesFrom] at h
    cases hfinish : n.finish with
    | error e =>
      rw [hfinish] at h
      cases h
    | ok _ =>
      rw [hfinish] at h
      obtain rfl := Except.ok.inj h
      exact ⟨by rw [List.intercalate_singleton, List.append_nil], List.cons_ne_nil _ _⟩
  | cons c s ih =>
    rw [piecesFrom] at h
    split at h
    · cases h
    · next n' _ =>
      split at h
      · next hcut =>
        simp only [Bool.and_eq_true, beq_iff_eq] at hcut
        obtain ⟨-, rfl⟩ := hcut
        cases hrest : piecesFrom c n' [] s with
        | error e =>
          rw [hrest] at h
          cases h
        | ok rest =>
          rw [hrest] at h
          obtain rfl := Except.ok.inj h
          obtain ⟨hjoin, hne⟩ := ih hrest
          refine ⟨?_, List.cons_ne_nil _ _⟩
          obtain ⟨r, rest, rfl⟩ := List.exists_cons_of_ne_nil hne
          rw [List.intercalate_cons_cons, hjoin, List.append_assoc]
          rfl
      · obtain ⟨hjoin, hne⟩ := ih h
        exact ⟨by rw [hjoin, List.reverse_cons, List.append_assoc, List.singleton_append], hne⟩

/-- The delimiter does not stand outside groups and quotes in the text. -/
def Uncut (delim : Char) (s : List Char) : Prop :=
  ∀ a b, s = a ++ delim :: b → top.walk a = .ok top → top.step delim ≠ .ok top

theorem Uncut.snoc (h : Uncut delim s) (hs : top.walk s = .ok n) (hstep : n.step c = .ok n')
    (hcut : ¬ (n.isTop && n'.isTop && c == delim) = true) : Uncut delim (s ++ [c]) := by
  intro a b heq ha hd
  rcases List.eq_nil_or_concat b with rfl | ⟨b, last, rfl⟩
  · obtain ⟨rfl, hlast⟩ := List.append_inj' heq rfl
    obtain rfl : c = delim := by simpa using hlast
    obtain rfl := Except.ok.inj (hs.symm.trans ha)
    obtain rfl := Except.ok.inj (hstep.symm.trans hd)
    exact hcut (by simp [Nesting.isTop, top])
  · rw [List.concat_eq_append, ← List.cons_append, ← List.append_assoc] at heq
    exact h a b (List.append_inj' heq rfl).1 ha hd

/-- No piece has the delimiter outside groups and quotes. -/
theorem uncut_of_mem_piecesFrom {ps : List (List Char)} (hp : Uncut delim p.reverse)
    (hwalk : top.walk p.reverse = .ok n) (h : piecesFrom delim n p s = .ok ps) :
    ∀ q ∈ ps, Uncut delim q := by
  induction s generalizing n p ps with
  | nil =>
    rw [piecesFrom] at h
    cases hfinish : n.finish with
    | error e =>
      rw [hfinish] at h
      cases h
    | ok _ =>
      rw [hfinish] at h
      obtain rfl := Except.ok.inj h
      exact fun q hq => List.mem_singleton.1 hq ▸ hp
  | cons c s ih =>
    rw [piecesFrom] at h
    split at h
    · cases h
    · next n' hstep =>
      split at h
      · next hcut =>
        simp only [Bool.and_eq_true, Nesting.isTop_iff] at hcut
        obtain ⟨⟨rfl, rfl⟩, -⟩ := hcut
        cases hrest : piecesFrom delim top [] s with
        | error e =>
          rw [hrest] at h
          cases h
        | ok rest =>
          rw [hrest] at h
          obtain rfl := Except.ok.inj h
          refine List.forall_mem_cons.2 ⟨hp, ih (p := []) (fun a b heq => ?_) rfl hrest⟩
          simp at heq
      · next hcut =>
        refine ih ?_ ?_ h
        · rw [List.reverse_cons]
          exact hp.snoc hwalk hstep hcut
        · rw [List.reverse_cons, Nesting.walk_append hwalk]
          exact Nesting.walk_cons hstep

/-- A text without the delimiter outside groups and quotes is not cut. -/
theorem piecesFrom_of_uncut (hwalk : top.walk p.reverse = .ok n) (hs : n.walk s = .ok top)
    (h : Uncut delim (p.reverse ++ s)) : piecesFrom delim n p s = .ok [p.reverse ++ s] := by
  induction s generalizing n p with
  | nil =>
    obtain rfl := Except.ok.inj hs
    rw [List.append_nil]
    rfl
  | cons c s ih =>
    rw [Nesting.walk] at hs
    split at hs
    · cases hs
    · next n' hstep =>
      have hcut : ¬ (n.isTop && n'.isTop && c == delim) = true := by
        simp only [Bool.and_eq_true, Nesting.isTop_iff, beq_iff_eq]
        rintro ⟨⟨rfl, rfl⟩, rfl⟩
        exact h _ _ rfl hwalk hstep
      have hwalk' : top.walk (c :: p).reverse = .ok n' := by
        rw [List.reverse_cons, Nesting.walk_append hwalk]
        exact Nesting.walk_cons hstep
      have heq : (c :: p).reverse ++ s = p.reverse ++ c :: s := by simp
      have hrest := ih hwalk' hs (heq ▸ h)
      rw [heq] at hrest
      rw [piecesFrom, hstep]
      simp only [if_neg hcut, hrest]

theorem pieces_of_uncut (hs : Balanced s) (h : Uncut delim s) : pieces delim s = .ok [s] :=
  piecesFrom_of_uncut rfl (walk_top_eq_ok_iff.2 hs) h

/-- A quote or a bracket never stands outside groups and quotes. -/
theorem uncut_of_marked (h : Mark.of delim ≠ .plain) : Uncut delim s := by
  intro a b _ _ hstep
  simp only [Nesting.step, top] at hstep
  split at hstep
  · cases hstep
  · cases hstep
  · cases hstep
  · next hplain => exact h hplain

/-- Taking blanks off the ends brings no delimiter to the outside. -/
theorem Uncut.of_blanks {a d : List Char} (h : Uncut delim (a ++ s ++ d))
    (ha : ∀ c ∈ a, isBlank c = true) : Uncut delim s := by
  rintro x y rfl hx
  refine h (a ++ x) (y ++ d) (by simp) ?_
  have htop : ∀ q, top.quote = some q → Mark.of q = .quote := fun q hq => (nomatch hq)
  rw [walk_blanks htop ha]
  exact hx

/-! ## Trimming -/

theorem trim_eq_rdropWhile (s : List Char) : trim s = (s.dropWhile isBlank).rdropWhile isBlank :=
  rfl

/-- Trimmed text is trimmed. -/
theorem trim_trim (s : List Char) : trim (trim s) = trim s := by
  have hfront : (trim s).dropWhile isBlank = trim s := by
    refine List.dropWhile_eq_self_iff.2 fun hlen => ?_
    have hinit : trim s <+: s.dropWhile isBlank := List.rdropWhile_prefix ..
    have hpos := hlen.trans_le hinit.length_le
    rw [hinit.getElem hlen]
    exact List.dropWhile_get_zero_not _ _ hpos
  rw [trim_eq_rdropWhile, hfront, trim_eq_rdropWhile, List.rdropWhile_idempotent]

/-- A trimmed piece that is not blank is the only statement of itself. -/
theorem statements_of_uncut (hs : Balanced s) (h : Uncut delim s) (htrim : trim s = s)
    (hne : s ≠ []) : statements delim s = .ok [s] := by
  rw [statements, pieces_of_uncut hs h]
  simp [Except.map, htrim, hne]

/-! ## Both cuts -/

/-- The words of a balanced text are runs of ordinary characters, quoted strings and groups;
together they are the text without its outer blanks, and they are the words of what they make with
spaces between them. The pieces at a delimiter make the text with the delimiter between them, and
none of them has it outside groups and quotes. The statements are trimmed, not empty, balanced, and
each is the only statement of itself. -/
theorem cuts_exact {s : List Char} (hs : Balanced s) :
    (∃ ws, words s = .ok ws ∧ (∀ w ∈ ws, w ≠ [] ∧ (IsWord w ∨ Closed w)) ∧ ws.flatten = dense s ∧
      words ([' '].intercalate ws) = .ok ws) ∧
    ∀ delim, ∃ ps qs, pieces delim s = .ok ps ∧ statements delim s = .ok qs ∧
      [delim].intercalate ps = s ∧ (∀ p ∈ ps, Uncut delim p) ∧
      (delim ∈ ['"', '\x27', '(', ')', '[', ']'] → ps = [s]) ∧
      ∀ q ∈ qs, trim q = q ∧ q ≠ [] ∧ Balanced q ∧ statements delim q = .ok [q] := by
  refine ⟨?_, fun delim => ?_⟩
  · obtain ⟨ws, hws, hshape, hflat⟩ := exists_wordsFrom_eq_ok hs.row inWord_nil
    refine ⟨ws, hws, fun w hw => ⟨?_, hshape w hw⟩, hflat, words_intercalate hshape⟩
    exact (hshape w hw).elim IsWord.ne_nil Closed.ne_nil
  · obtain ⟨qs, hqs⟩ := exists_statements_eq_ok delim hs
    have hqs' := hqs
    unfold statements at hqs'
    cases hps : pieces delim s with
    | error e =>
      rw [hps] at hqs'
      cases hqs'
    | ok ps =>
      rw [hps] at hqs'
      obtain rfl := Except.ok.inj hqs'
      have huncut : ∀ p ∈ ps, Uncut delim p :=
        uncut_of_mem_piecesFrom (fun a b heq => by simp at heq) rfl hps
      refine ⟨ps, _, rfl, hqs, (intercalate_of_piecesFrom hps).1, huncut, fun hd => ?_, ?_⟩
      · have hone := pieces_of_uncut hs (uncut_of_marked fun h => Mark.of_eq_plain_iff.1 h hd)
        exact Except.ok.inj (hps.symm.trans hone)
      · intro q hq
        have hbalanced := balanced_of_mem_statements hqs q hq
        obtain ⟨hmem, hne⟩ := List.mem_filter.1 hq
        obtain ⟨p, hp, rfl⟩ := List.mem_map.1 hmem
        have hne : trim p ≠ [] := by simpa using hne
        obtain ⟨a, b, heq, ha, -⟩ := exists_trim_eq p
        have hq : Uncut delim (trim p) := (heq ▸ huncut p hp).of_blanks ha
        exact ⟨trim_trim p, hne, hbalanced, statements_of_uncut hbalanced hq (trim_trim p) hne⟩

/-- Words stand next to a group and a quoted string, a bracket stands in quotes, and the last
delimiter has nothing behind it. -/
theorem cuts_exact_glued :
    Balanced "f(1 [2;3])'x) y'z ; \"a;b\";".toList ∧
    words "f(1 [2;3])'x) y'z ; \"a;b\";".toList =
      .ok ["f".toList, "(1 [2;3])".toList, "'x) y'".toList, "z".toList, ";".toList,
        "\"a;b\"".toList, ";".toList] ∧
    words "f (1 [2;3]) 'x) y' z ; \"a;b\" ;".toList =
      words "f(1 [2;3])'x) y'z ; \"a;b\";".toList ∧
    statements ';' "f(1 [2;3])'x) y'z ; \"a;b\";".toList =
      .ok ["f(1 [2;3])'x) y'z".toList, "\"a;b\"".toList] ∧
    statements ';' "f(1 [2;3])'x) y'z".toList = .ok ["f(1 [2;3])'x) y'z".toList] := by
  have hs : Balanced "f(1 [2;3])'x) y'z ; \"a;b\";".toList := walk_top_eq_ok_iff.1 (by decide)
  have hwords : words "f(1 [2;3])'x) y'z ; \"a;b\";".toList =
      .ok ["f".toList, "(1 [2;3])".toList, "'x) y'".toList, "z".toList, ";".toList,
        "\"a;b\"".toList, ";".toList] := by decide
  have hstatements : statements ';' "f(1 [2;3])'x) y'z ; \"a;b\";".toList =
      .ok ["f(1 [2;3])'x) y'z".toList, "\"a;b\"".toList] := by decide
  obtain ⟨⟨ws, hws, -, -, hagain⟩, hpieces⟩ := cuts_exact hs
  obtain ⟨ps, qs, -, hqs, -, -, -, hself⟩ := hpieces ';'
  obtain rfl := Except.ok.inj (hws.symm.trans hwords)
  obtain rfl := Except.ok.inj (hqs.symm.trans hstatements)
  exact ⟨hs, hwords, hagain.trans hwords.symm, hstatements, (hself _ List.mem_cons_self).2.2.2⟩

end SlotScript.Syntax

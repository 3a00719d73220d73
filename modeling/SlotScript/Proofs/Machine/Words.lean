import SlotScript.Proofs.Machine.RoundTrip
import SlotScript.Proofs.Number.Reading

/-!
# Words that are numbers

A word is read as one term wherever it stands (`Reader.run_word`), and by itself it is parsed into
one slot (`parse_word`). The term is a number when the word is a literal that is rounded to a finite
number and a symbol with the word's characters otherwise, whatever else the reader of floats would
take (`number_words_exact`).
-/

namespace SlotScript

open SlotScript.Text (isBlank)
open SlotScript.Syntax (IsWord Mark Nesting Term)
open SlotScript.Number (Counted FiniteLiteral Reliable Special float? read? readBy)

variable {β : Type} {t after : List Char} {c : Char}

namespace Syntax

/-- A word ends here: the text does, or a blank, a quote or a bracket comes next. -/
def EndsWord (after : List Char) : Prop :=
  ∀ c ∈ after.head?, isBlank c = true ∨ Mark.of c ≠ .plain

namespace Term

namespace Reader

variable {r : Reader}

theorem endWord_endWord : r.endWord.endWord = r.endWord := by
  apply endWord_eq_self
  rw [endWord]
  split
  · next hempty => exact List.isEmpty_iff.1 hempty
  · rfl

/-- A character that ends a word finds the word already ended. -/
theorem push_endWord (hq : r.nesting.quote = none) (h : isBlank c = true ∨ Mark.of c ≠ .plain)
    (n : Nesting) : r.endWord.push n c = r.push n c := by
  simp only [push, nesting_endWord, hq, endWord_endWord]
  cases hmark : Mark.of c with
  | plain =>
    have hblank : isBlank c = true := h.resolve_right (not_not_intro hmark)
    simp only [hblank, ↓reduceIte]
  | quote | opener | closer => rfl

theorem run_endWord (hq : r.nesting.quote = none) (h : EndsWord after) :
    r.endWord.run after = r.run after := by
  cases after with
  | nil => simp only [run, nesting_endWord, endWord_endWord]
  | cons c rest => simp only [run, nesting_endWord, push_endWord hq (h c rfl)]

/-- Wherever a word stands, it adds one term to the innermost group. -/
theorem run_word (hw : r.word = []) (hq : r.nesting.quote = none) (h : IsWord t)
    (hafter : EndsWord after) :
    r.run (t ++ after) = { r with items := ofWord t :: r.items }.run after := by
  obtain ⟨r', hrun, hnesting, hend⟩ := Reads.word hw hq h
  have hq' : r'.nesting.quote = none := hnesting ▸ hq
  rw [hrun, ← run_endWord hq' hafter, hend, hw.symm]
  rfl

end Reader

theorem read_word (h : IsWord t) : read t = .ok [ofWord t] := by
  have hrun := @Reader.run_word t [] {} rfl rfl h fun c hc => absurd hc (by simp)
  rw [List.append_nil] at hrun
  rw [read, hrun]
  rfl

theorem ofWord_of_read? {x : Float} (h : read? t = some x) : ofWord t = .number x := by
  rw [ofWord, h]

theorem ofWord_of_read?_eq_none (h : read? t = none) : ofWord t = .symbol (.ofList t) := by
  rw [ofWord, h]

end Term

end Syntax

namespace Machine

/-- A word is parsed into a fresh slot with the value of its term. -/
theorem parse_word {m : Machine β} {v : Value β} (hm : 0 < m.config.maxDepth) (h : IsWord t)
    (hv : (Term.ofWord t).tree = .leaf v) :
    m.parse t = (.ok [(m.allocate v).1], (m.allocate v).2) := by
  obtain ⟨room, hroom⟩ := Nat.exists_eq_succ_of_ne_zero hm.ne'
  rw [parse, hroom]
  simp only [Term.read_word h, loadAll]
  cases hterm : Term.ofWord t with
  | number x | text s | symbol name =>
    rw [hterm] at hv
    obtain rfl := Tree.leaf.inj hv
    rw [load]
    rfl
  | list items =>
    rw [hterm] at hv
    cases hv

/-- The number words. With any reader of floats that is reliable on a text, the text is a number
exactly when it is a literal below the middle of the greatest finite magnitude and `2 ^ 1024`; a
name of infinity or NaN never is. Numbers are read with `float?`, which is reliable on all texts
with an exponent that is counted. So a word is parsed into a number exactly when it is such a
literal and into a symbol otherwise, by itself or in any place of a longer text. -/
theorem number_words_exact (t : List Char) :
    (∀ reader, Reliable reader t → ((readBy reader t).isSome = true ↔ FiniteLiteral t)) ∧
    (Special t → (∀ reader, readBy reader t = none) ∧ Term.ofWord t = .symbol (.ofList t)) ∧
    read? t = readBy float? t ∧ (Counted t → Reliable float? t) ∧
    (Reliable float? t → IsWord t →
      (FiniteLiteral t → ∃ x, read? t = some x ∧ Term.ofWord t = .number x ∧
        ∀ (β : Type) (m : Machine β), 0 < m.config.maxDepth →
          m.parse t = (.ok [(m.allocate (.number x)).1], (m.allocate (.number x)).2)) ∧
      (¬ FiniteLiteral t → Term.ofWord t = .symbol (.ofList t) ∧
        ∀ (β : Type) (m : Machine β), 0 < m.config.maxDepth →
          m.parse t =
            (.ok [(m.allocate (.symbol (.ofList t))).1], (m.allocate (.symbol (.ofList t))).2)) ∧
      ∀ (r : Term.Reader) (after : List Char), r.word = [] → r.nesting.quote = none →
        Syntax.EndsWord after →
          r.run (t ++ after) = { r with items := Term.ofWord t :: r.items }.run after) := by
  refine ⟨fun reader => Number.isSome_readBy_iff, fun h => ⟨Number.readBy_of_special h, ?_⟩,
    Number.read?_eq_readBy t, Number.reliable_float?, fun hreliable hword => ⟨?_, ?_, ?_⟩⟩
  · apply Term.ofWord_of_read?_eq_none
    rw [Number.read?_eq_readBy, Number.readBy_of_special h]
  · intro hfinite
    rw [← Number.isSome_readBy_iff hreliable, ← Number.read?_eq_readBy] at hfinite
    obtain ⟨x, hx⟩ := Option.isSome_iff_exists.1 hfinite
    have hterm := Term.ofWord_of_read? hx
    exact ⟨x, hx, hterm, fun β m hm => parse_word hm hword (by rw [hterm]; rfl)⟩
  · intro hfinite
    rw [← Number.isSome_readBy_iff hreliable, ← Number.read?_eq_readBy,
      Option.not_isSome_iff_eq_none]
      at hfinite
    have hterm := Term.ofWord_of_read?_eq_none hfinite
    exact ⟨hterm, fun β m hm => parse_word hm hword (by rw [hterm]; rfl)⟩
  · exact fun r after hw hq => Term.Reader.run_word hw hq hword

/-- Zero has no exponent that is too large for it, another number has, and a sign does not make a
name one. -/
theorem number_words_exact_overflow :
    FiniteLiteral "0e999".toList ∧ ¬ FiniteLiteral "-1e309".toList ∧
      Term.ofWord "+Infinity".toList = .symbol "+Infinity" ∧
      (∃ x : Float, ((Machine.fresh {} : Machine Unit).parse "0e999".toList).2.store.get? ⟨0, 0⟩ =
        some (.number x)) ∧
      ((Machine.fresh {} : Machine Unit).parse "-1e309".toList).2.store.get? ⟨0, 0⟩ =
        some (.symbol "-1e309") := by
  have hzero : Reliable float? "0e999".toList :=
    (number_words_exact _).2.2.2.1 (Number.counted_of_length (by decide))
  have hlarge : Reliable float? "-1e309".toList :=
    (number_words_exact _).2.2.2.1 (Number.counted_of_length (by decide))
  have hfinite : FiniteLiteral "0e999".toList := by
    rw [← (number_words_exact _).1 _ hzero, ← (number_words_exact _).2.2.1]
    decide
  have hinfinite : ¬ FiniteLiteral "-1e309".toList := by
    rw [← (number_words_exact _).1 _ hlarge, ← (number_words_exact _).2.2.1]
    decide +kernel
  have hname : Special "+Infinity".toList :=
    @Special.mk ['+'] "Infinity".toList false .plus (by decide)
  refine ⟨hfinite, hinfinite, ((number_words_exact _).2.1 hname).2, ?_, ?_⟩
  · have hword : IsWord "0e999".toList := ⟨by decide, List.forall_iff_forall_mem.1 (by decide),
      List.forall_iff_forall_mem.1 (by decide)⟩
    obtain ⟨x, -, -, hparse⟩ := ((number_words_exact _).2.2.2.2 hzero hword).1 hfinite
    exact ⟨x, by rw [hparse Unit (.fresh {}) (by decide)]; rfl⟩
  · have hword : IsWord "-1e309".toList := ⟨by decide, List.forall_iff_forall_mem.1 (by decide),
      List.forall_iff_forall_mem.1 (by decide)⟩
    obtain ⟨-, hparse⟩ := ((number_words_exact _).2.2.2.2 hlarge hword).2.1 hinfinite
    rw [hparse Unit (.fresh {}) (by decide)]
    rfl

end Machine

end SlotScript

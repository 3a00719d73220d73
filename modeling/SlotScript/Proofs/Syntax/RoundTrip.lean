import SlotScript.Proofs.Number.RoundTrip
import SlotScript.Syntax.Term
import SlotScript.Tree

/-!
# Terms read back

The text of a tree is read as the tree, when its leaves are such that reading can give them: finite
numbers, texts without one of the two quotes, and symbols that are words but no numbers
(`Value.Printable`). Conversely reading gives no other leaves (`printable_of_read`).

Both directions follow the reader. `Reads r s terms` says that from `r` on the text `s` amounts to
having the terms in front of the rest, at the same nesting; a word, a quoted text, two texts with a
space between them and a group each have it, and so by induction the text of a tree
(`reads_text`). `Reader.Sound` is what holds of the unfinished word and of the finished terms after
every character.
-/

namespace SlotScript

open SlotScript.Text (isBlank)
open SlotScript.Syntax (Mark Nesting Term)

variable {β : Type}

/-! ## Trees and terms -/

namespace Tree

mutual

/-- The leaves of a tree, from left to right. -/
def leaves : Tree β → List (Value β)
  | .leaf v => [v]
  | .node items => leavesAll items

/-- The leaves of trees. -/
def leavesAll : List (Tree β) → List (Value β)
  | [] => []
  | t :: rest => t.leaves ++ leavesAll rest

end

mutual

/-- How many lists stand around the deepest place of a tree; an empty list counts. -/
def depth : Tree β → Nat
  | .leaf _ => 0
  | .node items => depthAll items + 1

/-- The depth of the deepest tree. -/
def depthAll : List (Tree β) → Nat
  | [] => 0
  | t :: rest => max t.depth (depthAll rest)

end

end Tree

namespace Syntax

/-- A nonempty run of characters without blanks, quotes and brackets. -/
structure IsWord (word : List Char) : Prop where
  ne_nil : word ≠ []
  notBlank : ∀ c ∈ word, isBlank c = false
  notMarked : ∀ c ∈ word, c ∉ ['"', '\x27', '(', ')', '[', ']']

theorem Mark.of_eq_plain_iff {c : Char} :
    Mark.of c = .plain ↔ c ∉ ['"', '\x27', '(', ')', '[', ']'] := by
  simp only [Mark.of, List.mem_cons, List.not_mem_nil, or_false, not_or]
  grind

theorem Mark.of_eq_quote_iff {c : Char} : Mark.of c = .quote ↔ c = '"' ∨ c = '\x27' := by
  simp only [Mark.of]
  grind

theorem Mark.of_eq_opener_iff {c closer : Char} :
    Mark.of c = .opener closer ↔ c = '(' ∧ closer = ')' ∨ c = '[' ∧ closer = ']' := by
  simp only [Mark.of]
  grind

theorem Nesting.quote_of_step {n n' : Nesting} {c : Char} (hq : n.quote = none)
    (h : n.step c = .ok n') : n'.quote = if Mark.of c = .quote then some c else none := by
  simp only [Nesting.step, hq] at h
  split at h
  · next hmark =>
    rw [if_pos hmark, ← Except.ok.inj h]
  · next hmark =>
    rw [if_neg (by simp [hmark]), ← Except.ok.inj h]
  · next hmark =>
    rw [if_neg (by simp [hmark])]
    split at h
    · cases h
    · split at h
      · rw [← Except.ok.inj h]
      · cases h
  · next hmark =>
    rw [if_neg (by simp [hmark]), ← Except.ok.inj h]
    exact hq

namespace Term

mutual

/-- A term as a tree of values. -/
def tree : Term → Tree β
  | .number x => .leaf (.number x)
  | .text s => .leaf (.text s)
  | .symbol name => .leaf (.symbol name)
  | .list items => .node (trees items)

/-- Terms as trees of values. -/
def trees : List Term → List (Tree β)
  | [] => []
  | t :: rest => t.tree :: trees rest

end

/-- How many groups stand around the deepest place of the terms; an empty group counts. -/
def depthAll (terms : List Term) : Nat :=
  Tree.depthAll (trees terms : List (Tree Empty))

mutual

theorem depth_tree : ∀ t : Term, (t.tree : Tree β).depth = (t.tree : Tree Empty).depth
  | .number _ | .text _ | .symbol _ => rfl
  | .list items => congrArg (· + 1) (depthAll_trees items)

/-- The leaves of a tree do not count. -/
theorem depthAll_trees : ∀ terms : List Term,
    Tree.depthAll (trees terms : List (Tree β)) = depthAll terms
  | [] => rfl
  | t :: rest => congrArg₂ max (depth_tree t) (depthAll_trees rest)

end

end Term

end Syntax

/-- The values that are leaves of what is read. -/
def Value.Printable : Value β → Prop
  | .number x => x.isFinite = true
  | .text s => ¬('"' ∈ s.toList ∧ '\x27' ∈ s.toList)
  | .symbol name => Syntax.IsWord name.toList ∧ Number.read? name.toList = none
  | _ => False

namespace Tree

mutual

theorem exists_tree_eq : ∀ t : Tree β, (∀ v ∈ t.leaves, v.Printable) → ∃ τ : Term, τ.tree = t
  | .leaf v, h => by
    have hv := h v (List.mem_singleton_self v)
    cases v with
    | number x => exact ⟨.number x, rfl⟩
    | text s => exact ⟨.text s, rfl⟩
    | symbol name => exact ⟨.symbol name, rfl⟩
    | nil | integer | list | builtin | host => exact hv.elim
  | .node items, h => by
    obtain ⟨terms, rfl⟩ := exists_trees_eq items h
    exact ⟨.list terms, rfl⟩

theorem exists_trees_eq : ∀ trees : List (Tree β), (∀ v ∈ leavesAll trees, v.Printable) →
    ∃ terms : List Term, Term.trees terms = trees
  | [], _ => ⟨[], rfl⟩
  | t :: rest, h => by
    obtain ⟨τ, rfl⟩ := exists_tree_eq t fun v hv => h v (List.mem_append_left _ hv)
    obtain ⟨terms, rfl⟩ := exists_trees_eq rest fun v hv => h v (List.mem_append_right _ hv)
    exact ⟨τ :: terms, rfl⟩

end

end Tree

namespace Syntax.Term

/-! ## Reading a text that was written -/

namespace Reader

variable {r : Reader} {s s' rest : List Char} {terms terms' : List Term} {q : Char}

theorem endWord_eq_self (h : r.word = []) : r.endWord = r := by
  rw [endWord, h]
  rfl

theorem run_cons {c : Char} {n : Nesting} (h : r.nesting.step c = .ok n) :
    r.run (c :: rest) = (r.push n c).run rest := by
  rw [run, h]

theorem run_plain {word : List Char} (hq : r.nesting.quote = none)
    (hw : ∀ c ∈ word, isBlank c = false ∧ Mark.of c = .plain) :
    r.run (word ++ rest) = { r with word := word.reverse ++ r.word }.run rest := by
  induction word generalizing r with
  | nil => rfl
  | cons c word ih =>
    obtain ⟨hblank, hmark⟩ := hw c List.mem_cons_self
    have hstep : r.nesting.step c = .ok r.nesting := by
      simp only [Nesting.step, hq, hmark]
    have hpush : r.push r.nesting c = { r with word := c :: r.word } := by
      simp only [push, hq, hmark, hblank, Bool.false_eq_true, ↓reduceIte]
    have hrest := @ih { r with word := c :: r.word } hq fun c' hc' =>
      hw c' (List.mem_cons_of_mem _ hc')
    rw [List.cons_append, run_cons hstep, hpush, hrest, List.reverse_cons, List.append_assoc,
      List.singleton_append]

theorem run_quoted (hq : r.nesting.quote = some q) (hs : q ∉ s) :
    r.run (s ++ q :: rest) =
      { r with
        nesting := ⟨r.nesting.closers, none⟩
        word := []
        items := .text (.ofList (r.word.reverse ++ s)) :: r.items }.run rest := by
  induction s generalizing r with
  | nil =>
    have hstep : r.nesting.step q = .ok ⟨r.nesting.closers, none⟩ := by
      simp only [Nesting.step, hq, ↓reduceIte]
    rw [List.nil_append, run_cons hstep]
    simp only [push, hq, ↓reduceIte, List.append_nil]
  | cons c s ih =>
    obtain ⟨hc, hs⟩ := not_or.1 (mt List.mem_cons.2 hs)
    have hstep : r.nesting.step c = .ok r.nesting := by
      simp only [Nesting.step, hq, if_neg (Ne.symm hc)]
    have hpush : r.push r.nesting c = { r with word := c :: r.word } := by
      simp only [push, hq, if_neg (Ne.symm hc)]
    have hrest := @ih { r with word := c :: r.word } hq hs
    rw [List.cons_append, run_cons hstep, hpush, hrest, List.reverse_cons, List.append_assoc,
      List.singleton_append]

theorem nesting_endWord : r.endWord.nesting = r.nesting := by
  rw [endWord]
  split <;> rfl

theorem outer_endWord : r.endWord.outer = r.outer := by
  rw [endWord]
  split <;> rfl

theorem word_endWord : r.endWord.word = [] := by
  rw [endWord]
  split
  · next h => exact List.isEmpty_iff.1 h
  · rfl

/-- A quoted text ends the word in front of it. -/
theorem run_string (hq : r.nesting.quote = none) (hmark : Mark.of q = .quote) (hs : q ∉ s) :
    r.run (q :: s ++ q :: rest) =
      { r with word := [], items := .text (.ofList s) :: r.endWord.items }.run rest := by
  have hstep : r.nesting.step q = .ok ⟨r.nesting.closers, some q⟩ := by
    simp only [Nesting.step, hq, hmark]
  have hpush : r.push ⟨r.nesting.closers, some q⟩ q =
      { r.endWord with nesting := ⟨r.nesting.closers, some q⟩ } := by
    simp only [push, hq, hmark]
  have hnesting : r.nesting = ⟨r.nesting.closers, none⟩ := by
    rw [← hq]
  have hrest :=
    @run_quoted { r.endWord with nesting := ⟨r.nesting.closers, some q⟩ } s rest q rfl hs
  rw [List.cons_append, run_cons hstep, hpush, hrest]
  simp only [word_endWord, outer_endWord, List.reverse_nil, List.nil_append, ← hnesting]

/-- From `r` on, where no quote is open, the text `s` is read as the terms. The first of them may
have begun before it as a word, and the last one may be a word that goes on behind it. -/
def Reads (r : Reader) (s : List Char) (terms : List Term) : Prop :=
  ∃ r' : Reader, (∀ rest, r.run (s ++ rest) = r'.run rest) ∧ r'.nesting = r.nesting ∧
    r'.endWord = { r with word := [], items := terms.reverse ++ r.items }

/-- A group ends the word in front of it, and what it has inside is a list. -/
theorem run_group {opener closer : Char} (hq : r.nesting.quote = none)
    (hoc : opener = '(' ∧ closer = ')' ∨ opener = '[' ∧ closer = ']')
    (h : Reads ⟨⟨closer :: r.nesting.closers, none⟩, [], [], r.endWord.items :: r.outer⟩ s terms)
    (rest : List Char) :
    r.run (opener :: s ++ closer :: rest) =
      { r with word := [], items := .list terms :: r.endWord.items }.run rest := by
  obtain ⟨r₁, hrun, hnesting, hend⟩ := h
  have hmark := Mark.of_eq_opener_iff.2 hoc
  have hmark' : Mark.of closer = .closer := by
    rcases hoc with ⟨-, rfl⟩ | ⟨-, rfl⟩ <;> rfl
  have hopen : r.nesting.step opener = .ok ⟨closer :: r.nesting.closers, none⟩ := by
    simp only [Nesting.step, hq, hmark]
  have hopen' : r.push ⟨closer :: r.nesting.closers, none⟩ opener =
      ⟨⟨closer :: r.nesting.closers, none⟩, [], [], r.endWord.items :: r.outer⟩ := by
    simp only [push, hq, hmark, word_endWord, outer_endWord]
  have hclose : r₁.nesting.step closer = .ok r.nesting := by
    simp only [hnesting, Nesting.step, hmark', ↓reduceIte]
    rw [← hq]
  have hclose' : r₁.push r.nesting closer =
      { r with word := [], items := .list terms :: r.endWord.items } := by
    simp only [push, hnesting, hmark', hend, endGroup, List.append_nil, List.reverse_reverse]
  rw [List.cons_append, run_cons hopen, hopen', hrun, run_cons hclose, hclose']

namespace Reads

theorem nil (hw : r.word = []) : Reads r [] [] :=
  ⟨r, fun _ => rfl, rfl, by rw [endWord_eq_self hw, ← hw]; rfl⟩

theorem word {word : List Char} (hw : r.word = []) (hq : r.nesting.quote = none)
    (hword : IsWord word) : Reads r word [ofWord word] := by
  have hplain : ∀ c ∈ word, isBlank c = false ∧ Mark.of c = .plain := fun c hc =>
    ⟨hword.notBlank c hc, Mark.of_eq_plain_iff.2 (hword.notMarked c hc)⟩
  refine ⟨{ r with word := word.reverse ++ r.word }, fun rest => run_plain hq hplain, rfl, ?_⟩
  have hne : word.reverse ≠ [] := mt List.reverse_eq_nil_iff.1 hword.ne_nil
  rw [hw, List.append_nil, endWord, if_neg (mt List.isEmpty_iff.1 hne), List.reverse_reverse]
  rfl

theorem quoted (hw : r.word = []) (hq : r.nesting.quote = none) (hmark : Mark.of q = .quote)
    (hs : q ∉ s) : Reads r (q :: s ++ [q]) [.text (.ofList s)] := by
  refine ⟨{ r with word := [], items := .text (.ofList s) :: r.items }, fun rest => ?_, rfl, rfl⟩
  rw [List.append_assoc, List.singleton_append, run_string hq hmark hs, endWord_eq_self hw]

/-- A space ends what stands in front of it. -/
theorem space (hq : r.nesting.quote = none) (h : Reads r s terms)
    (h' : Reads { r with word := [], items := terms.reverse ++ r.items } s' terms') :
    Reads r (s ++ ' ' :: s') (terms ++ terms') := by
  obtain ⟨r₁, hrun, hnesting, hend⟩ := h
  obtain ⟨r₂, hrun', hnesting', hend'⟩ := h'
  have hq₁ : r₁.nesting.quote = none := hnesting ▸ hq
  have hstep : r₁.nesting.step ' ' = .ok r₁.nesting := by
    simp only [Nesting.step, hq₁]
    rfl
  have hpush : r₁.push r₁.nesting ' ' =
      { r with word := [], items := terms.reverse ++ r.items } := by
    have hblank : r₁.push r₁.nesting ' ' = { r₁.endWord with nesting := r₁.nesting } := by
      simp only [push, hq₁]
      rfl
    rw [hblank, hend, hnesting]
  refine ⟨r₂, ?_, hnesting', ?_⟩
  · intro rest
    rw [List.append_assoc, hrun, List.cons_append, run_cons hstep, hpush, hrun']
  · rw [hend', List.reverse_append, List.append_assoc]

/-- Brackets around the text of terms make a list of them. -/
theorem group (hw : r.word = []) (hq : r.nesting.quote = none)
    (h : Reads ⟨⟨')' :: r.nesting.closers, none⟩, [], [], r.items :: r.outer⟩ s terms) :
    Reads r ('(' :: s ++ [')']) [.list terms] := by
  have hend := endWord_eq_self hw
  have hrun := run_group hq (.inl ⟨rfl, rfl⟩) (by rw [hend]; exact h)
  refine ⟨{ r with word := [], items := .list terms :: r.items }, fun rest => ?_, rfl, rfl⟩
  rw [List.append_assoc, List.singleton_append, hrun, hend]

/-- The text by itself is read as the terms. -/
theorem read (h : Reads {} s terms) : read s = .ok terms := by
  obtain ⟨r, hrun, hnesting, hend⟩ := h
  have hread := hrun []
  rw [List.append_nil] at hread
  rw [Term.read, hread, Reader.run, hnesting, hend]
  simp [Nesting.finish, Nesting.top, Except.map]

end Reads

end Reader

theorem isBlank_of_isDigit {c : Char} (h : c.isDigit = true) : isBlank c = false := by
  rw [Char.isDigit_iff_toNat] at h
  simp only [Char.reduceToNat] at h
  simp only [isBlank, Bool.or_eq_false_iff, Bool.and_eq_false_iff, decide_eq_false_iff_not,
    beq_eq_false_iff_ne]
  omega

theorem notMarked_of_isDigit {c : Char} (h : c.isDigit = true) :
    c ∉ ['"', '\x27', '(', ')', '[', ']'] := by
  intro hc
  have hall : (['"', '\x27', '(', ')', '[', ']'].all fun c => !c.isDigit) = true := rfl
  have hc' := List.all_eq_true.1 hall c hc
  rw [h] at hc'
  cases hc'

theorem isWord_display {x : Float} (h : x.isFinite = true) : IsWord (Number.display x).toList := by
  refine ⟨?_, ?_, ?_⟩
  · intro hnil
    have hread := Number.read?_display h
    rw [hnil] at hread
    cases hread
  · intro c hc
    rcases Number.mem_display h hc with hdigit | rfl | rfl
    · exact isBlank_of_isDigit hdigit
    · rfl
    · rfl
  · intro c hc
    rcases Number.mem_display h hc with hdigit | rfl | rfl
    · exact notMarked_of_isDigit hdigit
    · decide
    · decide

theorem reads_quoted {r : Reader} (hw : r.word = []) (hq : r.nesting.quote = none) {s : String}
    (h : ¬('"' ∈ s.toList ∧ '\x27' ∈ s.toList)) : r.Reads (quoted s).toList [.text s] := by
  rw [quoted]
  split
  · next hs =>
    have hmem : '\x27' ∉ s.toList := fun h' => h ⟨List.contains_iff_mem.1 hs, h'⟩
    have hreads := Reader.Reads.quoted hw hq (q := '\x27') rfl hmem
    simpa using hreads
  · next hs =>
    have hmem : '"' ∉ s.toList := fun h' => hs (List.contains_iff_mem.2 h')
    have hreads := Reader.Reads.quoted hw hq (q := '"') rfl hmem
    simpa using hreads

mutual

/-- The text of a printable term is read as the term. -/
theorem reads_text : ∀ (t : Term) (r : Reader), r.word = [] → r.nesting.quote = none →
    (∀ v ∈ (t.tree : Tree β).leaves, v.Printable) →
      r.Reads (t.tree : Tree β).text.toList [t]
  | .number x, r, hw, hq, h => by
    have hx : x.isFinite = true := h _ (List.mem_singleton_self _)
    have hreads := Reader.Reads.word hw hq (isWord_display hx)
    rwa [ofWord, Number.read?_display hx] at hreads
  | .text s, r, hw, hq, h => reads_quoted hw hq (h _ (List.mem_singleton_self _))
  | .symbol name, r, hw, hq, h => by
    obtain ⟨hword, hread⟩ : IsWord name.toList ∧ Number.read? name.toList = none :=
      h _ (List.mem_singleton_self _)
    have hreads := Reader.Reads.word hw hq hword
    rwa [ofWord, hread, String.ofList_toList] at hreads
  | .list items, r, hw, hq, h => by
    have hreads := Reader.Reads.group hw hq (reads_textAll items _ rfl rfl h)
    simpa [tree, Tree.text, Tree.textAll] using hreads

theorem reads_textAll : ∀ (terms : List Term) (r : Reader), r.word = [] → r.nesting.quote = none →
    (∀ v ∈ Tree.leavesAll (trees terms : List (Tree β)), v.Printable) →
      r.Reads (Tree.textAll (trees terms : List (Tree β))).toList terms
  | [], r, hw, hq, h => .nil hw
  | [t], r, hw, hq, h => by
    have hreads := reads_text t r hw hq fun v hv => h v (List.mem_append_left _ hv)
    simpa [trees, Tree.texts, Tree.textAll] using hreads
  | t :: t' :: rest, r, hw, hq, h => by
    have hfirst := reads_text t r hw hq fun v hv => h v (List.mem_append_left _ hv)
    have hrest := reads_textAll (t' :: rest)
      { r with word := [], items := [t].reverse ++ r.items } rfl hq
      fun v hv => h v (List.mem_append_right _ hv)
    have hreads := hfirst.space hq hrest
    simpa [trees, Tree.texts, Tree.textAll] using hreads

end

/-- The text of printable terms is read as the terms. -/
theorem read_textAll {terms : List Term}
    (h : ∀ v ∈ Tree.leavesAll (trees terms : List (Tree β)), v.Printable) :
    read (Tree.textAll (trees terms : List (Tree β))).toList = .ok terms :=
  (reads_textAll terms {} rfl rfl h).read

/-! ## What is read can be written -/

/-- A term whose leaves are printable. -/
def Printable (β : Type) (t : Term) : Prop :=
  ∀ v ∈ (t.tree : Tree β).leaves, v.Printable

theorem mem_leavesAll_trees {terms : List Term} {v : Value β} :
    v ∈ Tree.leavesAll (trees terms) ↔ ∃ t ∈ terms, v ∈ (t.tree : Tree β).leaves := by
  induction terms with
  | nil => simp [trees, Tree.leavesAll]
  | cons t rest ih => simp [trees, Tree.leavesAll, ih]

theorem printable_ofWord {word : List Char} (h : IsWord word) : (ofWord word).Printable β := by
  rw [ofWord]
  split
  · next x hx =>
    intro v hv
    obtain rfl := List.mem_singleton.1 hv
    exact Number.isFinite_of_read? hx
  · next hx =>
    intro v hv
    obtain rfl := List.mem_singleton.1 hv
    rw [← String.toList_ofList (l := word)] at h hx
    exact ⟨h, hx⟩

theorem printable_text {s : List Char} {q : Char} (hq : Mark.of q = .quote) (hs : q ∉ s) :
    (Term.text (.ofList s)).Printable β := by
  intro v hv
  obtain rfl := List.mem_singleton.1 hv
  rintro ⟨hdouble, hsingle⟩
  rw [String.toList_ofList] at hdouble hsingle
  rcases Mark.of_eq_quote_iff.1 hq with rfl | rfl
  · exact hs hdouble
  · exact hs hsingle

theorem printable_list {items : List Term} (h : ∀ t ∈ items, t.Printable β) :
    (Term.list items).Printable β := by
  intro v hv
  obtain ⟨t, ht, hv⟩ := mem_leavesAll_trees.1 hv
  exact h t ht v hv

namespace Reader

variable {r : Reader}

/-- The terms that were read are printable. -/
structure Finished (β : Type) (r : Reader) : Prop where
  items : ∀ t ∈ r.items, t.Printable β
  outer : ∀ ts ∈ r.outer, ∀ t ∈ ts, t.Printable β

/-- What holds after every character. The unfinished word has no mark and no blank, and inside
quotes it lacks the quote that would end it. -/
structure Sound (β : Type) (r : Reader) : Prop extends Finished β r where
  word : r.nesting.quote = none → ∀ c ∈ r.word, isBlank c = false ∧ Mark.of c = .plain
  text : ∀ q, r.nesting.quote = some q → Mark.of q = .quote ∧ q ∉ r.word

theorem Sound.endWord (h : Sound β r) (hq : r.nesting.quote = none) : Finished β r.endWord := by
  rw [Reader.endWord]
  split
  · exact h.toFinished
  · next hne =>
    have hword : IsWord r.word.reverse := by
      refine ⟨?_, ?_, ?_⟩
      · exact fun hnil => hne (List.isEmpty_iff.2 (List.reverse_eq_nil_iff.1 hnil))
      · intro c hc
        exact (h.word hq c (List.mem_reverse.1 hc)).1
      · intro c hc
        exact Mark.of_eq_plain_iff.1 (h.word hq c (List.mem_reverse.1 hc)).2
    refine ⟨?_, h.outer⟩
    intro t ht
    rcases List.mem_cons.1 ht with rfl | ht
    · exact printable_ofWord hword
    · exact h.items t ht

theorem Finished.endGroup (h : Finished β r) : Finished β r.endGroup := by
  rw [Reader.endGroup]
  split
  · exact h
  · next before outer houter =>
    refine ⟨?_, fun ts hts => h.outer ts (houter ▸ List.mem_cons_of_mem _ hts)⟩
    intro t ht
    rcases List.mem_cons.1 ht with rfl | ht
    · exact printable_list fun t ht => h.items t (List.mem_reverse.1 ht)
    · exact h.outer before (houter ▸ List.mem_cons_self) t ht

theorem word_endGroup_endWord : r.endWord.endGroup.word = [] := by
  rw [Reader.endGroup]
  split
  · exact word_endWord
  · exact word_endWord

theorem Finished.sound (h : Finished β r) (hw : r.word = [])
    (hq : ∀ q, r.nesting.quote = some q → Mark.of q = .quote) : Sound β r :=
  ⟨h, fun _ _ hc => absurd (hw ▸ hc) List.not_mem_nil, fun q hq' =>
    ⟨hq q hq', hw ▸ List.not_mem_nil⟩⟩

theorem Sound.push_quoted (h : Sound β r) {q c : Char} {n : Nesting} (hq : r.nesting.quote = some q)
    (hn : r.nesting.step c = .ok n) : Sound β (r.push n c) := by
  obtain ⟨hmark, hmem⟩ := h.text q hq
  simp only [Nesting.step, hq, Except.ok.injEq] at hn
  simp only [push, hq]
  split
  · next hc =>
    rw [if_pos hc] at hn
    refine Finished.sound ⟨fun t ht => ?_, h.outer⟩ rfl fun q' hq' => ?_
    · rcases List.mem_cons.1 ht with rfl | ht
      · exact printable_text hmark (mt List.mem_reverse.1 hmem)
      · exact h.items t ht
    · simp only [← hn] at hq'
      cases hq'
  · next hc =>
    obtain rfl : r.nesting = n := by rwa [if_neg hc] at hn
    refine ⟨⟨h.items, h.outer⟩, ?_, ?_⟩
    · intro hnone
      rw [hq] at hnone
      cases hnone
    · intro q' hq'
      obtain rfl : q = q' := Option.some.inj (hq.symm.trans hq')
      exact ⟨hmark, fun hc' => (List.mem_cons.1 hc').elim (fun heq => hc heq.symm) hmem⟩

theorem Sound.push_plain (h : Sound β r) {c : Char} {n : Nesting} (hq : r.nesting.quote = none)
    (hn : r.nesting.step c = .ok n) : Sound β (r.push n c) := by
  have hend := h.endWord hq
  have hquote : ∀ q, n.quote = some q → Mark.of q = .quote := by
    intro q hq'
    rw [Nesting.quote_of_step hq hn] at hq'
    split at hq'
    · next hmark => exact Option.some.inj hq' ▸ hmark
    · cases hq'
  simp only [push, hq]
  split
  · exact Finished.sound ⟨hend.items, hend.outer⟩ word_endWord hquote
  · refine Finished.sound ⟨fun t ht => (nomatch ht), fun ts hts => ?_⟩ word_endWord hquote
    rcases List.mem_cons.1 hts with rfl | hts
    · exact hend.items
    · exact hend.outer ts hts
  · have hgroup := hend.endGroup
    exact Finished.sound ⟨hgroup.items, hgroup.outer⟩ word_endGroup_endWord hquote
  · next hmark =>
    split
    · exact Finished.sound ⟨hend.items, hend.outer⟩ word_endWord hquote
    · next hblank =>
      refine ⟨⟨h.items, h.outer⟩, ?_, ?_⟩
      · intro _ c' hc'
        rcases List.mem_cons.1 hc' with rfl | hc'
        · exact ⟨Bool.not_eq_true _ ▸ hblank, hmark⟩
        · exact h.word hq c' hc'
      · intro q hq'
        rw [Nesting.quote_of_step hq hn, hmark] at hq'
        cases hq'

theorem Sound.run (h : Sound β r) {s : List Char} {terms : List Term} (hr : r.run s = .ok terms) :
    ∀ t ∈ terms, t.Printable β := by
  induction s generalizing r with
  | nil =>
    rw [Reader.run, Nesting.finish] at hr
    split at hr
    · cases hr
    · cases hr
    · next hq _ =>
      obtain rfl : r.endWord.items.reverse = terms := Except.ok.inj hr
      exact fun t ht => (h.endWord hq).items t (List.mem_reverse.1 ht)
  | cons c s ih =>
    rw [Reader.run] at hr
    split at hr
    · cases hr
    · next n hn =>
      refine ih ?_ hr
      cases hq : r.nesting.quote with
      | none => exact h.push_plain hq hn
      | some q => exact h.push_quoted hq hn

end Reader

/-- Reading gives printable terms. -/
theorem printable_of_read {s : List Char} {terms : List Term} (h : read s = .ok terms) :
    ∀ v ∈ Tree.leavesAll (trees terms : List (Tree β)), v.Printable := by
  have hsound : Reader.Sound β {} :=
    Reader.Finished.sound ⟨fun t ht => (nomatch ht), fun ts hts => (nomatch hts)⟩ rfl
      fun q hq => (nomatch hq)
  intro v hv
  obtain ⟨t, ht, hv⟩ := mem_leavesAll_trees.1 hv
  exact hsound.run h t ht v hv

end Syntax.Term

end SlotScript

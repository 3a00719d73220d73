import SlotScript.Proofs.Syntax.Groups
import SlotScript.Machine.Load

/-!
# Parsing group by group

`Machine.parse` reads a whole text into terms before it stores anything. `parseGroup` goes about it
another way: it cuts a text into words and stores them one after the other, and when it comes to a
group it does the same with the inside of the group, one level deeper. Both give the same slots or
the same error, and both leave the same machine (`parse_eq_parseGroup`).

They agree because the words of a balanced text stand for the terms that it is read as, and the
inside of a group that is a word is balanced. So nothing is found to be unbalanced after something
has been stored.
-/

namespace SlotScript.Machine

open SlotScript.Syntax (Balanced words)
open SlotScript.Syntax.Term (Denotes)

variable {β : Type} {m : Machine β} {room : Nat}

/-- Stores the value of a word. The inside of a group is parsed by `inside`. -/
def parseWord (inside : List Char → Machine β → Except Error (List Slot) × Machine β)
    (word : List Char) (m : Machine β) : Except Error Slot × Machine β :=
  match word with
  | '(' :: s | '[' :: s =>
    match inside s.dropLast m with
    | (.error e, m) => (.error e, m)
    | (.ok items, m) => let (s, m) := m.allocate (.list items); (.ok s, m)
  | '"' :: s | '\x27' :: s => let (s, m) := m.allocate (.text (.ofList s.dropLast)); (.ok s, m)
  | word =>
    match Number.read? word with
    | some x => let (s, m) := m.allocate (.number x); (.ok s, m)
    | none => let (s, m) := m.allocate (.symbol (.ofList word)); (.ok s, m)

/-- Stores the values of words in order; `before` has the slots of those already stored, last first.
When a word fails, what was stored for those before it is released, the first one first. -/
def parseWords (inside : List Char → Machine β → Except Error (List Slot) × Machine β)
    (before : List Slot) : List (List Char) → Machine β → Except Error (List Slot) × Machine β
  | [], m => (.ok before.reverse, m)
  | word :: rest, m =>
    match parseWord inside word m with
    | (.error e, m) => (.error e, before.reverse.foldl releaseTree m)
    | (.ok s, m) => parseWords inside (s :: before) rest m

/-- Parses a text below which groups may nest less than `room` levels deep. -/
def parseGroup : Nat → List Char → Machine β → Except Error (List Slot) × Machine β
  | 0, _, m => (.error (.tooDeep m.config.maxDepth), m)
  | room + 1, source, m =>
    match words source with
    | .error e => (.error (.unterminated e), m)
    | .ok ws => parseWords (parseGroup room) [] ws m

/-- The inside of a list is parsed as the list's items are loaded. -/
def Follows (room : Nat) (inside : List Char → Machine β → Except Error (List Slot) × Machine β) :
    Prop :=
  ∀ source items m, Syntax.Term.read source = .ok items →
    inside source m =
      match room with
      | 0 => (.error (.tooDeep m.config.maxDepth), m)
      | room + 1 => m.loadAll room [] items

section

variable {inside : List Char → Machine β → Except Error (List Slot) × Machine β}
  (h : Follows room inside)

include h

theorem parseWord_eq_load {w : List Char} {t : Syntax.Term} (hw : Denotes w t) (m : Machine β) :
    parseWord inside w m = m.load room t := by
  cases hw with
  | @word w hword =>
    have hload : m.load room (Syntax.Term.ofWord w) =
        match Number.read? w with
        | some x => (.ok (m.allocate (.number x)).1, (m.allocate (.number x)).2)
        | none => (.ok (m.allocate (.symbol (.ofList w))).1,
            (m.allocate (.symbol (.ofList w))).2) := by
      rw [Syntax.Term.ofWord]
      cases Number.read? w <;> rw [load]
    obtain ⟨c, s, rfl⟩ := List.exists_cons_of_ne_nil hword.ne_nil
    have hc := hword.notMarked c List.mem_cons_self
    rw [hload, parseWord]
    all_goals
      rintro s heq
      obtain ⟨rfl, -⟩ := List.cons.inj heq
      exact absurd hc (by decide)
  | @quoted q s hq =>
    rcases hq with rfl | rfl <;>
      rw [load, List.cons_append, parseWord, List.dropLast_concat]
  | @group opener closer s items hoc hread =>
    have hparse : parseWord inside (opener :: s ++ [closer]) m =
        match inside s m with
        | (.error e, m) => (.error e, m)
        | (.ok slots, m) => (.ok (m.allocate (.list slots)).1, (m.allocate (.list slots)).2) := by
      rcases hoc with ⟨rfl, rfl⟩ | ⟨rfl, rfl⟩ <;>
        rw [List.cons_append, parseWord, List.dropLast_concat]
    rw [hparse, h s items m hread]
    cases room <;> rfl

theorem parseWords_eq_loadAll {ws : List (List Char)} {terms : List Syntax.Term}
    (hws : List.Forall₂ Denotes ws terms) (before : List Slot) (m : Machine β) :
    parseWords inside before ws m = m.loadAll room before terms := by
  induction hws generalizing before m with
  | nil => rw [parseWords, loadAll]
  | @cons w t _ _ hw _ ih =>
    rw [parseWords, loadAll, parseWord_eq_load h hw]
    obtain ⟨_ | s, m'⟩ := m.load room t
    · rfl
    · exact ih (s :: before) m'

end

/-- What is not balanced is refused; the words of what is stand for its terms. -/
theorem parseGroup_succ (h : Follows room (parseGroup room : _ → Machine β → _))
    (source : List Char) (m : Machine β) :
    parseGroup (room + 1) source m =
      match Syntax.Term.read source with
      | .error e => (.error (.unterminated e), m)
      | .ok terms => m.loadAll room [] terms := by
  by_cases hbalanced : Balanced source
  · obtain ⟨d, hd⟩ := hbalanced
    obtain ⟨ws, terms, hws, hread, hdenotes, -⟩ := Syntax.Term.exists_words_denote hd
    rw [parseGroup, hws, hread]
    exact parseWords_eq_loadAll h hdenotes [] m
  · obtain ⟨e, he⟩ := Syntax.exists_words_eq_error hbalanced
    rw [parseGroup, he, Syntax.Term.read_eq_error_iff.2 he]

theorem follows_parseGroup (room : Nat) : Follows room (parseGroup room : _ → Machine β → _) := by
  induction room with
  | zero => exact fun _ _ _ _ => rfl
  | succ room ih =>
    intro source items m hread
    rw [parseGroup_succ ih, hread]

/-- A text is read once from end to end as it would be group by group. -/
theorem parse_eq_parseGroup (m : Machine β) (source : List Char) :
    m.parse source = parseGroup m.config.maxDepth source m := by
  cases hroom : m.config.maxDepth with
  | zero => simp only [parse, parseGroup, hroom]
  | succ room =>
    rw [parseGroup_succ (follows_parseGroup room)]
    cases hread : Syntax.Term.read source <;> simp only [parse, hroom, hread]

end SlotScript.Machine

import SlotScript.Proofs.Machine.RoundTrip
import SlotScript.Proofs.Syntax.Groups

/-!
# Which texts a machine accepts

A machine accepts the balanced texts whose brackets nest less deep than its limit. `load` and
`loadAll` succeed as long as there is room for the terms and fail with `tooDeep` otherwise, whatever
the state of the store; the terms of a text are as deep as its brackets nest; and a text that is not
balanced is refused before anything is stored or run.
-/

namespace SlotScript.Machine

open SlotScript.Syntax (Balanced Nests Nesting Term words statements)

variable {β : Type}

mutual

/-- What storing and releasing leave alone, loading leaves alone. -/
theorem load_unchanged {γ : Type} (f : Machine β → γ) (hs : ∀ m v, f (m.allocate v).2 = f m)
    (hr : ∀ {m rs m'}, Releases m rs m' → f m' = f m) :
    ∀ (t : Term) (m : Machine β) (room : Nat), f (m.load room t).2 = f m
  | .number _, m, room | .text _, m, room | .symbol _, m, room => by
    rw [load]
    exact hs m _
  | .list items, m, 0 => by rw [load]
  | .list items, m, room + 1 => by
    have hitems := loadAll_unchanged f hs hr items m room []
    rw [load]
    split
    · next heq => rwa [heq] at hitems
    · next heq =>
      rw [heq] at hitems
      exact (hs _ _).trans hitems

theorem loadAll_unchanged {γ : Type} (f : Machine β → γ) (hs : ∀ m v, f (m.allocate v).2 = f m)
    (hr : ∀ {m rs m'}, Releases m rs m' → f m' = f m) :
    ∀ (terms : List Term) (m : Machine β) (room : Nat) (before : List Slot),
      f (m.loadAll room before terms).2 = f m
  | [], m, room, before => by rw [loadAll]
  | t :: terms, m, room, before => by
    have ht := load_unchanged f hs hr t m room
    rw [loadAll]
    split
    · next heq =>
      rw [heq] at ht
      obtain ⟨rs, hrel, -⟩ := exists_releases_releaseAll (m.load room t).2 before.reverse
      rw [heq] at hrel
      rw [foldl_releaseTree]
      exact (hr hrel).trans ht
    · next heq =>
      rw [heq] at ht
      exact (loadAll_unchanged f hs hr terms _ room _).trans ht

end

theorem config_load (t : Term) (m : Machine β) (room : Nat) :
    (m.load room t).2.config = m.config :=
  load_unchanged (·.config) (fun _ _ => rfl) (fun h => h.config) t m room

mutual

/-- Terms that go deeper than there is room are refused. -/
theorem exists_load_eq_tooDeep : ∀ (t : Term) (m : Machine β) {room : Nat},
    room < (t.tree : Tree β).depth →
      ∃ m', m.load room t = (.error (.tooDeep m.config.maxDepth), m')
  | .number _, m, room, h | .text _, m, room, h | .symbol _, m, room, h =>
    absurd h (Nat.not_lt_zero _)
  | .list items, m, 0, h => ⟨_, by rw [load]⟩
  | .list items, m, room + 1, h => by
    obtain ⟨m', hload⟩ := exists_loadAll_eq_tooDeep items m [] (Nat.lt_of_succ_lt_succ h)
    exact ⟨m', by rw [load, hload]⟩

theorem exists_loadAll_eq_tooDeep : ∀ (terms : List Term) (m : Machine β) (before : List Slot)
    {room : Nat}, room < Tree.depthAll (Term.trees terms : List (Tree β)) →
      ∃ m', m.loadAll room before terms = (.error (.tooDeep m.config.maxDepth), m')
  | [], m, before, room, h => absurd h (Nat.not_lt_zero _)
  | t :: terms, m, before, room, h => by
    by_cases ht : room < (t.tree : Tree β).depth
    · obtain ⟨m', hload⟩ := exists_load_eq_tooDeep t m ht
      exact ⟨_, by rw [loadAll, hload]⟩
    · have hterms : room < Tree.depthAll (Term.trees terms : List (Tree β)) := by
        rw [Term.trees, Tree.depthAll] at h
        omega
      obtain ⟨s, m₁, hload⟩ := exists_load_eq t m (Nat.le_of_not_lt ht)
      have hconfig : m₁.config = m.config := by
        have hc := config_load t m room
        rwa [hload] at hc
      obtain ⟨m', hrest⟩ := exists_loadAll_eq_tooDeep terms m₁ (s :: before) hterms
      rw [hconfig] at hrest
      exact ⟨m', by rw [loadAll, hload]; exact hrest⟩

end

/-! ## Reading a text -/

variable {m : Machine β} {source : List Char} {d : Nat}

theorem parse_of_deep (h : Nests d source) (hd : m.config.maxDepth ≤ d) :
    (m.parse source).1 = .error (.tooDeep m.config.maxDepth) := by
  obtain ⟨terms, hread, hdepth⟩ := Term.exists_read_of_nests h
  rw [← Term.depthAll_trees (β := β)] at hdepth
  rw [parse]
  split
  · next hzero => rw [hzero]
  · next room hroom =>
    obtain ⟨m', hload⟩ := exists_loadAll_eq_tooDeep terms m [] (hdepth ▸ by omega : room < _)
    simp only [hread, hload]

theorem exists_parse_eq_ok (h : Nests d source) (hd : d < m.config.maxDepth) :
    ∃ expr, (m.parse source).1 = .ok expr := by
  obtain ⟨terms, hread, hdepth⟩ := Term.exists_read_of_nests h
  rw [← Term.depthAll_trees (β := β)] at hdepth
  rw [parse]
  split
  · next hzero => omega
  · next room hroom =>
    obtain ⟨slots, m', hload⟩ := exists_loadAll_eq terms m [] (hdepth ▸ by omega : _ ≤ room)
    exact ⟨slots, by simp only [hread, hload]⟩

theorem parse_of_words_eq_error {e : Syntax.NestingError} (hm : 1 ≤ m.config.maxDepth)
    (h : words source = .error e) : m.parse source = (.error (.unterminated e), m) := by
  rw [parse]
  split
  · next hzero => omega
  · rw [Term.read_eq_error_iff.2 h]

/-- A balanced text is either read or too deep. -/
theorem parse_ne_unterminated (h : Balanced source) (m : Machine β) (e : Syntax.NestingError) :
    (m.parse source).1 ≠ .error (.unterminated e) := by
  obtain ⟨d, hd⟩ := h
  by_cases hdeep : m.config.maxDepth ≤ d
  · rw [parse_of_deep hd hdeep]
    intro heq
    cases heq
  · obtain ⟨expr, hexpr⟩ := exists_parse_eq_ok hd (Nat.lt_of_not_le hdeep)
    rw [hexpr]
    intro heq
    cases heq

/-- Reading a text meets no stale handle. -/
theorem parse_ne_invalidHandle (m : Machine β) (source : List Char) (s : Slot) :
    (m.parse source).1 ≠ .error (.invalidHandle s) := by
  by_cases hbal : Balanced source
  · obtain ⟨d, hd⟩ := hbal
    by_cases hdeep : m.config.maxDepth ≤ d
    · rw [parse_of_deep hd hdeep]
      intro heq
      cases heq
    · obtain ⟨expr, hexpr⟩ := exists_parse_eq_ok hd (Nat.lt_of_not_le hdeep)
      rw [hexpr]
      intro heq
      cases heq
  · obtain ⟨e, he⟩ := Syntax.exists_words_eq_error hbal
    by_cases hm : 1 ≤ m.config.maxDepth
    · rw [parse_of_words_eq_error hm he]
      intro heq
      cases heq
    · rw [parse, Nat.eq_zero_of_not_pos hm]
      intro heq
      cases heq

theorem eval_of_words_eq_error {lib : Library β} {source : String} {ctx : Context}
    {e : Syntax.NestingError} (h : words source.toList = .error e) :
    m.eval lib source ctx = ((.error (.unterminated e), ctx), m) := by
  rw [eval, evalTextBy, Syntax.statements_eq_error_iff.2 h]

/-- What a machine makes of a text: it is refused as not well nested when it is not balanced, as too
deep when its brackets nest as deep as the limit, and read otherwise. -/
structure Judges (m : Machine β) (source : List Char) : Prop where
  unterminated : (∃ e, (m.parse source).1 = .error (.unterminated e)) ↔ ¬ Balanced source
  tooDeep : (m.parse source).1 = .error (.tooDeep m.config.maxDepth) ↔
    ∃ d, Nests d source ∧ m.config.maxDepth ≤ d
  read : (∃ expr, (m.parse source).1 = .ok expr) ↔ ∃ d, Nests d source ∧ d < m.config.maxDepth

theorem judges (hm : 1 ≤ m.config.maxDepth) (source : List Char) : m.Judges source := by
  by_cases hbal : Balanced source
  · obtain ⟨d, hd⟩ := hbal
    by_cases hdeep : m.config.maxDepth ≤ d
    · have hparse := parse_of_deep hd hdeep
      refine ⟨?_, ?_, ?_⟩
      · rw [hparse]
        exact ⟨fun ⟨e, he⟩ => (nomatch he), fun h => absurd ⟨d, hd⟩ h⟩
      · exact ⟨fun _ => ⟨d, hd, hdeep⟩, fun _ => hparse⟩
      · rw [hparse]
        refine ⟨fun ⟨e, he⟩ => (nomatch he), ?_⟩
        rintro ⟨d', hd', hlt⟩
        rw [hd.unique hd'] at hdeep
        omega
    · obtain ⟨expr, hparse⟩ := exists_parse_eq_ok hd (Nat.lt_of_not_le hdeep)
      refine ⟨?_, ?_, ?_⟩
      · rw [hparse]
        exact ⟨fun ⟨e, he⟩ => (nomatch he), fun h => absurd ⟨d, hd⟩ h⟩
      · rw [hparse]
        refine ⟨fun he => (nomatch he), ?_⟩
        rintro ⟨d', hd', hle⟩
        exact absurd (hd.unique hd' ▸ hle) hdeep
      · exact ⟨fun _ => ⟨d, hd, Nat.lt_of_not_le hdeep⟩, fun _ => ⟨expr, hparse⟩⟩
  · obtain ⟨e, he⟩ := Syntax.exists_words_eq_error hbal
    have hparse := parse_of_words_eq_error hm he
    refine ⟨?_, ?_, ?_⟩
    · rw [hparse]
      exact ⟨fun _ => hbal, fun _ => ⟨e, rfl⟩⟩
    · rw [hparse]
      exact ⟨fun h => (nomatch h), fun ⟨d, hd, _⟩ => absurd ⟨d, hd⟩ hbal⟩
    · rw [hparse]
      exact ⟨fun ⟨_, h⟩ => (nomatch h), fun ⟨d, hd, _⟩ => absurd ⟨d, hd⟩ hbal⟩

/-- Both cuts of a text and every machine accept exactly the balanced texts, a machine those among
them whose brackets nest less deep than its limit. A text that is not balanced is refused with the
same error everywhere, and evaluating it changes neither the machine nor the context; the statements
of a balanced text are balanced. -/
theorem accepts_balanced (source : String) (delim : Char) :
    ((∃ ws, words source.toList = .ok ws) ↔ Balanced source.toList) ∧
    ((∃ ps, statements delim source.toList = .ok ps) ↔ Balanced source.toList) ∧
    (∀ e, words source.toList = .error e ↔ statements delim source.toList = .error e) ∧
    (∀ d d', Nests d source.toList → Nests d' source.toList → d = d') ∧
    (∀ (β : Type) (m : Machine β), 1 ≤ m.config.maxDepth → m.Judges source.toList) ∧
    (¬ Balanced source.toList → ∃ e, words source.toList = .error e ∧
      ∀ (β : Type) (lib : Library β) (ctx : Context) (m : Machine β),
        m.eval lib source ctx = ((.error (.unterminated e), ctx), m)) ∧
    (Balanced source.toList → ∃ ps, statements ';' source.toList = .ok ps ∧
      ∀ p ∈ ps, ∀ (β : Type) (m : Machine β) (e : Syntax.NestingError),
        (m.parse p).1 ≠ .error (.unterminated e)) := by
  have hwords : (∃ ws, words source.toList = .ok ws) ↔ Balanced source.toList := by
    rw [← Syntax.verdict_eq_ok_iff, Syntax.verdict_words, Syntax.scan_top_eq_ok_iff]
  have hstatements : ∀ delim, (∃ ps, statements delim source.toList = .ok ps) ↔
      Balanced source.toList := by
    intro delim
    rw [← Syntax.verdict_eq_ok_iff, Syntax.verdict_statements, Syntax.scan_top_eq_ok_iff]
  refine ⟨hwords, hstatements delim, fun e => Syntax.statements_eq_error_iff.symm,
    fun d d' hd hd' => hd.unique hd', fun β m hm => judges hm _, ?_, ?_⟩
  · intro hbal
    obtain ⟨e, he⟩ := Syntax.exists_words_eq_error hbal
    exact ⟨e, he, fun β lib ctx m => eval_of_words_eq_error he⟩
  · intro hbal
    obtain ⟨ps, hps⟩ := (hstatements ';').2 hbal
    refine ⟨ps, hps, fun p hp β m e => ?_⟩
    exact parse_ne_unterminated (Syntax.balanced_of_mem_statements hps p hp) m e

/-- A bracket in quotes counts for nothing: the text nests two deep, which is too deep for a limit
of two and not for a limit of three. -/
theorem accepts_balanced_hidden :
    Nests 2 "f(1 ['(' 2])".toList ∧
      (parse (.fresh { maxDepth := 2 } : Machine Unit) "f(1 ['(' 2])".toList).1 =
        .error (.tooDeep 2) ∧
      ∃ expr, (parse (.fresh { maxDepth := 3 } : Machine Unit) "f(1 ['(' 2])".toList).1 =
        .ok expr := by
  have hquoted : Nests 0 ('\x27' :: ['('] ++ '\x27' :: [' ', '2']) :=
    .quoted (.inr rfl) (by decide) (.plain (by decide) (.plain (by decide) .nil))
  have hinner : Nests 1 ('[' :: ('\x27' :: ['('] ++ '\x27' :: [' ', '2']) ++ ']' :: []) :=
    .group (.inr ⟨rfl, rfl⟩) hquoted .nil
  have houter : Nests 2 ('(' :: ('1' :: ' ' ::
      ('[' :: ('\x27' :: ['('] ++ '\x27' :: [' ', '2']) ++ ']' :: [])) ++ ')' :: []) :=
    .group (.inl ⟨rfl, rfl⟩) (.plain (by decide) (.plain (by decide) hinner)) .nil
  have hnests : Nests 2 "f(1 ['(' 2])".toList := .plain (by decide) houter
  have hjudges := (accepts_balanced "f(1 ['(' 2])" ';').2.2.2.2.1
  refine ⟨hnests, ?_, ?_⟩
  · exact (hjudges Unit (.fresh { maxDepth := 2 }) (by decide)).tooDeep.2 ⟨2, hnests, Nat.le_refl 2⟩
  · exact (hjudges Unit (.fresh { maxDepth := 3 }) (by decide)).read.2
      ⟨2, hnests, Nat.lt_succ_self 2⟩

end SlotScript.Machine

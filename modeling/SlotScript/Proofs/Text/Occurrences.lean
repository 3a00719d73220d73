import Mathlib.Data.List.Infix
import Mathlib.Order.Bounds.Basic
import SlotScript.Text.Edit

/-!
# Occurrences of one text in another

Searching, cutting out, replacing and splitting all speak of the same offsets, which count
characters. A text occurs at an offset when the slice of its length there is the text itself.
`find?` gives the least such offset (`find?_eq_some_iff`); replacing exchanges the slice there;
splitting cuts at the least offset, and then again in what follows the occurrence. So the pieces
together with the delimiters are the text, no piece holds the delimiter, and replacing every
occurrence joins the same pieces with another text between them (`offsets_agree`).

An empty text occurs at every offset, the first of them 0. It still cuts nothing and is replaced
nowhere when all occurrences are meant.
-/

namespace SlotScript.Text

variable {s needle part delim piece next : List Char} {pieces front rest : List (List Char)}
  {c : Char} {i j k : Nat}

/-! ## Slices -/

/-- A slice is what stands in the text between its two offsets. -/
theorem slice_eq_ok_iff :
    slice s i j = .ok part ↔
      ∃ front back, front ++ part ++ back = s ∧ front.length = i ∧ i + part.length = j := by
  unfold slice
  constructor
  · intro h
    split at h
    · next hij =>
      obtain rfl := Except.ok.inj h
      have hback : (s.drop i).drop (j - i) = s.drop j := by
        rw [List.drop_drop, Nat.add_sub_cancel' hij.1]
      refine ⟨s.take i, s.drop j, ?_, ?_, ?_⟩
      · rw [List.append_assoc, ← hback, List.take_append_drop, List.take_append_drop]
      · rw [List.length_take]
        omega
      · rw [List.length_take, List.length_drop]
        omega
    · cases h
  · rintro ⟨front, back, rfl, rfl, rfl⟩
    have hroom : front.length + part.length ≤ (front ++ part ++ back).length := by simp
    rw [if_pos ⟨Nat.le_add_right _ _, hroom⟩]
    simp

theorem slice_eq_error_iff :
    slice s i j = .error ⟨i, j, s.length⟩ ↔ ¬ (i ≤ j ∧ j ≤ s.length) := by
  unfold slice
  split
  · next h => simp [h]
  · next h => simp [h]

theorem exists_slice_eq_ok_iff : (∃ part, slice s i j = .ok part) ↔ i ≤ j ∧ j ≤ s.length := by
  unfold slice
  split
  · next h => exact ⟨fun _ => h, fun _ => ⟨_, rfl⟩⟩
  · next h => exact ⟨fun ⟨_, heq⟩ => (by cases heq), fun h' => absurd h' h⟩

theorem slice_take (h : k ≤ s.length) : slice s 0 k = .ok (s.take k) :=
  slice_eq_ok_iff.2 ⟨[], s.drop k, List.take_append_drop k s, rfl, by simp [h]⟩

theorem take_append_of_slice (h : slice s i j = .ok part) : s.take i ++ part ++ s.drop j = s := by
  obtain ⟨front, back, rfl, rfl, rfl⟩ := slice_eq_ok_iff.1 h
  simp

theorem slice_drop (h : k ≤ s.length) : slice s k s.length = .ok (s.drop k) :=
  slice_eq_ok_iff.2 ⟨s.take k, [], by simp, by simp [h], by simp [h]⟩

/-! ## Occurrences -/

/-- At the offset `k` the text `s` goes on with `needle`. -/
def OccursAt (needle s : List Char) (k : Nat) : Prop :=
  slice s k (k + needle.length) = .ok needle

theorem occursAt_iff :
    OccursAt needle s k ↔ ∃ front back, front ++ needle ++ back = s ∧ front.length = k := by
  unfold OccursAt
  simp only [slice_eq_ok_iff, and_true]

theorem occursAt_zero_iff : OccursAt needle s 0 ↔ needle <+: s := by
  rw [occursAt_iff]
  constructor
  · rintro ⟨front, back, rfl, hfront⟩
    rw [List.length_eq_zero_iff.1 hfront]
    exact List.prefix_append needle back
  · rintro ⟨back, rfl⟩
    exact ⟨[], back, rfl, rfl⟩

theorem occursAt_succ_iff : OccursAt needle (c :: s) (k + 1) ↔ OccursAt needle s k := by
  rw [occursAt_iff, occursAt_iff]
  constructor
  · rintro ⟨front, back, heq, hfront⟩
    cases front with
    | nil => cases hfront
    | cons d front =>
      obtain ⟨-, heq⟩ := List.cons.inj heq
      exact ⟨front, back, heq, Nat.succ.inj hfront⟩
  · rintro ⟨front, back, rfl, rfl⟩
    exact ⟨c :: front, back, rfl, rfl⟩

theorem infix_iff_exists_occursAt : needle <:+: s ↔ ∃ k, OccursAt needle s k := by
  simp only [occursAt_iff]
  constructor
  · rintro ⟨front, back, heq⟩
    exact ⟨_, front, back, heq, rfl⟩
  · rintro ⟨_, front, back, heq, -⟩
    exact ⟨front, back, heq⟩

theorem OccursAt.add_length_le (h : OccursAt needle s k) : k + needle.length ≤ s.length :=
  (exists_slice_eq_ok_iff.1 ⟨needle, h⟩).2

/-! ## Searching -/

theorem isLeast_of_find? (h : find? needle s = some k) : IsLeast {k | OccursAt needle s k} k := by
  induction s generalizing k with
  | nil =>
    rw [find?, Option.ite_none_right_eq_some, List.isEmpty_iff] at h
    obtain ⟨rfl, hk⟩ := h
    obtain rfl := Option.some.inj hk
    exact ⟨occursAt_zero_iff.2 List.nil_prefix, fun _ _ => Nat.zero_le _⟩
  | cons c s ih =>
    rw [find?] at h
    split at h
    · next hhere =>
      obtain rfl := Option.some.inj h
      exact ⟨occursAt_zero_iff.2 (List.isPrefixOf_iff_prefix.1 hhere), fun _ _ => Nat.zero_le _⟩
    · next hhere =>
      obtain ⟨k, hk, rfl⟩ := Option.map_eq_some_iff.1 h
      refine ⟨occursAt_succ_iff.2 (ih hk).1, fun j hj => ?_⟩
      cases j with
      | zero => exact absurd (List.isPrefixOf_iff_prefix.2 (occursAt_zero_iff.1 hj)) hhere
      | succ j => exact Nat.succ_le_succ ((ih hk).2 (occursAt_succ_iff.1 hj))

theorem not_occursAt_of_find? (h : find? needle s = none) (k : Nat) : ¬ OccursAt needle s k := by
  induction s generalizing k with
  | nil =>
    intro hk
    obtain ⟨front, back, heq, -⟩ := occursAt_iff.1 hk
    simp only [List.append_eq_nil_iff] at heq
    simp [find?, heq.1.2] at h
  | cons c s ih =>
    rw [find?] at h
    split at h
    · cases h
    · next hhere =>
      cases k with
      | zero => exact fun hk => hhere (List.isPrefixOf_iff_prefix.2 (occursAt_zero_iff.1 hk))
      | succ k => exact fun hk => ih (Option.map_eq_none_iff.1 h) k (occursAt_succ_iff.1 hk)

theorem find?_eq_none_iff : find? needle s = none ↔ ∀ k, ¬ OccursAt needle s k := by
  refine ⟨not_occursAt_of_find?, fun h => ?_⟩
  cases hfind : find? needle s with
  | none => rfl
  | some k => exact absurd (isLeast_of_find? hfind).1 (h k)

theorem find?_eq_some_iff : find? needle s = some k ↔ IsLeast {k | OccursAt needle s k} k := by
  refine ⟨isLeast_of_find?, fun h => ?_⟩
  cases hfind : find? needle s with
  | none => exact absurd h.1 (not_occursAt_of_find? hfind k)
  | some j => rw [(isLeast_of_find? hfind).unique h]

theorem find?_eq_none_iff_not_infix : find? needle s = none ↔ ¬ needle <:+: s := by
  rw [find?_eq_none_iff, infix_iff_exists_occursAt, not_exists]

/-- What stands before the first occurrence does not hold the text that was looked for. -/
theorem not_infix_take_of_find? (hn : needle ≠ []) (h : find? needle s = some k) :
    ¬ needle <:+: s.take k := by
  intro hinfix
  obtain ⟨j, hj⟩ := infix_iff_exists_occursAt.1 hinfix
  have hlt : j < k := by
    have hroom := hj.add_length_le
    have hpos := List.length_pos_iff.2 hn
    rw [List.length_take] at hroom
    omega
  obtain ⟨front, back, heq, hfront⟩ := occursAt_iff.1 hj
  have hwhole : OccursAt needle s j := by
    refine occursAt_iff.2 ⟨front, back ++ s.drop k, ?_, hfront⟩
    rw [← List.append_assoc, heq, List.take_append_drop]
  exact absurd ((isLeast_of_find? h).2 hwhole) (Nat.not_le.2 hlt)

/-! ## Splitting -/

theorem splitOn_ne_nil : splitOn delim s ≠ [] := by
  rw [splitOn]
  split
  · exact List.cons_ne_nil _ _
  · split <;> exact List.cons_ne_nil _ _

theorem intercalate_cons (sep : List Char) (h : pieces ≠ []) :
    sep.intercalate (piece :: pieces) = piece ++ sep ++ sep.intercalate pieces := by
  cases pieces with
  | nil => exact absurd rfl h
  | cons next pieces => rw [List.intercalate_cons_cons]

/-- The pieces with the delimiter between them are the text. -/
theorem intercalate_splitOn (delim s : List Char) : delim.intercalate (splitOn delim s) = s := by
  fun_induction splitOn delim s with
  | case1 s => exact List.intercalate_singleton
  | case2 s hn k hfind ih =>
    rw [intercalate_cons delim splitOn_ne_nil, ih]
    exact take_append_of_slice (isLeast_of_find? hfind).1
  | case3 s hn hfind => exact List.intercalate_singleton

theorem not_infix_of_mem_splitOn (hn : delim ≠ []) (h : piece ∈ splitOn delim s) :
    ¬ delim <:+: piece := by
  fun_induction splitOn delim s with
  | case1 s hnil => exact absurd hnil hn
  | case2 s _ k hfind ih =>
    rcases List.mem_cons.1 h with rfl | h
    · exact not_infix_take_of_find? hn hfind
    · exact ih h
  | case3 s _ hfind =>
    rw [List.mem_singleton.1 h]
    exact find?_eq_none_iff_not_infix.1 hfind

/-- A list of one piece has none that another one follows. -/
theorem singleton_ne_append : [s] ≠ front ++ piece :: next :: rest := by
  intro h
  have hlen := congrArg List.length h
  simp only [List.length_append, List.length_cons, List.length_nil] at hlen
  omega

/-- Every piece but the last ends where the delimiter is first found behind the cut before it. -/
theorem find?_of_splitOn (h : splitOn delim s = front ++ piece :: next :: rest) :
    find? delim (piece ++ delim ++ delim.intercalate (next :: rest)) = some piece.length := by
  fun_induction splitOn delim s generalizing front with
  | case1 s => exact absurd h singleton_ne_append
  | case2 s hn k hfind ih =>
    cases front with
    | nil =>
      obtain ⟨rfl, hrest⟩ := List.cons.inj h
      have hoccurs := (isLeast_of_find? hfind).1
      have hk : k ≤ s.length := Nat.le_of_add_right_le hoccurs.add_length_le
      rw [← hrest, intercalate_splitOn, take_append_of_slice hoccurs, hfind,
        List.length_take_of_le hk]
    | cons first front =>
      obtain ⟨-, hrest⟩ := List.cons.inj h
      exact ih hrest
  | case3 s hn hfind => exact absurd h singleton_ne_append

/-! ## Replacing -/

theorem replaceFirst_of_find? (h : find? needle s = some k) (new : List Char) :
    replaceFirst needle new s = s.take k ++ new ++ s.drop (k + needle.length) := by
  rw [replaceFirst, h]

theorem replaceFirst_of_find?_eq_none (h : find? needle s = none) (new : List Char) :
    replaceFirst needle new s = s := by
  rw [replaceFirst, h]

theorem replaceAll_of_find? (hn : delim ≠ []) (h : find? delim s = some k) (new : List Char) :
    replaceAll delim new s =
      s.take k ++ new ++ replaceAll delim new (s.drop (k + delim.length)) := by
  rw [replaceAll, dif_neg hn]
  split
  · next j hfind =>
    obtain rfl := Option.some.inj (hfind.symm.trans h)
    rfl
  · next hfind => cases hfind.symm.trans h

theorem replaceAll_of_find?_eq_none (h : find? delim s = none) (new : List Char) :
    replaceAll delim new s = s := by
  rw [replaceAll]
  split
  · rfl
  · split
    · next hfind => cases hfind.symm.trans h
    · rfl

/-- Replacing every occurrence puts the new text between the pieces. -/
theorem replaceAll_eq_intercalate (delim new s : List Char) :
    replaceAll delim new s = new.intercalate (splitOn delim s) := by
  fun_induction splitOn delim s with
  | case1 s hnil => rw [replaceAll, dif_pos hnil, List.intercalate_singleton]
  | case2 s hn k hfind ih =>
    rw [replaceAll_of_find? hn hfind, intercalate_cons new splitOn_ne_nil, ih]
  | case3 s hn hfind =>
    rw [replaceAll_of_find?_eq_none hfind, List.intercalate_singleton]

/-- Searching, slicing, replacing and splitting speak of the same offsets. A text is found at the
least offset where a slice shows it, and not found when no slice does; the first occurrence is
replaced by exchanging that slice. A slice exists for the ranges inside the text, and stands between
the slices before and behind it. The pieces of a text join up to it, hold no delimiter and end where
the delimiter is found first; replacing all occurrences joins them with the new text. -/
theorem offsets_agree (s needle new delim : List Char) (i j : Nat) :
    (∀ k, find? needle s = some k ↔
      IsLeast {k | slice s k (k + needle.length) = .ok needle} k) ∧
    (find? needle s = none ↔ ∀ k, slice s k (k + needle.length) ≠ .ok needle) ∧
    (∀ k, find? needle s = some k →
      ∃ front back, slice s 0 k = .ok front ∧ slice s (k + needle.length) s.length = .ok back ∧
        replaceFirst needle new s = front ++ new ++ back) ∧
    (find? needle s = none → replaceFirst needle new s = s) ∧
    ((∃ part, slice s i j = .ok part) ↔ i ≤ j ∧ j ≤ s.length) ∧
    (slice s i j = .error ⟨i, j, s.length⟩ ↔ ¬ (i ≤ j ∧ j ≤ s.length)) ∧
    (∀ part, slice s i j = .ok part →
      ∃ front back, slice s 0 i = .ok front ∧ slice s j s.length = .ok back ∧
        front ++ part ++ back = s ∧ front.length = i ∧ part.length = j - i) ∧
    delim.intercalate (splitOn delim s) = s ∧
    (delim ≠ [] → ∀ piece ∈ splitOn delim s, ¬ delim <:+: piece) ∧
    (∀ front piece next rest, splitOn delim s = front ++ piece :: next :: rest →
      find? delim (piece ++ delim ++ delim.intercalate (next :: rest)) = some piece.length) ∧
    replaceAll delim new s = new.intercalate (splitOn delim s) ∧
    ∀ c, [c].intercalate (splitOnChar c s) = s ∧ ∀ piece ∈ splitOnChar c s, c ∉ piece := by
  refine ⟨fun k => find?_eq_some_iff, find?_eq_none_iff, fun k hfind => ?_,
    fun hfind => replaceFirst_of_find?_eq_none hfind new, exists_slice_eq_ok_iff,
    slice_eq_error_iff, fun part hpart => ?_, intercalate_splitOn delim s,
    fun hn _ => not_infix_of_mem_splitOn hn,
    fun _ _ _ _ => find?_of_splitOn, replaceAll_eq_intercalate delim new s, fun c => ?_⟩
  · have hroom := (isLeast_of_find? hfind).1.add_length_le
    exact ⟨_, _, slice_take (Nat.le_of_add_right_le hroom), slice_drop hroom,
      replaceFirst_of_find? hfind new⟩
  · obtain ⟨hij, hj⟩ := exists_slice_eq_ok_iff.1 ⟨part, hpart⟩
    obtain ⟨_, _, -, -, hlen⟩ := slice_eq_ok_iff.1 hpart
    exact ⟨_, _, slice_take (hij.trans hj), slice_drop hj, take_append_of_slice hpart,
      List.length_take_of_le (hij.trans hj), by omega⟩
  · refine ⟨intercalate_splitOn [c] s, fun piece hpiece hc => ?_⟩
    exact not_infix_of_mem_splitOn (List.cons_ne_nil c []) hpiece
      ((List.singleton_infix_iff c piece).2 hc)

/-- Where candidates overlap the first one counts, and what it takes is not looked at again. A
character outside ASCII takes one offset. -/
theorem offsets_agree_overlapping :
    find? "aa".toList "çaaa".toList = some 1 ∧
    slice "çaaa".toList 1 3 = .ok "aa".toList ∧ slice "çaaa".toList 2 4 = .ok "aa".toList ∧
    splitOn "aa".toList "çaaa".toList = ["ç".toList, "a".toList] ∧
    replaceFirst "aa".toList "é".toList "çaaa".toList = "çéa".toList ∧
    replaceAll "aa".toList "é".toList "çaaa".toList = "çéa".toList := by
  obtain ⟨hsome, -, hfirst, -, -, -, -, -, -, -, hall, -⟩ :=
    offsets_agree "çaaa".toList "aa".toList "é".toList "aa".toList 2 4
  have hfind : find? "aa".toList "çaaa".toList = some 1 := by decide
  have hpieces : splitOn "aa".toList "çaaa".toList = ["ç".toList, "a".toList] := by cbv
  refine ⟨hfind, ((hsome 1).1 hfind).1, by decide, hpieces, ?_, ?_⟩
  · obtain ⟨front, back, hfront, hback, heq⟩ := hfirst 1 hfind
    obtain rfl : front = "ç".toList := Except.ok.inj (hfront.symm.trans (by decide))
    obtain rfl : back = "a".toList := Except.ok.inj (hback.symm.trans (by decide))
    exact heq
  · rw [hall, hpieces]
    decide

end SlotScript.Text

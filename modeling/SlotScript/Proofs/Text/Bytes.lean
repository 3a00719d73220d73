import SlotScript.Proofs.Text.Occurrences

/-!
# Offsets that count bytes

A text is stored in UTF-8. To search for a text in what is stored gives the offset of a byte, and to
count the characters in front of it gives the offset that `find?` gives (`find?_eq_some_iff_byte`).

The encoding of a character begins with a byte that stands nowhere else in an encoding. So a text
that is not empty occurs only where a character begins (`exists_take_of_bytes`). There the bytes
tell the characters: an encoding is never the beginning of another one (`bytes_prefix_iff`).
-/

namespace SlotScript.Text

open String (utf8EncodeChar)

variable {s t needle : List Char} {front back : List UInt8} {c d : Char} {i j k : Nat}

/-- The bytes of a text. -/
def bytes (s : List Char) : List UInt8 :=
  s.flatMap utf8EncodeChar

theorem toByteArray_bytes (s : List Char) : (bytes s).toByteArray = (String.ofList s).toByteArray :=
  rfl

@[simp] theorem bytes_cons : bytes (c :: s) = utf8EncodeChar c ++ bytes s :=
  List.flatMap_cons

@[simp] theorem bytes_append : bytes (s ++ t) = bytes s ++ bytes t :=
  List.flatMap_append

/-- The characters that lie in the first bytes of a text, counted. -/
def charsIn : List Char → Nat → Nat
  | [], _ => 0
  | c :: s, n => if c.utf8Size ≤ n then charsIn s (n - c.utf8Size) + 1 else 0

theorem charsIn_mono (s : List Char) (h : i ≤ j) : charsIn s i ≤ charsIn s j := by
  induction s generalizing i j with
  | nil => exact Nat.le_refl _
  | cons c s ih =>
    unfold charsIn
    split
    · next hi =>
      rw [if_pos (hi.trans h)]
      exact Nat.succ_le_succ (ih (Nat.sub_le_sub_right h _))
    · exact Nat.zero_le _

theorem charsIn_append (s t : List Char) : charsIn (s ++ t) (bytes s).length = s.length := by
  induction s with
  | nil =>
    cases t with
    | nil => rfl
    | cons c t => exact if_neg (Nat.not_le.2 c.utf8Size_pos)
  | cons c s ih =>
    rw [List.cons_append, charsIn, bytes_cons, List.length_append, String.length_utf8EncodeChar,
      if_pos (Nat.le_add_right _ _), Nat.add_sub_cancel_left, ih, List.length_cons]

theorem charsIn_le_length (s : List Char) (n : Nat) : charsIn s n ≤ s.length := by
  induction s generalizing n with
  | nil => exact Nat.le_refl 0
  | cons c s ih =>
    rw [charsIn]
    split
    · exact Nat.succ_le_succ (ih _)
    · exact Nat.zero_le _

/-- Bytes that hold the characters of `s` are as many as those of `s`. -/
theorem length_bytes_le {n : Nat} (h : s.length ≤ charsIn (s ++ t) n) : (bytes s).length ≤ n := by
  induction s generalizing n with
  | nil => exact Nat.zero_le n
  | cons c s ih =>
    rw [List.cons_append, charsIn, List.length_cons] at h
    split at h
    · next hc =>
      have hrest := ih (Nat.le_of_succ_le_succ h)
      rw [bytes_cons, List.length_append, String.length_utf8EncodeChar]
      omega
    · exact absurd h (Nat.not_succ_le_zero _)

/-! ## Where a text occurs -/

/-- The first character of encoded text. -/
theorem eq_of_utf8EncodeChar_append
    (h : utf8EncodeChar c ++ front = utf8EncodeChar d ++ back) : c = d := by
  have hdecode : ∀ (c : Char) (rest : List UInt8),
      (utf8EncodeChar c ++ rest).toByteArray.utf8DecodeChar? 0 = some c := by
    intro c rest
    rw [List.toByteArray_append]
    exact ByteArray.utf8DecodeChar?_utf8EncodeChar_append
  exact Option.some.inj ((hdecode c front).symm.trans (h ▸ hdecode d back))

theorem bytes_prefix_iff : bytes t <+: bytes s ↔ t <+: s := by
  induction t generalizing s with
  | nil => exact iff_of_true List.nil_prefix List.nil_prefix
  | cons c t ih =>
    cases s with
    | nil => simp [bytes, String.utf8EncodeChar_ne_nil]
    | cons d s =>
      rw [List.cons_prefix_cons, bytes_cons, bytes_cons]
      constructor
      · rintro ⟨back, h⟩
        rw [List.append_assoc] at h
        obtain rfl := eq_of_utf8EncodeChar_append h
        exact ⟨rfl, ih.1 ⟨back, List.append_cancel_left h⟩⟩
      · rintro ⟨rfl, h⟩
        exact (List.prefix_append_right_inj _).2 (ih.2 h)

/-- The first byte of an encoding, and only that one, can be a first byte. -/
theorem isUTF8FirstByte_iff {b : UInt8} (h : utf8EncodeChar c = front ++ b :: back) :
    b.IsUTF8FirstByte ↔ front = [] := by
  have hlt : front.length < (utf8EncodeChar c).length := by
    rw [h, List.length_append, List.length_cons]
    omega
  have hget : (utf8EncodeChar c)[front.length] = b := by
    simp only [h, List.getElem_append_right (Nat.le_refl _), Nat.sub_self, List.getElem_cons_zero]
  rw [← hget, UInt8.isUTF8FirstByte_getElem_utf8EncodeChar, List.length_eq_zero_iff]

theorem exists_firstByte (c : Char) :
    ∃ b rest, utf8EncodeChar c = b :: rest ∧ b.IsUTF8FirstByte := by
  obtain ⟨b, rest, h⟩ := List.exists_cons_of_ne_nil (@String.utf8EncodeChar_ne_nil c)
  have hfront : utf8EncodeChar c = [] ++ b :: rest := h
  exact ⟨b, rest, h, (isUTF8FirstByte_iff hfront).2 rfl⟩

/-- A text that is not empty begins where a character begins. -/
theorem exists_take_of_bytes (ht : t ≠ []) (h : front ++ (bytes t ++ back) = bytes s) :
    ∃ before after, s = before ++ after ∧ front = bytes before ∧ bytes t ++ back = bytes after := by
  induction s generalizing front with
  | nil =>
    have hnil := List.append_eq_nil_iff.1 h
    exact ⟨[], [], rfl, hnil.1, hnil.2⟩
  | cons c s ih =>
    rw [bytes_cons, List.append_eq_append_iff] at h
    rcases h with ⟨rest, hc, hrest⟩ | ⟨front', rfl, hs⟩
    · cases rest with
      | nil =>
        rw [List.append_nil] at hc
        exact ⟨[c], s, rfl, by rw [← hc]; exact (List.append_nil _).symm, hrest⟩
      | cons b rest =>
        -- The first byte of `t` stands in the encoding of `c`, so it is the first one there.
        obtain ⟨d, t, rfl⟩ := List.exists_cons_of_ne_nil ht
        obtain ⟨b', rest', hd, hfirst⟩ := exists_firstByte d
        have hb : b' = b := by
          rw [bytes_cons, hd] at hrest
          exact (List.cons.inj hrest).1
        obtain rfl := (isUTF8FirstByte_iff hc).1 (hb ▸ hfirst)
        exact ⟨[], c :: s, rfl, rfl, by rw [hrest, bytes_cons, hc]; rfl⟩
    · obtain ⟨before, after, rfl, rfl, hafter⟩ := ih hs.symm
      exact ⟨c :: before, after, rfl, rfl, hafter⟩

/-- The bytes of `needle` stand in the bytes of `s` from offset `j` on. -/
def OccursAtByte (needle s : List Char) (j : Nat) : Prop :=
  ∃ front back, front ++ (bytes needle ++ back) = bytes s ∧ front.length = j

/-- What occurs at an offset of characters occurs at an offset of bytes, the first one with as many
characters in front of it. -/
theorem OccursAt.exists_byte (h : OccursAt needle s k) :
    ∃ j, OccursAtByte needle s j ∧ charsIn s j = k ∧ ∀ n, k ≤ charsIn s n → j ≤ n := by
  obtain ⟨front, back, rfl, rfl⟩ := occursAt_iff.1 h
  rw [List.append_assoc]
  refine ⟨(bytes front).length, ⟨bytes front, bytes back, ?_, rfl⟩, ?_, fun n => length_bytes_le⟩
  · rw [bytes_append, bytes_append]
  · exact charsIn_append front (needle ++ back)

theorem OccursAtByte.occursAt (h : OccursAtByte needle s j) : OccursAt needle s (charsIn s j) := by
  by_cases hn : needle = []
  · subst hn
    refine occursAt_iff.2 ⟨s.take (charsIn s j), s.drop (charsIn s j), ?_, ?_⟩
    · rw [List.append_nil, List.take_append_drop]
    · rw [List.length_take, Nat.min_eq_left (charsIn_le_length s j)]
  · obtain ⟨front, back, heq, rfl⟩ := h
    obtain ⟨before, after, rfl, rfl, hafter⟩ := exists_take_of_bytes hn heq
    obtain ⟨rest, rfl⟩ := bytes_prefix_iff.1 ⟨back, hafter⟩
    rw [charsIn_append]
    exact occursAt_iff.2 ⟨before, rest, List.append_assoc .., rfl⟩

/-- To search among the bytes and then count the characters in front comes to the same. -/
theorem find?_eq_some_iff_byte :
    find? needle s = some k ↔ ∃ j, IsLeast {j | OccursAtByte needle s j} j ∧ charsIn s j = k := by
  rw [find?_eq_some_iff]
  constructor
  · rintro ⟨hk, hleast⟩
    obtain ⟨j, hj, hcount, hfirst⟩ := OccursAt.exists_byte hk
    exact ⟨j, ⟨hj, fun n hn => hfirst n (hleast (OccursAtByte.occursAt hn))⟩, hcount⟩
  · rintro ⟨j, ⟨hj, hleast⟩, rfl⟩
    refine ⟨OccursAtByte.occursAt hj, fun k hk => ?_⟩
    obtain ⟨n, hn, rfl, -⟩ := OccursAt.exists_byte hk
    exact charsIn_mono s (hleast hn)

theorem find?_eq_none_iff_byte : find? needle s = none ↔ ∀ j, ¬ OccursAtByte needle s j := by
  rw [find?_eq_none_iff]
  constructor
  · exact fun h j hj => h _ hj.occursAt
  · intro h k hk
    obtain ⟨j, hj, -⟩ := hk.exists_byte
    exact h j hj

end SlotScript.Text

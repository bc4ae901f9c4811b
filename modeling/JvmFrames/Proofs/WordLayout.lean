import JvmFrames.Frame

/-!
# Layout of word sequences

A list of values is laid out word after word, so value `i` starts after the words of the values
before it, at `wordCount (values.take i)`. No word belongs to two values (`Occupies.unique`). A word
sequence stores just these starts (`WordSeq.getElem?_stored`), and its lookups give the value that a
word belongs to (`WordSeq.lookup_of_occupies`, `WordSeq.covering?_of_occupies`).

The values may be of any type and width. Only where a value is found by its start, it must take a
word at least (`WordSeq.lookup_eq_found_iff_getElem?`): otherwise the next one starts there too.
-/

namespace JvmFrames

variable {α : Type} [Width α]

/-! ## Counting words

The count is a fold from the left, as frames keep it. The equations below take it apart from the
front and at an append, so that no proof has to look at the accumulator again. -/

/-- The accumulator of the count only ever adds up. -/
theorem foldl_add_width (values : List α) (n : Nat) :
    values.foldl (fun n v => n + width v) n = n + wordCount values := by
  unfold wordCount
  induction values generalizing n with
  | nil => rfl
  | cons v rest ih =>
    rw [List.foldl_cons, List.foldl_cons, ih (n + width v), ih (0 + width v)]
    omega

@[simp] theorem wordCount_nil : wordCount ([] : List α) = 0 := rfl

@[simp] theorem wordCount_cons (v : α) (rest : List α) :
    wordCount (v :: rest) = width v + wordCount rest := by
  show (v :: rest).foldl (fun n v => n + width v) 0 = _
  rw [List.foldl_cons, foldl_add_width]
  omega

/-- The words of two lists add up. This is what places a value behind those before it. -/
@[simp] theorem wordCount_append (a b : List α) :
    wordCount (a ++ b) = wordCount a + wordCount b := by
  induction a with
  | nil => simp
  | cons v rest ih => rw [List.cons_append, wordCount_cons, wordCount_cons, ih]; omega

@[simp] theorem wordCount_reverse (values : List α) :
    wordCount values.reverse = wordCount values := by
  induction values with
  | nil => rfl
  | cons v rest ih =>
    rw [List.reverse_cons, wordCount_append, ih, wordCount_cons, wordCount_cons, wordCount_nil]
    omega

variable {values : List α} {i j n : Nat} {a b : α}

/-- Values replaced by others of the same width take as many words. -/
theorem wordCount_map_of_width {change : α → α} (hwidth : ∀ a ∈ values, width (change a) = width a) :
    wordCount (values.map change) = wordCount values := by
  induction values with
  | nil => rfl
  | cons v rest ih =>
    rw [List.forall_mem_cons] at hwidth
    rw [List.map_cons, wordCount_cons, wordCount_cons, hwidth.1, ih hwidth.2]

/-- A value ends where the next one starts. -/
theorem wordCount_take_succ (h : values[i]? = some a) :
    wordCount (values.take (i + 1)) = wordCount (values.take i) + width a := by
  rw [List.take_add_one, h, wordCount_append]
  simp

theorem wordCount_take_mono (values : List α) (h : i ≤ j) :
    wordCount (values.take i) ≤ wordCount (values.take j) := by
  obtain ⟨k, rfl⟩ := Nat.exists_eq_add_of_le h
  rw [List.take_add, wordCount_append]
  exact Nat.le_add_right ..

theorem wordCount_take_le (values : List α) (i : Nat) :
    wordCount (values.take i) ≤ wordCount values := by
  have hsplit := wordCount_append (values.take i) (values.drop i)
  rw [List.take_append_drop] at hsplit
  omega

/-! ## The value that a word belongs to

A word is one of the words of value `i` if it lies between the start of that value and its end.
Values are laid out without gaps, so there is exactly one such value for every word of a list
(`Occupies.unique`, `WordSeq.exists_occupies`). -/

/-- Value `i` of a list is `a`, and the word `n` is one of its words. -/
structure Occupies (values : List α) (i : Nat) (a : α) (n : Nat) : Prop where
  value : values[i]? = some a
  start_le : wordCount (values.take i) ≤ n
  lt_end : n < wordCount (values.take i) + width a

namespace Occupies

/-- A value occupies the word that it starts at, if it takes any. -/
theorem at_start (h : values[i]? = some a) (hpos : 0 < width a) :
    Occupies values i a (wordCount (values.take i)) :=
  ⟨h, Nat.le_refl _, Nat.lt_add_of_pos_right hpos⟩

/-- Of two values that a word belongs to, neither comes before the other: the first would end before
the second starts. -/
theorem not_lt (h : Occupies values i a n) (h' : Occupies values j b n) : ¬ i < j := fun hlt => by
  have hend := wordCount_take_succ h.value
  have hmono := wordCount_take_mono values (show i + 1 ≤ j from hlt)
  have hlt_end := h.lt_end
  have hstart := h'.start_le
  omega

/-- A word belongs to one value only. -/
theorem unique (h : Occupies values i a n) (h' : Occupies values j b n) : i = j ∧ a = b := by
  -- by `not_lt` neither index is smaller than the other
  obtain rfl : i = j :=
    Nat.le_antisymm (Nat.le_of_not_lt (h'.not_lt h)) (Nat.le_of_not_lt (h.not_lt h'))
  exact ⟨rfl, Option.some.inj (h.value.symm.trans h'.value)⟩

theorem lt_wordCount (h : Occupies values i a n) : n < wordCount values := by
  have hend := wordCount_take_succ h.value
  have hle := wordCount_take_le values (i + 1)
  have hlt_end := h.lt_end
  omega

/-- Values added at the end change nothing for the words before them. -/
theorem append (h : Occupies values i a n) (more : List α) : Occupies (values ++ more) i a n := by
  have hi : i < values.length := (List.getElem?_eq_some_iff.mp h.value).1
  have htake : (values ++ more).take i = values.take i :=
    List.take_append_of_le_length (Nat.le_of_lt hi)
  exact ⟨by rw [List.getElem?_append_left hi, h.value], by rw [htake]; exact h.start_le,
    by rw [htake]; exact h.lt_end⟩

/-- The list as the values before the one that a word belongs to, this value, and those behind
it. -/
theorem exists_append (h : Occupies values i a n) : ∃ front back, values = front ++ a :: back
    ∧ wordCount front ≤ n ∧ n < wordCount front + width a := by
  obtain ⟨hi, rfl⟩ := List.getElem?_eq_some_iff.mp h.value
  refine ⟨values.take i, values.drop (i + 1), ?_, h.start_le, h.lt_end⟩
  rw [List.getElem_cons_drop, List.take_append_drop]

end Occupies

/-! ## Word sequences

A sequence has its newest entry first and computes where a new one starts from the entry before it.
The proofs go by `pushInduction`, which hides both: an entry is added at the end, behind the words
that there are. -/

namespace WordSeq

/-- Every sequence is built by adding values at the end. -/
@[elab_as_elim]
theorem pushInduction {motive : WordSeq α → Prop} (empty : motive empty)
    (push : ∀ s a, motive s → motive (s.push a)) (s : WordSeq α) : motive s := by
  obtain ⟨slots, laid⟩ := s
  induction slots with
  | nil => exact empty
  | cons slot older ih =>
    obtain ⟨offset, a⟩ := slot
    obtain ⟨rfl, laid⟩ := laid
    exact push ⟨older, laid⟩ a (ih laid)

theorem slots_push (s : WordSeq α) (a : α) : (s.push a).slots = (s.words, a) :: s.slots := rfl

@[simp] theorem words_push (s : WordSeq α) (a : α) : (s.push a).words = s.words + width a := rfl

/-- The end of the newest entry is the number of words of all of them. -/
theorem words_eq_wordCount (s : WordSeq α) : s.words = wordCount s.toList := by
  induction s using pushInduction with
  | empty => rfl
  | push s a ih => rw [words_push, toList_push, wordCount_append, ih]; simp

@[simp] theorem words_ofList (values : List α) : (ofList values).words = wordCount values := by
  rw [words_eq_wordCount, toList_ofList]

@[simp] theorem length_slots (s : WordSeq α) : s.slots.length = s.toList.length := by
  simp [toList]

/-- Each value is stored with the number of words before it. -/
theorem getElem?_stored (s : WordSeq α) (i : Nat) :
    s.slots.reverse[i]? = s.toList[i]?.map fun a => (wordCount (s.toList.take i), a) := by
  induction s using pushInduction with
  | empty => rfl
  | push s a ih =>
    rw [slots_push, toList_push, List.reverse_cons]
    -- an index before the newest entry, its own index, or one past the end
    rcases Nat.lt_trichotomy i s.toList.length with hlt | rfl | hgt
    · rw [List.getElem?_append_left (by simpa using hlt), List.getElem?_append_left hlt,
        List.take_append_of_le_length (Nat.le_of_lt hlt)]
      exact ih
    · rw [List.getElem?_append_right (by simp), List.getElem?_append_right (Nat.le_refl _),
        List.take_left, ← words_eq_wordCount]
      simp
    · rw [List.getElem?_eq_none (by simp; omega), List.getElem?_eq_none (by simp; omega)]
      rfl

/-- An entry found by its index comes with its value and the number of words before it. -/
theorem get?_eq (s : WordSeq α) (i : Nat) :
    s.get? i = s.toList[i]?.map fun a => (wordCount (s.toList.take i), a) := by
  rw [← getElem?_stored, get?]
  by_cases hi : i < s.size
  · rw [if_pos hi, List.getElem?_reverse hi]
    rfl
  · rw [if_neg hi, List.getElem?_eq_none]
    rw [List.length_reverse]
    exact Nat.le_of_not_lt hi

theorem startingBy_push (s : WordSeq α) (a : α) (n : Nat) :
    startingBy n (s.push a).slots
      = if s.words ≤ n then some (s.toList.length, s.words, a) else startingBy n s.slots := by
  rw [slots_push, startingBy, length_slots]

/-- The search from the last entry on ends at the value that the word belongs to. -/
theorem startingBy_spec (s : WordSeq α) (hn : n < s.words) :
    ∃ i a, Occupies s.toList i a n
      ∧ startingBy n s.slots = some (i, wordCount (s.toList.take i), a) := by
  induction s using pushInduction with
  | empty => exact absurd hn (Nat.not_lt_zero n)
  | push s a ih =>
    rw [startingBy_push, toList_push]
    -- either the newest entry starts at or before the word, or the search goes on below it
    by_cases hle : s.words ≤ n
    · have htake : (s.toList ++ [a]).take s.toList.length = s.toList := List.take_left
      rw [if_pos hle]
      refine ⟨s.toList.length, a, ⟨List.getElem?_concat_length, ?_, ?_⟩, ?_⟩ <;>
        rw [htake, ← words_eq_wordCount]
      · exact hle
      · exact hn
    · rw [if_neg hle]
      obtain ⟨i, b, hocc, hfind⟩ := ih (Nat.lt_of_not_le hle)
      have hi : i < s.toList.length := (List.getElem?_eq_some_iff.mp hocc.value).1
      refine ⟨i, b, hocc.append [a], ?_⟩
      rw [hfind, List.take_append_of_le_length (Nat.le_of_lt hi)]

variable {s : WordSeq α}

/-- Every word of a sequence belongs to a value. -/
theorem words_le_or_occupied (s : WordSeq α) (n : Nat) :
    s.words ≤ n ∨ ∃ i a, Occupies s.toList i a n := by
  rcases Nat.lt_or_ge n s.words with hlt | hge
  · obtain ⟨i, a, hocc, -⟩ := startingBy_spec s hlt
    exact Or.inr ⟨i, a, hocc⟩
  · exact Or.inl hge

/-- Every word of a list belongs to one of its values, since the list may be laid out as a
sequence. -/
theorem exists_occupies (hn : n < wordCount values) : ∃ i a, Occupies values i a n := by
  have hocc := words_le_or_occupied (ofList values) n
  rw [words_ofList, toList_ofList] at hocc
  exact hocc.resolve_left (Nat.not_le_of_lt hn)

/-- A word that belongs to an entry is not past the end of the sequence. -/
theorem lt_words (h : Occupies s.toList i a n) : n < s.words := by
  rw [words_eq_wordCount]
  exact h.lt_wordCount

/-- Since a word belongs to one value only, the search ends at that value. -/
theorem startingBy_of_occupies (h : Occupies s.toList i a n) :
    startingBy n s.slots = some (i, wordCount (s.toList.take i), a) := by
  obtain ⟨j, b, hocc, hfind⟩ := startingBy_spec s (lt_words h)
  obtain ⟨rfl, rfl⟩ := hocc.unique h
  exact hfind

theorem lookup_of_words_le (h : s.words ≤ n) : s.lookup n = .pastEnd := if_pos h

/-- Looking up a word gives the entry that it belongs to, and tells whether it is the first word of
it. -/
theorem lookup_of_occupies (h : Occupies s.toList i a n) :
    s.lookup n = if wordCount (s.toList.take i) = n then .found i a else .inside i := by
  rw [lookup, if_neg (Nat.not_le_of_lt (lt_words h)), startingBy_of_occupies h]

theorem covering?_of_words_le (h : s.words ≤ n) : s.covering? n = none := if_pos h

/-- The entry that covers a word is found also by the later words of it. -/
theorem covering?_of_occupies (h : Occupies s.toList i a n) :
    s.covering? n = some (i, wordCount (s.toList.take i)) := by
  rw [covering?, if_neg (Nat.not_le_of_lt (lt_words h)), startingBy_of_occupies h]
  rfl

/-- A word is past the end only if it is not one of the words of the sequence. -/
theorem lookup_eq_pastEnd_iff : s.lookup n = .pastEnd ↔ s.words ≤ n := by
  refine ⟨fun h => ?_, lookup_of_words_le⟩
  rcases words_le_or_occupied s n with hend | ⟨i, a, hocc⟩
  · exact hend
  · rw [lookup_of_occupies hocc] at h
    split at h <;> cases h

/-- An entry is found at the first word of the value it holds. Without a condition on widths it has
to be said that this value takes a word at all. -/
theorem lookup_eq_found_iff_occupies :
    s.lookup n = .found i a ↔ Occupies s.toList i a n ∧ wordCount (s.toList.take i) = n := by
  constructor
  · intro h
    rcases words_le_or_occupied s n with hend | ⟨j, b, hocc⟩
    · -- past the end nothing is found
      rw [lookup_of_words_le hend] at h
      cases h
    · rw [lookup_of_occupies hocc] at h
      split at h
      next hstart =>
        cases h
        exact ⟨hocc, hstart⟩
      next => cases h
  · rintro ⟨hocc, hstart⟩
    rw [lookup_of_occupies hocc, if_pos hstart]

/-- If every value takes a word at least, one is found exactly at its start. -/
theorem lookup_eq_found_iff_getElem? (hpos : ∀ a ∈ s.toList, 0 < width a) :
    s.lookup n = .found i a ↔ s.toList[i]? = some a ∧ wordCount (s.toList.take i) = n := by
  rw [lookup_eq_found_iff_occupies]
  constructor
  · rintro ⟨hocc, hstart⟩
    exact ⟨hocc.value, hstart⟩
  · rintro ⟨hvalue, rfl⟩
    exact ⟨.at_start hvalue (hpos a (List.mem_of_getElem? hvalue)), rfl⟩

/-- A word is inside of an entry if it belongs to its value but is not the first one. -/
theorem lookup_eq_inside_iff :
    s.lookup n = .inside i ↔ ∃ a, Occupies s.toList i a n ∧ wordCount (s.toList.take i) ≠ n := by
  constructor
  · intro h
    rcases words_le_or_occupied s n with hend | ⟨j, b, hocc⟩
    · rw [lookup_of_words_le hend] at h
      cases h
    · rw [lookup_of_occupies hocc] at h
      split at h
      next => cases h
      next hstart =>
        cases h
        exact ⟨b, hocc, hstart⟩
  · rintro ⟨a, hocc, hstart⟩
    rw [lookup_of_occupies hocc, if_neg hstart]

/-- No entry covers a word only if the sequence ends before it. -/
theorem covering?_eq_none_iff : s.covering? n = none ↔ s.words ≤ n := by
  refine ⟨fun h => ?_, covering?_of_words_le⟩
  rcases words_le_or_occupied s n with hend | ⟨i, a, hocc⟩
  · exact hend
  · rw [covering?_of_occupies hocc] at h
    cases h

/-- An entry that covers a word is given with its index and its start. -/
theorem covering?_eq_some_iff {start : Nat} :
    s.covering? n = some (i, start)
      ↔ ∃ a, Occupies s.toList i a n ∧ wordCount (s.toList.take i) = start := by
  constructor
  · intro h
    rcases words_le_or_occupied s n with hend | ⟨j, b, hocc⟩
    · rw [covering?_of_words_le hend] at h
      cases h
    · rw [covering?_of_occupies hocc] at h
      cases h
      exact ⟨b, hocc, rfl⟩
  · rintro ⟨a, hocc, rfl⟩
    exact covering?_of_occupies hocc

end WordSeq

end JvmFrames

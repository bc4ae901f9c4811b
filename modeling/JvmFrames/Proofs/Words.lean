import JvmFrames.Frame.Merge
import JvmFrames.Proofs.WordLayout

/-!
# Words of a list of values

A list of values is laid out word after word. `valueAt?` is the value that starts at a word, read
off the list alone: the one with that many words before it (`valueAt?_eq_some_iff`). Looking up in a
word sequence finds exactly that (`lookup_eq_found_iff`), and so does loading a local
(`Frame.load_eq_ok_iff`). The values cover the words without gap or overlap (`WordSeq.tiled`). The
cells of a list are the same view with one item per word (`Cell.getElem?_ofValues_eq_first_iff`).
-/

namespace JvmFrames

/-! ## Widths

All that these proofs know of a width is that it is one or two. -/

/-- Only `long` and `double` take two words. -/
theorem width_eq_one_or_two (v : VType) : width v = 1 ∨ width v = 2 := by
  cases v with
  | double => exact Or.inr rfl
  | long => exact Or.inr rfl
  | top => exact Or.inl rfl
  | integer => exact Or.inl rfl
  | float => exact Or.inl rfl
  | null => exact Or.inl rfl
  | uninitializedThis => exact Or.inl rfl
  | object t => exact Or.inl rfl
  | uninitialized u => exact Or.inl rfl

/-- Every value takes a word at least, so no two of them start at one word. -/
theorem width_pos (v : VType) : 0 < width v := by
  rcases width_eq_one_or_two v with h | h <;> omega

/-- An unusable value takes one word, so padding by words is padding by values. -/
@[simp] theorem wordCount_replicate_top (n : Nat) :
    wordCount (List.replicate n VerificationType.top : List VType) = n := by
  induction n with
  | zero => rfl
  | succ n ih =>
    rw [List.replicate_succ, wordCount_cons, ih]
    show 1 + n = n + 1
    omega

theorem wordCount_map {change : VType → VType} (hwidth : ∀ v, width (change v) = width v)
    (values : List VType) : wordCount (values.map change) = wordCount values :=
  wordCount_map_of_width fun v _ => hwidth v

/-- Every value takes a word at least. -/
theorem length_le_wordCount (values : List VType) : values.length ≤ wordCount values := by
  induction values with
  | nil => exact Nat.le_refl 0
  | cons v rest ih =>
    have hpos := width_pos v
    rw [List.length_cons, wordCount_cons]
    omega

/-! ## The value that starts at a word

The value is read off the list alone, from the front. This is the view that statements about locals
are made in: an index may change when a store splits or joins entries, a word does not. -/

/-- The value of a list that starts at a word, counted from the start of the list. -/
def valueAt? : List VType → Nat → Option VType
  | [], _ => none
  | v :: rest, n =>
    if n = 0 then some v
    else if n < width v then none
    else valueAt? rest (n - width v)

/-- A word of the first list is looked up there, any other one in the second list, behind the words
of the first. -/
theorem valueAt?_append (a b : List VType) (n : Nat) :
    valueAt? (a ++ b) n
      = if n < wordCount a then valueAt? a n else valueAt? b (n - wordCount a) := by
  induction a generalizing n with
  | nil => simp
  | cons v rest ih =>
    have hpos := width_pos v
    rw [List.cons_append, valueAt?, valueAt?, wordCount_cons, ih]
    by_cases hzero : n = 0
    · rw [if_pos hzero, if_pos (by omega), if_pos hzero]
    · -- a word of the first value, where only its start has a value, or one of the rest
      by_cases hhead : n < width v
      · rw [if_neg hzero, if_pos hhead, if_pos (by omega), if_neg hzero, if_pos hhead]
      · rw [if_neg hzero, if_neg hhead, if_neg hzero, if_neg hhead]
        by_cases hrest : n - width v < wordCount rest
        · rw [if_pos hrest, if_pos (by omega)]
        · rw [if_neg hrest, if_neg (by omega), Nat.sub_add_eq]

/-- The value at a word is the one with that many words before it. -/
theorem valueAt?_eq_some_iff {values : List VType} {n : Nat} {v : VType} :
    valueAt? values n = some v ↔ ∃ i, values[i]? = some v ∧ wordCount (values.take i) = n := by
  induction values generalizing n with
  | nil => simp [valueAt?]
  | cons w rest ih =>
    have hpos := width_pos w
    rw [valueAt?]
    constructor
    · intro h
      split at h
      next hzero => exact ⟨0, h, hzero.symm⟩
      next hzero =>
        split at h
        -- a word inside of the first value has no value of its own
        next => cases h
        next hhead =>
          obtain ⟨i, hi, hstart⟩ := ih.mp h
          refine ⟨i + 1, hi, ?_⟩
          rw [List.take_succ_cons, wordCount_cons]
          omega
    · rintro ⟨i, hi, hstart⟩
      cases i with
      | zero => rw [if_pos (show n = 0 from hstart.symm)]; exact hi
      | succ i =>
        rw [List.take_succ_cons, wordCount_cons] at hstart
        rw [if_neg (by omega), if_neg (by omega), ih]
        exact ⟨i, hi, by omega⟩

/-- A value that starts somewhere ends inside the list. -/
theorem add_width_le_of_valueAt? {values : List VType} {n : Nat} {v : VType}
    (h : valueAt? values n = some v) : n + width v ≤ wordCount values := by
  obtain ⟨i, hi, rfl⟩ := valueAt?_eq_some_iff.mp h
  rw [← wordCount_take_succ hi]
  exact wordCount_take_le values (i + 1)

/-- Of two values of a list, the first ends before the second starts. -/
theorem add_width_le_of_lt {values : List VType} {m n : Nat} {v w : VType}
    (hv : valueAt? values m = some v) (hw : valueAt? values n = some w) (hlt : m < n) :
    m + width v ≤ n := by
  obtain ⟨i, hi, rfl⟩ := valueAt?_eq_some_iff.mp hv
  obtain ⟨j, -, rfl⟩ := valueAt?_eq_some_iff.mp hw
  have hij : i < j := Nat.lt_of_not_le fun hle =>
    absurd (wordCount_take_mono values hle) (Nat.not_le_of_lt hlt)
  rw [← wordCount_take_succ hi]
  exact wordCount_take_mono values hij

/-- Every word of a list belongs to a value. -/
theorem exists_valueAt?_covering {values : List VType} {n : Nat} (hn : n < wordCount values) :
    ∃ m v, valueAt? values m = some v ∧ m ≤ n ∧ n < m + width v := by
  obtain ⟨i, v, hocc⟩ := WordSeq.exists_occupies hn
  exact ⟨_, v, valueAt?_eq_some_iff.mpr ⟨i, hocc.value, rfl⟩, hocc.start_le, hocc.lt_end⟩

theorem mem_of_valueAt? {values : List VType} {n : Nat} {v : VType}
    (h : valueAt? values n = some v) : v ∈ values := by
  obtain ⟨i, hi, -⟩ := valueAt?_eq_some_iff.mp h
  exact List.mem_of_getElem? hi

/-- Values replaced by others of the same width start where they did. -/
theorem valueAt?_map {change : VType → VType} (hwidth : ∀ v, width (change v) = width v)
    (values : List VType) (n : Nat) :
    valueAt? (values.map change) n = (valueAt? values n).map change := by
  induction values generalizing n with
  | nil => rfl
  | cons v rest ih =>
    rw [List.map_cons, valueAt?, valueAt?, hwidth, ih]
    split
    · rfl
    · split <;> rfl

/-! ## Word sequences

A sequence and the list of its values agree on what starts where. So the entries of a sequence cover
its words like tiles (`WordSeq.Tiled`). -/

namespace WordSeq

/-- Looking up finds an entry exactly where a value starts. -/
theorem lookup_eq_found_iff (s : WordSeq VType) {n : Nat} {v : VType} :
    (∃ i, s.lookup n = .found i v) ↔ valueAt? s.toList n = some v := by
  simp only [valueAt?_eq_some_iff, lookup_eq_found_iff_getElem? fun v _ => width_pos v]

/-- An entry with this value starts at a word. -/
def StartsAt (s : WordSeq VType) (n : Nat) (v : VType) : Prop := ∃ i, s.lookup n = .found i v

/-- What starts at a word of a sequence is what starts there in the list of its values. -/
theorem startsAt_iff {s : WordSeq VType} {n : Nat} {v : VType} :
    s.StartsAt n v ↔ valueAt? s.toList n = some v :=
  lookup_eq_found_iff s

/-- The entries cover the words of a sequence, each of them one or two, without gap or overlap. -/
structure Tiled (s : WordSeq VType) : Prop where
  widths : ∀ n v, s.StartsAt n v → width v = 1 ∨ width v = 2
  ends : ∀ n v, s.StartsAt n v → n + width v ≤ s.words
  apart : ∀ m n v w, s.StartsAt m v → s.StartsAt n w → m < n → m + width v ≤ n
  covered : ∀ n < s.words, ∃ m v, s.StartsAt m v ∧ m ≤ n ∧ n < m + width v

/-- The four facts are those about lists, said of the sequence. -/
theorem tiled (s : WordSeq VType) : s.Tiled where
  widths _ v _ := width_eq_one_or_two v
  ends _ _ hv := by
    rw [words_eq_wordCount]
    exact add_width_le_of_valueAt? (startsAt_iff.mp hv)
  apart _ _ _ _ hv hw hlt := add_width_le_of_lt (startsAt_iff.mp hv) (startsAt_iff.mp hw) hlt
  covered n hn := by
    rw [words_eq_wordCount] at hn
    obtain ⟨m, v, hv, hcover⟩ := exists_valueAt?_covering hn
    exact ⟨m, v, startsAt_iff.mpr hv, hcover⟩

end WordSeq

/-- A local can be loaded exactly if a usable value starts at its slot. -/
theorem Frame.load_eq_ok_iff (f : Frame) (slot : UInt16) (v : VType) :
    f.load slot = .ok v ↔ valueAt? f.locals.toList slot.toNat = some v ∧ v ≠ .top := by
  rw [← WordSeq.lookup_eq_found_iff, load]
  cases hlookup : f.locals.lookup slot.toNat with
  | pastEnd => simp
  | inside i => simp
  | found i w => cases w <;> simp <;> rintro rfl <;> simp

/-! ## Cells

A cell is one word of a list of values, with the value it belongs to and which half it is. Merging
of locals goes by cells, so their number and their order have to fit the words. -/

namespace Cell

theorem ofValues_cons (v : VType) (rest : List VType) :
    ofValues (v :: rest) = ofValue v ++ ofValues rest := rfl

theorem ofValue_of_narrow {v : VType} (h : width v = 1) : ofValue v = [.first v] := by
  rw [ofValue, if_neg (by omega)]

/-- A wide value has two cells, and the second one starts nothing. -/
theorem ofValue_of_wide {v : VType} (h : width v = 2) : ofValue v = [.first v, .second v] := by
  rw [ofValue, if_pos h]

theorem length_ofValue (v : VType) : (ofValue v).length = width v := by
  rcases width_eq_one_or_two v with h | h
  · rw [ofValue_of_narrow h, h]; rfl
  · rw [ofValue_of_wide h, h]; rfl

theorem length_ofValues (values : List VType) : (ofValues values).length = wordCount values := by
  induction values with
  | nil => rfl
  | cons v rest ih =>
    rw [ofValues_cons, List.length_append, length_ofValue, ih, wordCount_cons]

/-- A word is the first of a value exactly if the value starts there. -/
theorem getElem?_ofValues_eq_first_iff (values : List VType) (n : Nat) (v : VType) :
    (ofValues values)[n]? = some (.first v) ↔ valueAt? values n = some v := by
  induction values generalizing n with
  | nil => simp [ofValues, valueAt?]
  | cons w rest ih =>
    rw [ofValues_cons, valueAt?]
    by_cases hhead : n < width w
    · rw [List.getElem?_append_left (by rw [length_ofValue]; exact hhead)]
      rcases width_eq_one_or_two w with hw | hw
      · have hzero : n = 0 := by omega
        rw [ofValue_of_narrow hw, if_pos hzero, hzero]
        simp
      · rw [ofValue_of_wide hw]
        by_cases hzero : n = 0
        · rw [if_pos hzero, hzero]
          simp
        · -- the second word of a wide value, where nothing starts
          have hone : n = 1 := by omega
          rw [if_neg hzero, if_pos hhead, hone]
          simp
    · have hpos := width_pos w
      rw [List.getElem?_append_right (by rw [length_ofValue]; omega), length_ofValue, ih,
        if_neg (by omega), if_neg hhead]

end Cell

end JvmFrames

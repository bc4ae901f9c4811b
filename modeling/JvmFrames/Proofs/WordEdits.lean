import JvmFrames.Proofs.WordBuffer

/-!
# Edited word sequences

A word sequence that is edited at will has the values that the same edits give to a plain list
(`WordSeq.run_of_allowed`). It stores each of them with the number of words before it
(`WordSeq.Stores`), and it looks every word up as the list has it (`WordSeq.Finds`). A buffer that
keeps its starts and its total up to date by hand is the buffer of that sequence, edit by edit
(`WordSeq.applyBuffer_of_allowed`).

The starts of the entries are in order, so they can be searched by halves as well. Such a search
ends at the entry that starts at a word, or behind the entry that the word is inside of
(`WordSeq.lookup_of_search_gap`): there always is one.
-/

namespace JvmFrames

/-! ## Searching by halves

The keys are looked up in an array. The window between `low` and `high` gets smaller with every
step, and all keys before it are below the one that is searched for, all keys behind it above. -/

/-- What a search among ordered keys ends with. -/
inductive Bisection where
  /-- The key stands at this index. -/
  | hit (index : Nat)
  /-- The key is missing. It would come before the key with this index. -/
  | gap (after : Nat)

/-- Search for a key among those from `low` up to `high`. -/
def bisect (keys : Array Nat) (key low high : Nat) (hhigh : high ≤ keys.size) : Bisection :=
  if h : low < high then
    let middle := low + (high - low) / 2
    have hmiddle : middle < keys.size := by omega
    if keys[middle] = key then .hit middle
    else if keys[middle] < key then bisect keys key (middle + 1) high hhigh
    else bisect keys key low middle (by omega)
  else .gap low
termination_by high - low

/-- The result of a search is right: the key is there, or it lies between those around the gap. -/
def Bisection.Fits (keys : Array Nat) (key : Nat) : Bisection → Prop
  | .hit index => keys[index]? = some key
  | .gap after => after ≤ keys.size
      ∧ ∀ i k, keys[i]? = some k → (i < after → k < key) ∧ (after ≤ i → key < k)

/-- The search is right if the keys are in order, whatever the window, as long as what lies outside
of it is out of the question. -/
theorem bisect_fits {keys : Array Nat} {key low high : Nat} (hhigh : high ≤ keys.size)
    (hordered : ∀ i j x y : Nat, keys[i]? = some x → keys[j]? = some y → i ≤ j → x ≤ y)
    (hlow : low ≤ high) (hbelow : ∀ i k, keys[i]? = some k → i < low → k < key)
    (habove : ∀ i k, keys[i]? = some k → high ≤ i → key < k) :
    (bisect keys key low high hhigh).Fits keys key := by
  fun_induction bisect keys key low high hhigh with
  | case1 low high hhigh h middle hmiddle heq =>
    show keys[middle]? = some key
    rw [Array.getElem?_eq_getElem hmiddle, heq]
  | case2 low high hhigh h middle hmiddle hne hlt ih =>
    -- the key in the middle is too low, and so are all before it
    refine ih (by omega) (fun i k hk hi => ?_) habove
    have hle := hordered i middle k _ hk (Array.getElem?_eq_getElem hmiddle) (by omega)
    omega
  | case3 low high hhigh h middle hmiddle hne hnlt ih =>
    -- the key in the middle is too high, and so are all behind it
    refine ih (by omega) hbelow fun i k hk hi => ?_
    have hle := hordered middle i _ k (Array.getElem?_eq_getElem hmiddle) hk hi
    omega
  | case4 low high hhigh h =>
    -- the window is empty: all keys are below or above
    obtain rfl : low = high := by omega
    exact ⟨hhigh, fun i k hk => ⟨hbelow i k hk, habove i k hk⟩⟩

namespace WordSeq

variable {α : Type} [Width α]

/-- The words that the entries are stored to start at, first to last. -/
def starts (s : WordSeq α) : Array Nat := (s.slots.reverse.map (·.1)).toArray

/-- Search by halves for the entry that starts at a word. -/
def search (s : WordSeq α) (n : Nat) : Bisection :=
  bisect s.starts n 0 s.starts.size (Nat.le_refl _)

variable {s : WordSeq α} {i n : Nat}

theorem getElem?_starts (s : WordSeq α) (i : Nat) :
    s.starts[i]? = s.toList[i]?.map fun _ => wordCount (s.toList.take i) := by
  rw [starts, List.getElem?_toArray, List.getElem?_map, getElem?_stored, Option.map_map]
  rfl

/-- A start that is stored belongs to a value with that many words before it. -/
theorem getElem?_starts_eq_some_iff {start : Nat} :
    s.starts[i]? = some start
      ↔ ∃ a, s.toList[i]? = some a ∧ wordCount (s.toList.take i) = start := by
  rw [getElem?_starts, Option.map_eq_some_iff]

/-- The starts are in order, and the search begins with all of them, so it ends with the right
result. -/
theorem search_fits (s : WordSeq α) (n : Nat) : (s.search n).Fits s.starts n := by
  refine bisect_fits _ (fun i j x y hx hy hij => ?_) (Nat.zero_le _) ?_ ?_
  · obtain ⟨a, -, rfl⟩ := getElem?_starts_eq_some_iff.mp hx
    obtain ⟨b, -, rfl⟩ := getElem?_starts_eq_some_iff.mp hy
    exact wordCount_take_mono s.toList hij
  · exact fun i k _ hi => absurd hi (Nat.not_lt_zero i)
  · intro i k hk hi
    rw [Array.getElem?_eq_none hi] at hk
    cases hk

/-- What the search hits is what is looked up. -/
theorem lookup_of_search_hit (hpos : ∀ a ∈ s.toList, 0 < width a) (h : s.search n = .hit i) :
    ∃ a, s.lookup n = .found i a := by
  have hfits := search_fits s n
  rw [h] at hfits
  obtain ⟨a, ha⟩ := getElem?_starts_eq_some_iff.mp hfits
  exact ⟨a, (lookup_eq_found_iff_getElem? hpos).mpr ha⟩

/-- A word of the sequence that no entry starts at is inside of the entry before the gap. In
particular there is an entry before it. -/
theorem lookup_of_search_gap {after : Nat} (hn : n < s.words) (h : s.search n = .gap after) :
    0 < after ∧ s.lookup n = .inside (after - 1) := by
  have hfits := search_fits s n
  rw [h] at hfits
  obtain ⟨hafter, hbetween⟩ := hfits
  obtain ⟨i, a, hocc⟩ := (words_le_or_occupied s n).resolve_left (Nat.not_le_of_lt hn)
  have hstart := hbetween i _ (getElem?_starts_eq_some_iff.mpr ⟨a, hocc.value, rfl⟩)
  have hstart_le := hocc.start_le
  have hi : i < after := Nat.lt_of_not_le fun hle => by
    have hlt := hstart.2 hle
    omega
  -- the next entry, if there is one, starts beyond the word
  have hlast : after ≤ i + 1 := Nat.le_of_not_lt fun hlt => by
    have hnext := Array.getElem?_eq_getElem (show i + 1 < s.starts.size by omega)
    obtain ⟨b, -, hend⟩ := getElem?_starts_eq_some_iff.mp hnext
    rw [wordCount_take_succ hocc.value] at hend
    have hbelow := (hbetween (i + 1) _ hnext).1 hlt
    have hlt_end := hocc.lt_end
    omega
  obtain rfl : after = i + 1 := Nat.le_antisymm hlast hi
  refine ⟨Nat.succ_pos i, lookup_eq_inside_iff.mpr ⟨a, hocc, ?_⟩⟩
  exact Nat.ne_of_lt (hstart.1 hi)

/-! ## Values in place

Replacing values lays a sequence out anew. If the widths are the same, nothing moves. -/

/-- Replacing values is seen in the list of values as replacing them there. -/
@[simp] theorem toList_map (f : α → α) (s : WordSeq α) : (s.map f).toList = s.toList.map f :=
  toList_ofList _

/-- If no width changes, all entries stay where they are. -/
theorem slots_map_of_width {f : α → α} (hwidth : ∀ a ∈ s.toList, width (f a) = width a) :
    (s.map f).slots = s.slots.map (Prod.map id f) := by
  induction s using pushInduction with
  | empty => rfl
  | push s a ih =>
    have hpush : (s.push a).map f = (s.map f).push (f a) := ext_toList (by simp)
    have hold : ∀ b ∈ s.toList, width (f b) = width b := fun b hb => hwidth b (by simp [hb])
    have hwords : (s.map f).words = s.words := by
      rw [words_eq_wordCount, words_eq_wordCount, toList_map, wordCount_map_of_width hold]
    rw [hpush, slots_push, slots_push, ih hold, hwords]
    rfl

/-! ## Edits

An edit is what may be done to a sequence from outside. It acts on sequences (`Edit.apply`), on
buffers (`Edit.applyBuffer`) and on plain lists (`Edit.onList`). One step relates the three
(`apply_of_allowed`, `applyBuffer_of_allowed`), and a run relates them by induction on the edits
(`run_of_allowed`). -/

/-- One change to a sequence. -/
inductive Edit (α : Type) where
  | push (a : α)
  | pop
  | clear
  | extend (as : List α)
  | splice (start stop : Nat) (replacement : List α)
  /-- Every value replaced where it stands, first to last, with a state carried along. -/
  | inPlace {σ : Type} (update : σ → α → α × σ) (state : σ)

namespace Edit

/-- The sequence with a change made. -/
def apply (s : WordSeq α) : Edit α → Option (WordSeq α)
  | .push a => some (s.push a)
  | .pop => some ((s.pop?.map (·.2)).getD s)
  | .clear => some empty
  | .extend as => some (s.extend as)
  | .splice start stop replacement => s.splice? start stop replacement
  | .inPlace update state => some (s.inPlace update state)

/-- The buffer with a change made. -/
def applyBuffer (b : WordBuffer α) : Edit α → Option (WordBuffer α)
  | .push a => some (b.push a)
  | .pop => some ((b.pop?.map (·.2)).getD b)
  | .clear => some .empty
  | .extend as => some (b.extend as)
  | .splice start stop replacement => b.splice? start stop replacement
  | .inPlace update state => some (b.inPlace update state)

/-- The same change to a plain list. -/
def onList (values : List α) : Edit α → List α
  | .push a => values ++ [a]
  | .pop => values.dropLast
  | .clear => []
  | .extend as => values ++ as
  | .splice start stop replacement => values.take start ++ replacement ++ values.drop stop
  | .inPlace update state => sweep update state values

/-- A change that may be made to these values: a value that comes in takes a word at least, a range
starts inside the values, and replacing values in place keeps their widths. -/
def Allowed (values : List α) : Edit α → Prop
  | .push a => 0 < width a
  | .pop => True
  | .clear => True
  | .extend as => ∀ a ∈ as, 0 < width a
  | .splice start stop replacement =>
    (start ≤ stop ∧ start ≤ values.length) ∧ ∀ a ∈ replacement, 0 < width a
  | .inPlace update state => (sweep update state values).map width = values.map width

instance (values : List α) : (e : Edit α) → Decidable (e.Allowed values)
  | .push a => inferInstanceAs (Decidable (0 < width a))
  | .pop => inferInstanceAs (Decidable True)
  | .clear => inferInstanceAs (Decidable True)
  | .extend as => inferInstanceAs (Decidable (∀ a ∈ as, 0 < width a))
  | .splice start stop replacement => inferInstanceAs (Decidable
      ((start ≤ stop ∧ start ≤ values.length) ∧ ∀ a ∈ replacement, 0 < width a))
  | .inPlace update state => inferInstanceAs (Decidable
      ((sweep update state values).map width = values.map width))

/-- Each change may be made to what those before it leave. -/
def AllAllowed : List α → List (Edit α) → Prop
  | _, [] => True
  | values, e :: rest => e.Allowed values ∧ AllAllowed (e.onList values) rest

instance decidableAllAllowed : (values : List α) → (edits : List (Edit α)) →
    Decidable (AllAllowed values edits)
  | _, [] => inferInstanceAs (Decidable True)
  | values, e :: rest =>
    haveI := decidableAllAllowed (e.onList values) rest
    inferInstanceAs (Decidable (e.Allowed values ∧ AllAllowed (e.onList values) rest))

end Edit

/-- The sequence after some changes. -/
def run (edits : List (Edit α)) (s : WordSeq α) : Option (WordSeq α) := edits.foldlM Edit.apply s

/-- The buffer after some changes. -/
def runBuffer (edits : List (Edit α)) (b : WordBuffer α) : Option (WordBuffer α) :=
  edits.foldlM Edit.applyBuffer b

theorem toList_take (s : WordSeq α) (k : Nat) : (s.take k).toList = s.toList.take k := by
  rw [take, toList, toList, List.take_reverse, List.map_drop, List.length_map]
  rfl

/-- Removing the last entry removes the last value; nothing is removed if there is none. -/
theorem toList_pop (s : WordSeq α) : ((s.pop?.map (·.2)).getD s).toList = s.toList.dropLast := by
  cases s using pushInduction with
  | empty => rfl
  | push s a =>
    rw [toList_push, List.dropLast_concat]
    rfl

/-- A splice whose range starts inside the sequence is possible, and replaces that range of the
values. -/
theorem splice?_of_le {start stop : Nat} (hrange : start ≤ stop) (hstart : start ≤ s.toList.length)
    (replacement : List α) :
    ∃ t, s.splice? start stop replacement = some t
      ∧ t.toList = s.toList.take start ++ replacement ++ s.toList.drop stop := by
  refine ⟨_, if_pos (by rw [size, length_slots]; exact hstart), ?_⟩
  rw [toList_extend, toList_extend, toList_take, Nat.max_eq_right hrange]

/-- A change does to a sequence what it does to its values. -/
theorem apply_of_allowed {e : Edit α} (h : e.Allowed s.toList) :
    ∃ t, e.apply s = some t ∧ t.toList = e.onList s.toList := by
  cases e with
  | push a => exact ⟨_, rfl, toList_push s a⟩
  | pop => exact ⟨_, rfl, toList_pop s⟩
  | clear => exact ⟨_, rfl, toList_empty⟩
  | extend as => exact ⟨_, rfl, toList_extend s as⟩
  | splice start stop replacement => exact splice?_of_le h.1.1 h.1.2 replacement
  | inPlace update state => exact ⟨_, rfl, toList_ofList _⟩

/-- A change does to the buffer of a sequence what it does to the sequence. -/
theorem applyBuffer_of_allowed {e : Edit α} (h : e.Allowed s.toList) :
    e.applyBuffer s.buffer = (e.apply s).map buffer := by
  cases e with
  | push a => exact congrArg some (push_buffer s a)
  | pop =>
    rw [Edit.applyBuffer, pop?_buffer]
    cases hpop : s.pop? <;> simp [Edit.apply, hpop]
  | clear => rfl
  | extend as => exact congrArg some (extend_buffer s as)
  | splice start stop replacement => exact splice?_buffer h.1.1 replacement
  | inPlace update state => exact congrArg some (inPlace_buffer h)

/-- A change brings in no value without words. -/
theorem Edit.Allowed.width_pos {e : Edit α} {values : List α} (h : e.Allowed values)
    (hpos : ∀ a ∈ values, 0 < width a) : ∀ a ∈ e.onList values, 0 < width a := by
  intro a ha
  cases e with
  | push b =>
    rcases List.mem_append.mp ha with hold | hnew
    · exact hpos a hold
    · rw [List.mem_singleton.mp hnew]
      exact h
  | pop => exact hpos a (List.dropLast_subset _ ha)
  | clear => cases ha
  | extend as =>
    rcases List.mem_append.mp ha with hold | hnew
    · exact hpos a hold
    · exact h a hnew
  | splice start stop replacement =>
    rcases List.mem_append.mp ha with hfront | hback
    · rcases List.mem_append.mp hfront with hold | hnew
      · exact hpos a (List.mem_of_mem_take hold)
      · exact h.2 a hnew
    · exact hpos a (List.mem_of_mem_drop hback)
  | inPlace update state =>
    -- the width of a new value is the width of some old one
    have hmem : width a ∈ values.map width := by
      rw [← show (sweep update state values).map width = values.map width from h]
      exact List.mem_map_of_mem ha
    obtain ⟨b, hb, heq⟩ := List.mem_map.mp hmem
    rw [← heq]
    exact hpos b hb

/-- Any changes that may be made can be made. They do to a sequence what they do to its values, and
to its buffer what they do to the sequence. -/
theorem run_of_allowed {edits : List (Edit α)} (h : Edit.AllAllowed s.toList edits)
    (hpos : ∀ a ∈ s.toList, 0 < width a) :
    ∃ t, run edits s = some t ∧ runBuffer edits s.buffer = some t.buffer
      ∧ t.toList = edits.foldl Edit.onList s.toList ∧ ∀ a ∈ t.toList, 0 < width a := by
  induction edits generalizing s with
  | nil => exact ⟨s, rfl, rfl, rfl, hpos⟩
  | cons e rest ih =>
    -- the first edit, and then the others on what it leaves
    obtain ⟨next, happly, hnext⟩ := apply_of_allowed h.1
    have hrest := h.2
    have hpos' := h.1.width_pos hpos
    rw [← hnext] at hrest hpos'
    obtain ⟨t, hrun, hbuffer, ht, htpos⟩ := ih hrest hpos'
    refine ⟨t, ?_, ?_, ?_, htpos⟩
    · rw [run, List.foldlM_cons, happly]
      exact hrun
    · rw [runBuffer, List.foldlM_cons, applyBuffer_of_allowed h.1, happly]
      exact hbuffer
    · rw [ht, hnext]
      rfl

/-! ## What is stored and found

Both are stated against a list of values, so that they can be said of the list that the edits give.
-/

/-- A sequence stores these values, each with the number of words before it. -/
structure Stores (s : WordSeq α) (values : List α) : Prop where
  toList : s.toList = values
  entry : ∀ i, s.get? i = values[i]?.map fun a => (wordCount (values.take i), a)
  entries : ∀ i, s.entries[i]? = values[i]?.map fun a => (wordCount (values.take i), i, a)
  words : s.words = wordCount values
  /-- The last entry is stored with the words there are without it. -/
  popped : ∀ removed t, s.pop? = some (removed, t) → t.words = removed.1
  /-- Values of the same widths can be put in the place of these. -/
  replaced : ∀ f : α → α, (∀ a ∈ values, width (f a) = width a) →
    (s.map f).slots = s.slots.map (Prod.map id f)

/-- The entries in order are numbered from zero, each with its start. -/
theorem getElem?_entries (s : WordSeq α) (i : Nat) :
    s.entries[i]? = s.toList[i]?.map fun a => (wordCount (s.toList.take i), i, a) := by
  rw [WordSeq.entries, List.getElem?_map, List.getElem?_zipIdx, getElem?_stored]
  cases s.toList[i]? <;> simp

theorem words_of_pop? {removed : Nat × Nat × α} {t : WordSeq α} (h : s.pop? = some (removed, t)) :
    t.words = removed.1 := by
  cases s using pushInduction with
  | empty => cases h
  | push s a => cases h; rfl

/-- A sequence stores its own values. -/
theorem stores_toList (s : WordSeq α) : s.Stores s.toList where
  toList := rfl
  entry := get?_eq s
  entries := getElem?_entries s
  words := words_eq_wordCount s
  popped _ _ := words_of_pop?
  replaced _ := slots_map_of_width

/-- A word is looked up in a sequence as these values have it, also if it is searched for by
halves. -/
structure Finds (s : WordSeq α) (values : List α) (n : Nat) : Prop where
  found : ∀ i a, s.lookup n = .found i a
    ↔ values[i]? = some a ∧ wordCount (values.take i) = n
  inside : ∀ i, s.lookup n = .inside i
    ↔ ∃ a, values[i]? = some a ∧ wordCount (values.take i) < n
        ∧ n < wordCount (values.take i) + width a
  pastEnd : s.lookup n = .pastEnd ↔ s.words ≤ n
  covering : ∀ i start, s.covering? n = some (i, start)
    ↔ ∃ a, values[i]? = some a ∧ wordCount (values.take i) = start
        ∧ start ≤ n ∧ n < start + width a
  uncovered : s.covering? n = none ↔ s.words ≤ n
  hit : ∀ i, s.search n = .hit i → ∃ a, s.lookup n = .found i a
  gap : n < s.words → ∀ after, s.search n = .gap after →
    0 < after ∧ s.lookup n = .inside (after - 1)

/-- A sequence finds each word as its own values have it. -/
theorem finds_toList (hpos : ∀ a ∈ s.toList, 0 < width a) (n : Nat) : s.Finds s.toList n where
  found _ _ := lookup_eq_found_iff_getElem? hpos
  inside i := by
    -- an occurrence at a word is strictly inside exactly if it does not start there
    rw [lookup_eq_inside_iff]
    constructor
    · rintro ⟨a, hocc, hne⟩
      exact ⟨a, hocc.value, Nat.lt_of_le_of_ne hocc.start_le hne, hocc.lt_end⟩
    · rintro ⟨a, hvalue, hstart, hend⟩
      exact ⟨a, ⟨hvalue, Nat.le_of_lt hstart, hend⟩, Nat.ne_of_lt hstart⟩
  pastEnd := lookup_eq_pastEnd_iff
  covering i start := by
    rw [covering?_eq_some_iff]
    constructor
    · rintro ⟨a, hocc, rfl⟩
      exact ⟨a, hocc.value, rfl, hocc.start_le, hocc.lt_end⟩
    · rintro ⟨a, hvalue, rfl, hstart, hend⟩
      exact ⟨a, ⟨hvalue, hstart, hend⟩, rfl⟩
  uncovered := covering?_eq_none_iff
  hit _ := lookup_of_search_hit hpos
  gap hn _ := lookup_of_search_gap hn

/-- After any changes that may be made, a sequence stores the values that the same changes give to a
plain list, each with the number of words before it, and finds every word as the list has it. A
buffer that went through the same changes has the same entries and the same total. -/
theorem edited_stores_and_finds (edits : List (Edit α)) (h : Edit.AllAllowed [] edits) :
    ∃ s, run edits empty = some s ∧ s.Stores (edits.foldl Edit.onList [])
      ∧ (∀ n, s.Finds (edits.foldl Edit.onList []) n)
      ∧ runBuffer edits .empty = some ⟨s.slots.reverse, s.words⟩ := by
  obtain ⟨s, hrun, hbuffer, hvalues, hpos⟩ := run_of_allowed (s := empty) h fun a ha => by cases ha
  rw [toList_empty] at hvalues
  refine ⟨s, hrun, ?_⟩
  rw [← hvalues]
  exact ⟨stores_toList s, finds_toList hpos, hbuffer⟩

/-- Wide and narrow values put at the end, in the middle and in place, and removed again. The last
change replaces a `long` by a `double` the first time it sees one. -/
def reworked : List (Edit VType) :=
  [.push .top, .clear, .extend [.integer, .float, .null], .splice 0 2 [.long, .integer], .pop,
    .splice 1 5 [.long, .null], .push .integer,
    .inPlace (fun replaced v => if v = .long ∧ !replaced then (.double, true) else (v, replaced))
      false]

theorem edited_stores_and_finds_reworked :
    Edit.AllAllowed [] reworked
      ∧ ∃ s, run reworked empty = some s ∧ s.Stores [.double, .long, .null, .integer]
        ∧ (∀ n, s.Finds [.double, .long, .null, .integer] n)
        ∧ runBuffer reworked .empty = some ⟨s.slots.reverse, s.words⟩ :=
  ⟨by decide, edited_stores_and_finds reworked (by decide)⟩

end WordSeq

end JvmFrames

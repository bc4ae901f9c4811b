import JvmFrames.Proofs.WordLayout

/-!
# Word buffers

A word sequence reads its number of words off the newest entry, and lays its values out anew if they
are replaced. A buffer stores the number of words beside the entries and keeps both up to date by
hand: a value put at the end adds its width, removing the last entry goes back to the word it
started at, a splice goes on from the end of the last entry that it leaves alone, and values
replaced in place leave all starts and the total as they were.

Nothing goes out of step that way. Every sequence has its buffer (`WordSeq.buffer`), and each
operation takes the buffer of a sequence to the buffer of the result. For values replaced in place
this holds if no width changes (`WordSeq.inPlace_buffer`), for all else without condition.
-/

namespace JvmFrames

/-- One pass over some values from first to last that replaces each of them. It may carry a state
along from each value to the next. -/
def sweep {σ β : Type} (update : σ → β → β × σ) : σ → List β → List β
  | _, [] => []
  | state, b :: rest => (update state b).1 :: sweep update (update state b).2 rest

/-- Values with the words they start at, first to last, and the number of words. -/
structure WordBuffer (α : Type) where
  entries : List (Nat × α)
  total : Nat

variable {α : Type} [Width α]

namespace WordBuffer

def empty : WordBuffer α := ⟨[], 0⟩

def push (b : WordBuffer α) (a : α) : WordBuffer α :=
  ⟨b.entries ++ [(b.total, a)], b.total + width a⟩

def extend (b : WordBuffer α) (as : List α) : WordBuffer α := as.foldl push b

/-- Without the last entry, which is given with its start and index. Its start is the new total. -/
def pop? (b : WordBuffer α) : Option ((Nat × Nat × α) × WordBuffer α) :=
  b.entries.getLast?.map fun (start, a) =>
    ((start, b.entries.dropLast.length, a), ⟨b.entries.dropLast, start⟩)

/-- The first `n` entries. The total is where the last of them ends. -/
def take (b : WordBuffer α) (n : Nat) : WordBuffer α :=
  let kept := b.entries.take n
  ⟨kept, (kept.getLast?.map fun (start, a) => start + width a).getD 0⟩

/-- With the entries from index `start` up to `stop` replaced. What stands behind them is added
again, so that it starts where it now has to. -/
def splice? (b : WordBuffer α) (start stop : Nat) (replacement : List α) : Option (WordBuffer α) :=
  if start ≤ b.entries.length then
    some (((b.take start).extend replacement).extend
      (((b.entries.drop start).drop (stop - start)).map (·.2)))
  else none

/-- With every value replaced where it stands. -/
def inPlace {σ : Type} (update : σ → α → α × σ) (state : σ) (b : WordBuffer α) : WordBuffer α :=
  let entries := sweep (fun state (start, a) => ((start, (update state a).1), (update state a).2))
    state b.entries
  ⟨entries, b.total⟩

end WordBuffer

namespace WordSeq

/-- With every value replaced, laid out anew. -/
def inPlace {σ : Type} (update : σ → α → α × σ) (state : σ) (s : WordSeq α) : WordSeq α :=
  ofList (sweep update state s.toList)

/-- The buffer that stores a sequence. -/
def buffer (s : WordSeq α) : WordBuffer α := ⟨s.slots.reverse, s.words⟩

variable {s : WordSeq α} {a : α}

/-! ## Changes at the end

A sequence has its newest entry first and a buffer has it last, so these are the equations of
`List.reverse`. -/

@[simp] theorem buffer_empty : (empty : WordSeq α).buffer = .empty := rfl

/-- A value put at the end starts at the total, and the total grows by its width. -/
theorem push_buffer (s : WordSeq α) (a : α) : s.buffer.push a = (s.push a).buffer := by
  rw [buffer, buffer, slots_push, List.reverse_cons]
  rfl

/-- Several values are put at the end one by one. -/
theorem extend_buffer (s : WordSeq α) (as : List α) :
    s.buffer.extend as = (s.extend as).buffer := by
  induction as generalizing s with
  | nil => rfl
  | cons a rest ih =>
    rw [WordBuffer.extend, List.foldl_cons, push_buffer]
    exact ih (s.push a)

/-- The start of the last entry is the number of words without it, so a buffer may go back to it. -/
theorem pop?_buffer (s : WordSeq α) : s.buffer.pop? = s.pop?.map (Prod.map id buffer) := by
  cases s using pushInduction with
  | empty => rfl
  | push s a =>
    have hentries : (s.push a).buffer.entries = s.slots.reverse ++ [(s.words, a)] := by
      rw [← push_buffer]
      rfl
    -- the entry added last is the one that is removed
    rw [WordBuffer.pop?, hentries, List.getLast?_concat, List.dropLast_concat, List.length_reverse]
    rfl

/-! ## Splices

A splice is a cut and two extensions. The cut has to find the new total by itself: it is the end of
the newest entry that is left, which is what a sequence counts as its words. -/

/-- The words of a list of entries end where its last entry in order ends. -/
theorem extent_eq_getLast? (slots : List (Nat × α)) :
    extent slots = (slots.reverse.getLast?.map fun (start, a) => start + width a).getD 0 := by
  rw [List.getLast?_reverse]
  cases slots <;> rfl

/-- Cutting a buffer off finds the total that the sequence has then. -/
theorem take_buffer (s : WordSeq α) (n : Nat) : s.buffer.take n = (s.take n).buffer := by
  have hkept : s.buffer.entries.take n = (s.take n).slots.reverse := List.take_reverse
  rw [WordBuffer.take, hkept, ← extent_eq_getLast?]
  rfl

/-- A splice is possible for both or for neither, and gives the buffer of the spliced sequence. -/
theorem splice?_buffer {start stop : Nat} (hrange : start ≤ stop) (replacement : List α) :
    s.buffer.splice? start stop replacement = (s.splice? start stop replacement).map buffer := by
  have hsize : s.buffer.entries.length = s.size := List.length_reverse
  have htail : ((s.buffer.entries.drop start).drop (stop - start)).map (·.2)
      = s.toList.drop (max start stop) := by
    rw [List.drop_drop, List.map_drop, Nat.add_sub_cancel' hrange, Nat.max_eq_right hrange, buffer,
      List.map_reverse]
    rfl
  rw [WordBuffer.splice?, splice?, hsize, htail, take_buffer, extend_buffer, extend_buffer]
  split <;> rfl

/-! ## Values in place

Where the entries start depends on nothing but the widths of the values. So a buffer that replaces
values by others of the same widths has the starts that laying them out anew would give. -/

/-- The words of a list depend on the widths of its values only. -/
theorem wordCount_eq_of_widths {a b : List α} (h : a.map width = b.map width) :
    wordCount a = wordCount b := by
  induction a generalizing b with
  | nil => rw [List.map_eq_nil_iff.mp h.symm]
  | cons v rest ih =>
    cases b with
    | nil => cases h
    | cons w rest' =>
      rw [List.map_cons, List.map_cons, List.cons.injEq] at h
      rw [wordCount_cons, wordCount_cons, h.1, ih h.2]

/-- Where the entries start depends on the widths of the values only. -/
theorem starts_eq_of_widths {t : WordSeq α} (h : t.toList.map width = s.toList.map width) :
    t.slots.reverse.map (·.1) = s.slots.reverse.map (·.1) := by
  have hlength : t.toList.length = s.toList.length := by
    simpa using congrArg List.length h
  have hwords : ∀ i, wordCount (t.toList.take i) = wordCount (s.toList.take i) := fun i =>
    wordCount_eq_of_widths (by rw [List.map_take, List.map_take, h])
  refine List.ext_getElem? fun i => ?_
  rw [List.getElem?_map, List.getElem?_map, getElem?_stored, getElem?_stored, hwords]
  -- both have as many entries, so an index is there in both or in neither
  rcases Nat.lt_or_ge i s.toList.length with hi | hi
  · rw [List.getElem?_eq_getElem (hlength ▸ hi), List.getElem?_eq_getElem hi]
    rfl
  · rw [List.getElem?_eq_none (hlength ▸ hi), List.getElem?_eq_none hi]

section

variable {σ : Type} (update : σ → α → α × σ) (state : σ)

omit [Width α] in
/-- Replacing values in place leaves all starts alone. -/
theorem map_fst_inPlace (b : WordBuffer α) :
    (b.inPlace update state).entries.map (·.1) = b.entries.map (·.1) := by
  unfold WordBuffer.inPlace
  induction b.entries generalizing state with
  | nil => rfl
  | cons entry rest ih => exact congrArg (entry.1 :: ·) (ih _)

omit [Width α] in
/-- The values are those that one pass over the old ones gives. -/
theorem map_snd_inPlace (b : WordBuffer α) :
    (b.inPlace update state).entries.map (·.2) = sweep update state (b.entries.map (·.2)) := by
  unfold WordBuffer.inPlace
  induction b.entries generalizing state with
  | nil => rfl
  | cons entry rest ih => exact congrArg ((update state entry.2).1 :: ·) (ih _)

variable {update state}

/-- Replacing values where they stand is laying them out anew, if no width changes. -/
theorem inPlace_buffer
    (hwidth : (sweep update state s.toList).map width = s.toList.map width) :
    s.buffer.inPlace update state = (s.inPlace update state).buffer := by
  have hlist : (s.inPlace update state).toList = sweep update state s.toList := toList_ofList _
  have hvalues : ∀ t : WordSeq α, t.slots.reverse.map (·.2) = t.toList :=
    fun t => List.map_reverse
  have hstarts : (s.inPlace update state).slots.reverse.map (·.1) = s.slots.reverse.map (·.1) :=
    starts_eq_of_widths (by rw [hlist, hwidth])
  -- both lists of entries are made of the same starts and the same values
  have hentries : (s.buffer.inPlace update state).entries
      = (s.inPlace update state).slots.reverse := by
    rw [List.zip_of_prod (map_fst_inPlace update state _) (map_snd_inPlace update state _)]
    refine (List.zip_of_prod hstarts ?_).symm
    rw [hvalues, hlist]
    exact congrArg _ (hvalues s).symm
  have htotal : s.words = (s.inPlace update state).words := by
    rw [words_eq_wordCount, words_eq_wordCount, hlist]
    exact (wordCount_eq_of_widths hwidth).symm
  show WordBuffer.mk (s.buffer.inPlace update state).entries s.words = _
  rw [hentries, htotal]
  rfl

end

end WordSeq

end JvmFrames

import JvmFrames.Descriptor

/-!
# Word-addressed sequences

A sequence of values that take one or more words each, found by index or by word offset. This is how
local variables are laid out: there is one entry per value, but an instruction names a word, which
may be the second half of a wide value.

Every entry is kept with the offset of its first word, the newest entry first, so that adding or
removing an entry at the end touches nothing else. The view `toList` forgets the offsets; a sequence
is determined by it (`WordSeq.ext_toList`), and each operation has an equation through it.

Widths and offsets are natural numbers. Offsets of 64 bits would differ from them only where the
total of a sequence passes `2 ^ 64`.
-/

namespace JvmFrames

namespace WordSeq

variable {α : Type} [Width α]

/-- The offset after the newest entry of a list of entries, newest first. -/
def extent : List (Nat × α) → Nat
  | [] => 0
  | (offset, a) :: _ => offset + width a

/-- Each entry starts where the one before it ends. -/
def Laid : List (Nat × α) → Prop
  | [] => True
  | (offset, _) :: older => offset = extent older ∧ Laid older

theorem Laid.drop {slots : List (Nat × α)} (h : Laid slots) (n : Nat) : Laid (slots.drop n) := by
  induction n generalizing slots with
  | zero => exact h
  | succ n ih =>
    cases slots with
    | nil => exact h
    | cons slot older => exact ih h.2

end WordSeq

/-- A sequence of values laid out word after word. -/
structure WordSeq (α : Type) [Width α] where
  /-- The entries with their offsets, the newest first. -/
  slots : List (Nat × α)
  laid : WordSeq.Laid slots

/-- What stands at a word offset. -/
inductive WordLookup (α : Type) where
  /-- An entry starts here. -/
  | found (index : Nat) (value : α)
  /-- The word is a later part of the entry with this index. -/
  | inside (index : Nat)
  | pastEnd

namespace WordSeq

variable {α : Type} [Width α]

instance [DecidableEq α] : DecidableEq (WordSeq α) := fun s t =>
  decidable_of_iff (s.slots = t.slots) ⟨fun h => by cases s; cases t; cases h; rfl, congrArg _⟩

/-- The values, first to last. -/
def toList (s : WordSeq α) : List α := (s.slots.map (·.2)).reverse

/-- Number of entries. -/
def size (s : WordSeq α) : Nat := s.slots.length

/-- Number of words, which is the offset the next entry gets. -/
def words (s : WordSeq α) : Nat := extent s.slots

def isEmpty (s : WordSeq α) : Bool := s.slots.isEmpty

def empty : WordSeq α := ⟨[], trivial⟩

def push (s : WordSeq α) (a : α) : WordSeq α := ⟨(s.words, a) :: s.slots, rfl, s.laid⟩

def extend (s : WordSeq α) (as : List α) : WordSeq α := as.foldl push s

def ofList (as : List α) : WordSeq α := empty.extend as

/-- Without the last entry, which is given with its offset and index. -/
def pop? (s : WordSeq α) : Option ((Nat × Nat × α) × WordSeq α) :=
  match s with
  | ⟨[], _⟩ => none
  | ⟨(offset, a) :: older, laid⟩ => some ((offset, older.length, a), ⟨older, laid.2⟩)

/-- The first `n` entries. -/
def take (s : WordSeq α) (n : Nat) : WordSeq α :=
  ⟨s.slots.drop (s.size - n), s.laid.drop _⟩

/-- With the entries from index `start` up to `stop` replaced. There is no such range if `start` is
past the end; a `stop` past the end reaches to the last entry. -/
def splice? (s : WordSeq α) (start stop : Nat) (replacement : List α) : Option (WordSeq α) :=
  if start ≤ s.size then
    some (((s.take start).extend replacement).extend (s.toList.drop (max start stop)))
  else none

/-- With every value replaced, laid out anew. -/
def map (f : α → α) (s : WordSeq α) : WordSeq α := ofList (s.toList.map f)

/-- The entries with offset and index, first to last. -/
def entries (s : WordSeq α) : List (Nat × Nat × α) :=
  (s.slots.reverse.zipIdx).map fun ((offset, a), index) => (offset, index, a)

/-- The entry with the given index. -/
def get? (s : WordSeq α) (index : Nat) : Option (Nat × α) :=
  if index < s.size then s.slots[s.size - 1 - index]? else none

/-- The newest entry that starts at or before an offset, with its index. -/
def startingBy (offset : Nat) : List (Nat × α) → Option (Nat × Nat × α)
  | [] => none
  | (start, a) :: older =>
    if start ≤ offset then some (older.length, start, a) else startingBy offset older

/-- What stands at a word offset. -/
def lookup (s : WordSeq α) (offset : Nat) : WordLookup α :=
  if s.words ≤ offset then .pastEnd
  else match startingBy offset s.slots with
    | none => .pastEnd
    | some (index, start, a) => if start = offset then .found index a else .inside index

/-- Index and start of the entry that covers a word offset. -/
def covering? (s : WordSeq α) (offset : Nat) : Option (Nat × Nat) :=
  if s.words ≤ offset then none
  else (startingBy offset s.slots).map fun (index, start, _) => (index, start)

/-! ### The view as a list -/

theorem ext_slots {s t : WordSeq α} (h : s.slots = t.slots) : s = t := by
  cases s; cases t; cases h; rfl

theorem Laid.eq_of_map_snd {a b : List (Nat × α)} (ha : Laid a) (hb : Laid b)
    (h : a.map (·.2) = b.map (·.2)) : a = b := by
  induction a generalizing b with
  | nil =>
    cases b with
    | nil => rfl
    | cons y b => simp at h
  | cons x a ih =>
    cases b with
    | nil => simp at h
    | cons y b =>
      obtain ⟨ox, vx⟩ := x
      obtain ⟨oy, vy⟩ := y
      simp only [List.map_cons, List.cons.injEq] at h
      obtain ⟨hv, hrest⟩ := h
      have hab := ih ha.2 hb.2 hrest
      have ho : ox = oy := by rw [ha.1, hb.1, hab]
      rw [ho, hv, hab]

/-- A sequence is determined by its values. -/
theorem ext_toList {s t : WordSeq α} (h : s.toList = t.toList) : s = t :=
  ext_slots (s.laid.eq_of_map_snd t.laid (List.reverse_inj.mp h))

@[simp]
theorem toList_empty : (empty : WordSeq α).toList = [] := rfl

@[simp]
theorem toList_push (s : WordSeq α) (a : α) : (s.push a).toList = s.toList ++ [a] := by
  simp [toList, push]

@[simp]
theorem toList_extend (s : WordSeq α) (as : List α) : (s.extend as).toList = s.toList ++ as := by
  induction as generalizing s with
  | nil => simp [extend]
  | cons a as ih =>
    have h := ih (s.push a)
    simp only [extend, List.foldl_cons] at h ⊢
    rw [h]
    simp

@[simp]
theorem toList_ofList (as : List α) : (ofList as).toList = as := by
  simp [ofList]

@[simp]
theorem ofList_toList (s : WordSeq α) : ofList s.toList = s :=
  ext_toList (by simp)

end WordSeq

instance {α : Type} [Width α] [Describe α] : Describe (WordSeq α) where
  describe s := describe (s.entries.map fun (offset, _, a) => "#" ++ describe offset ++ " = " ++
    describe a)

end JvmFrames

import Mathlib.Data.List.Basic
import JvmFrames.Proofs.WordEffect

/-!
# Shuffles by the word

The instructions that rearrange the top of the stack are defined on words: they move one to four of
them around, whatever values these belong to (`Shuffle.onWords`). On a stack of values this makes
sense only if no wide value is torn apart, and a shuffle of values succeeds exactly then
(`Shuffle.rearranges_iff_cuts`). What it leaves is the shuffle of the words
(`Shuffle.Rearranges.onWords`).
-/

namespace JvmFrames

namespace Shuffle

/-- A shuffle of words, the top first. -/
def onWords {ω : Type} : Shuffle → List ω → Option (List ω)
  | pop, _ :: rest => some rest
  | pop2, _ :: _ :: rest => some rest
  | dup, a :: rest => some (a :: a :: rest)
  | dupX1, a :: b :: rest => some (a :: b :: a :: rest)
  | dupX2, a :: b :: c :: rest => some (a :: b :: c :: a :: rest)
  | dup2, a :: b :: rest => some (a :: b :: a :: b :: rest)
  | dup2X1, a :: b :: c :: rest => some (a :: b :: c :: a :: b :: rest)
  | dup2X2, a :: b :: c :: d :: rest => some (a :: b :: c :: d :: a :: b :: rest)
  | swap, a :: b :: rest => some (b :: a :: rest)
  | _, _ => none

/-- How many words a shuffle moves around. -/
def reach : Shuffle → Nat
  | pop | dup => 1
  | pop2 | dupX1 | dup2 | swap => 2
  | dupX2 | dup2X1 => 3
  | dup2X2 => 4

/-- The depths, in words, at which a shuffle cuts the stack. -/
def cuts : Shuffle → List Nat
  | pop | dup => [1]
  | pop2 | dup2 => [2]
  | dupX1 | swap => [1, 2]
  | dupX2 => [1, 3]
  | dup2X1 => [2, 3]
  | dup2X2 => [2, 4]

end Shuffle

/-- The words of a stack of values, the top first: a wide value has its second word on top. -/
def stackCells (stack : List VType) : List Cell := stack.flatMap fun v => (Cell.ofValue v).reverse

/-- A depth, in words, at which one value of a stack ends and the next begins. -/
def CutAt (stack : List VType) (depth : Nat) : Prop :=
  ∃ above below, stack = above ++ below ∧ wordCount above = depth

/-! ## Words of a stack

A stack of values as a list of words, on which shuffles are defined. Values that are put on top of
each other put their words on top of each other. -/

theorem stackCells_append (a b : List VType) :
    stackCells (a ++ b) = stackCells a ++ stackCells b :=
  List.flatMap_append

theorem stackCells_of_narrow {v : VType} (h : width v = 1) : stackCells [v] = [.first v] := by
  simp [stackCells, Cell.ofValue_of_narrow h]

/-- One wide value or two narrow ones have two words. -/
theorem TwoWords.exists_stackCells {u : List VType} (h : TwoWords u) :
    ∃ c d, stackCells u = [c, d] := by
  cases h with
  | wide a ha =>
    have hwide : width a = 2 := (width_eq_one_or_two a).resolve_left ha
    exact ⟨.second a, .first a, by simp [stackCells, Cell.ofValue_of_wide hwide]⟩
  | narrow a b ha hb =>
    exact ⟨.first a, .first b, by
      simp [stackCells, Cell.ofValue_of_narrow ha, Cell.ofValue_of_narrow hb]⟩

/-- What a shuffle gives for the values it takes are, in words, the words taken, shuffled. -/
theorem Shuffle.Rearranges.onWords {how : Shuffle} {taken given : List VType}
    (h : how.Rearranges taken given) (rest : List Cell) :
    how.onWords (stackCells taken ++ rest) = some (stackCells given ++ rest) := by
  cases h with
  | pop a ha => rw [stackCells_of_narrow ha]; rfl
  -- two words are dropped without asking which of the two shapes they have
  | pop2 g hg =>
    obtain ⟨c, d, hcells⟩ := hg.exists_stackCells
    rw [hcells]
    rfl
  | dup a ha =>
    rw [show [a, a] = [a] ++ [a] from rfl, stackCells_append, stackCells_of_narrow ha]
    rfl
  | dupX1 a b ha hb =>
    rw [show [a, b, a] = [a] ++ [b] ++ [a] from rfl, show [a, b] = [a] ++ [b] from rfl]
    simp only [stackCells_append, stackCells_of_narrow ha, stackCells_of_narrow hb]
    rfl
  | dupX2 a u ha hu =>
    obtain ⟨c, d, hcells⟩ := hu.exists_stackCells
    simp only [stackCells_append, stackCells_of_narrow ha, hcells]
    rfl
  | dup2 g hg =>
    obtain ⟨c, d, hcells⟩ := hg.exists_stackCells
    rw [stackCells_append, hcells]
    rfl
  | dup2X1 g b hg hb =>
    obtain ⟨c, d, hcells⟩ := hg.exists_stackCells
    simp only [stackCells_append, stackCells_of_narrow hb, hcells]
    rfl
  | dup2X2 g u hg hu =>
    obtain ⟨c, d, hcells⟩ := hg.exists_stackCells
    obtain ⟨c', d', hcells'⟩ := hu.exists_stackCells
    simp only [stackCells_append, hcells, hcells']
    rfl
  | swap a b ha hb =>
    rw [show [b, a] = [b] ++ [a] from rfl, show [a, b] = [a] ++ [b] from rfl]
    simp only [stackCells_append, stackCells_of_narrow ha, stackCells_of_narrow hb]
    rfl

/-! ## Cuts

Where a shuffle cuts the stack there has to be the end of a value. Between two cuts there is a whole
number of values, and with one or two words these are what the shuffle asks for. -/

/-- One word is one narrow value. -/
theorem exists_narrow_of_wordCount {values : List VType} (h : wordCount values = 1) :
    ∃ a, values = [a] ∧ width a = 1 := by
  cases values with
  | nil => cases h
  | cons a rest =>
    have hpos := width_pos a
    have hlength := length_le_wordCount rest
    rw [wordCount_cons] at h
    have hrest : rest = [] := List.eq_nil_of_length_eq_zero (by omega)
    exact ⟨a, by rw [hrest], by rw [hrest, wordCount_nil] at h; omega⟩

/-- Two words are one wide value or two narrow ones. -/
theorem twoWords_of_wordCount {values : List VType} (h : wordCount values = 2) :
    TwoWords values := by
  cases values with
  | nil => cases h
  | cons a rest =>
    rw [wordCount_cons] at h
    rcases width_eq_one_or_two a with ha | ha
    · have hrest : wordCount rest = 1 := by omega
      obtain ⟨b, rfl, hb⟩ := exists_narrow_of_wordCount hrest
      exact .narrow a b ha hb
    · have hlength := length_le_wordCount rest
      have hrest : rest = [] := List.eq_nil_of_length_eq_zero (by omega)
      rw [hrest]
      exact .wide a (by omega)

namespace CutAt

variable {stack above below : List VType} {m n : Nat}

theorem of_append (h : wordCount above = n) : CutAt (above ++ below) n := ⟨above, below, rfl, h⟩

/-- A stack is at least as deep as the places where it can be cut. -/
theorem le_wordCount (h : CutAt stack n) : n ≤ wordCount stack := by
  obtain ⟨above, below, rfl, rfl⟩ := h
  rw [wordCount_append]
  omega

/-- Between two cuts there are as many words as their depths differ by. -/
theorem exists_between (hupper : CutAt stack m) (hlower : CutAt stack (m + n)) :
    ∃ above between below, stack = above ++ (between ++ below) ∧ wordCount above = m
      ∧ wordCount between = n := by
  obtain ⟨above, below, rfl, hm⟩ := hupper
  obtain ⟨above', below', heq, hn⟩ := hlower
  rcases List.append_eq_append_iff.mp heq with ⟨between, rfl, rfl⟩ | ⟨between, rfl, rfl⟩
  · rw [wordCount_append] at hn
    exact ⟨above, between, below', rfl, hm, by omega⟩
  · -- the lower cut is not above the upper one, so there is nothing between them
    rw [wordCount_append] at hm
    have hlength := length_le_wordCount between
    have hnil : between = [] := List.eq_nil_of_length_eq_zero (by omega)
    exact ⟨above' ++ between, [], below, rfl, by rw [wordCount_append]; omega, by
      rw [wordCount_nil]; omega⟩

end CutAt

/-- A shuffle finds values to rearrange exactly if the stack can be cut where it cuts it. -/
theorem Shuffle.rearranges_iff_cuts {how : Shuffle} {stack : List VType} :
    (∃ taken given rest, stack = taken ++ rest ∧ how.Rearranges taken given)
      ↔ ∀ depth ∈ how.cuts, CutAt stack depth := by
  constructor
  · rintro ⟨taken, given, rest, rfl, h⟩ depth hdepth
    cases h with
    | pop a ha | dup a ha =>
      cases List.mem_singleton.mp hdepth
      exact .of_append (by simp [ha])
    | pop2 g hg | dup2 g hg =>
      cases List.mem_singleton.mp hdepth
      exact .of_append hg.wordCount_eq
    | dupX1 a b ha hb | swap a b ha hb =>
      rcases List.mem_pair.mp hdepth with rfl | rfl
      · exact ⟨[a], b :: rest, rfl, by simp [ha]⟩
      · exact .of_append (by simp [ha, hb])
    | dupX2 a u ha hu =>
      rcases List.mem_pair.mp hdepth with rfl | rfl
      · rw [List.append_assoc]
        exact .of_append (by simp [ha])
      · exact .of_append (by simp [ha, hu.wordCount_eq])
    | dup2X1 g b hg hb =>
      rcases List.mem_pair.mp hdepth with rfl | rfl
      · rw [List.append_assoc]
        exact .of_append hg.wordCount_eq
      · exact .of_append (by simp [hg.wordCount_eq, hb])
    | dup2X2 g u hg hu =>
      rcases List.mem_pair.mp hdepth with rfl | rfl
      · rw [List.append_assoc]
        exact .of_append hg.wordCount_eq
      · exact .of_append (by simp [hg.wordCount_eq, hu.wordCount_eq])
  · -- the values between the cuts have as many words as the kind of shuffle says
    intro hcuts
    cases how with
    | pop =>
      obtain ⟨above, below, rfl, habove⟩ := hcuts 1 (by decide)
      obtain ⟨a, rfl, ha⟩ := exists_narrow_of_wordCount habove
      exact ⟨_, _, below, rfl, .pop a ha⟩
    | pop2 =>
      obtain ⟨above, below, rfl, habove⟩ := hcuts 2 (by decide)
      exact ⟨_, _, below, rfl, .pop2 above (twoWords_of_wordCount habove)⟩
    | dup =>
      obtain ⟨above, below, rfl, habove⟩ := hcuts 1 (by decide)
      obtain ⟨a, rfl, ha⟩ := exists_narrow_of_wordCount habove
      exact ⟨_, _, below, rfl, .dup a ha⟩
    | dup2 =>
      obtain ⟨above, below, rfl, habove⟩ := hcuts 2 (by decide)
      exact ⟨_, _, below, rfl, .dup2 above (twoWords_of_wordCount habove)⟩
    | dupX1 =>
      obtain ⟨above, between, below, rfl, habove, hbetween⟩ :=
        (hcuts 1 (by decide)).exists_between (n := 1) (hcuts 2 (by decide))
      obtain ⟨a, rfl, ha⟩ := exists_narrow_of_wordCount habove
      obtain ⟨b, rfl, hb⟩ := exists_narrow_of_wordCount hbetween
      exact ⟨_, _, below, rfl, .dupX1 a b ha hb⟩
    | dupX2 =>
      obtain ⟨above, between, below, rfl, habove, hbetween⟩ :=
        (hcuts 1 (by decide)).exists_between (n := 2) (hcuts 3 (by decide))
      obtain ⟨a, rfl, ha⟩ := exists_narrow_of_wordCount habove
      exact ⟨_, _, below, rfl, .dupX2 a between ha (twoWords_of_wordCount hbetween)⟩
    | dup2X1 =>
      obtain ⟨above, between, below, rfl, habove, hbetween⟩ :=
        (hcuts 2 (by decide)).exists_between (n := 1) (hcuts 3 (by decide))
      obtain ⟨b, rfl, hb⟩ := exists_narrow_of_wordCount hbetween
      exact ⟨_, _, below, (List.append_assoc ..).symm,
        .dup2X1 above b (twoWords_of_wordCount habove) hb⟩
    | dup2X2 =>
      obtain ⟨above, between, below, rfl, habove, hbetween⟩ :=
        (hcuts 2 (by decide)).exists_between (n := 2) (hcuts 4 (by decide))
      exact ⟨_, _, below, (List.append_assoc ..).symm, .dup2X2 above between
        (twoWords_of_wordCount habove) (twoWords_of_wordCount hbetween)⟩
    | swap =>
      obtain ⟨above, between, below, rfl, habove, hbetween⟩ :=
        (hcuts 1 (by decide)).exists_between (n := 1) (hcuts 2 (by decide))
      obtain ⟨a, rfl, ha⟩ := exists_narrow_of_wordCount habove
      obtain ⟨b, rfl, hb⟩ := exists_narrow_of_wordCount hbetween
      exact ⟨_, _, below, rfl, .swap a b ha hb⟩

theorem Shuffle.reach_mem_cuts (how : Shuffle) : how.reach ∈ how.cuts := by
  cases how <;> decide

namespace Frame

/-- Executing a shuffle is doing it. -/
theorem execute_shuffle (this : ClassName) (site : Option Label) (how : Shuffle) (f : Frame) :
    f.execute this site (.shuffle how) = how.apply f := by
  have happly : (Action.shuffle how).apply f = how.apply f := rfl
  show f.perform [.shuffle how] = how.apply f
  rw [perform, happly]
  cases how.apply f with
  | ok g => rfl
  | error fault => rfl

/-- Shuffles are the shuffles of words. One succeeds exactly if the stack has the words it moves
around and no wide value lies across a place where it cuts; then the words of the stack are
shuffled, and the locals stay. -/
theorem shuffles_move_words (this : ClassName) (site : Option Label) (how : Shuffle) (f : Frame) :
    ((∃ g, f.execute this site (.shuffle how) = .ok g)
        ↔ how.reach ≤ f.stackWords ∧ ∀ depth ∈ how.cuts, CutAt f.stack depth)
      ∧ ∀ g, f.execute this site (.shuffle how) = .ok g →
          how.onWords (stackCells f.stack) = some (stackCells g.stack) ∧ g.locals = f.locals := by
  rw [execute_shuffle]
  refine ⟨⟨?_, ?_⟩, fun g hg => ?_⟩
  · rintro ⟨g, hg⟩
    obtain ⟨taken, given, rest, hstack, hhow, _⟩ := Shuffle.rearranges_of_apply hg
    -- the lowest cut is at `reach`, so a stack that can be cut there is deep enough
    have hcuts := Shuffle.rearranges_iff_cuts.mp ⟨taken, given, rest, hstack, hhow⟩
    exact ⟨(hcuts _ how.reach_mem_cuts).le_wordCount, hcuts⟩
  · rintro ⟨_, hcuts⟩
    obtain ⟨taken, given, rest, hstack, hhow⟩ := Shuffle.rearranges_iff_cuts.mpr hcuts
    exact ⟨_, Shuffle.apply_of_rearranges hstack hhow⟩
  · obtain ⟨taken, given, rest, hstack, hhow, rfl⟩ := Shuffle.rearranges_of_apply hg
    rw [hstack, stackCells_append]
    exact ⟨(hhow.onWords _).trans (congrArg some (stackCells_append ..).symm), rfl⟩

/-- Two narrow values are put under a `long`; they cannot be taken off from under it. -/
theorem shuffles_move_words_under_long :
    let f := ofValues [.float] [.long, .integer, .null]
    let g := ofValues [.float] [.integer, .null, .long]
    (∃ f', f.execute .object none (.shuffle .dup2X2) = .ok f'
        ∧ Shuffle.dup2X2.onWords (stackCells f.stack) = some (stackCells f'.stack)
        ∧ f'.stack.reverse = [.integer, .null, .long, .integer, .null])
      ∧ ¬ ∃ g', g.execute .object none (.shuffle .dupX1) = .ok g' := by
  intro f g
  obtain ⟨hsome, hwords⟩ := shuffles_move_words .object none .dup2X2 f
  have hcuts : ∀ depth ∈ Shuffle.dup2X2.cuts, CutAt f.stack depth := by
    intro depth hdepth
    rcases List.mem_pair.mp hdepth with rfl | rfl
    · exact ⟨[.null, .integer], [.long], rfl, rfl⟩
    · exact ⟨[.null, .integer, .long], [], rfl, rfl⟩
  obtain ⟨f', hf'⟩ := hsome.mpr ⟨by decide, hcuts⟩
  have hresult : f' = ofValues [.float] [.integer, .null, .long, .integer, .null] := by
    cases hf'
    rfl
  refine ⟨⟨f', hf', (hwords f' hf').1, by rw [hresult]; rfl⟩, fun hg => ?_⟩
  -- a `long` is on top, and nothing ends one word below it
  obtain ⟨above, below, hstack, hone⟩ :=
    ((shuffles_move_words .object none .dupX1 g).1.mp hg).2 1 (by decide)
  obtain ⟨a, rfl, ha⟩ := exists_narrow_of_wordCount hone
  cases hstack
  cases ha

end Frame

end JvmFrames

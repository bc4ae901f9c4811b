import JvmFrames.Frame

/-!
# Merging frames

Two frames that meet at one place merge into what holds on both paths. Stacks must have the same
shape. Locals are merged word by word: a value survives only where both frames have a value of the
same width starting at the same word, and every other word is unusable.
-/

namespace JvmFrames

/-- One word of a list of values. -/
inductive Cell where
  /-- The word a value starts at. -/
  | first (value : VType)
  /-- The other word of a wide value. -/
  | second (value : VType)
  deriving DecidableEq

namespace Cell

/-- The words of one value. -/
def ofValue (v : VType) : List Cell :=
  if width v = 2 then [.first v, .second v] else [.first v]

/-- The words of a list of values. -/
def ofValues (values : List VType) : List Cell := values.flatMap ofValue

/-- What starts at a word where two cells meet. Values of the same width that start there together
merge, and where the merged value is wide, nothing starts at its other word. -/
def merge (oracle : Oracle) : Cell → Cell → Option VType
  | first v, first w => some (if width v = width w then v.merge oracle w else .top)
  | second v, second w => if width (v.merge oracle w) = 2 then none else some .top
  | _, _ => some .top

/-- The question that merging two cells asks of the oracle, if it asks one. -/
def question? : Cell → Cell → Option (RefType × RefType)
  | first v, first w => if width v = width w then (v.meet w).question? else none
  | _, _ => none

end Cell

/-- Merges two lists of locals. The result is as long, in words, as the shorter of them. -/
def mergeLocals (oracle : Oracle) (a b : List VType) : List VType :=
  ((Cell.ofValues a).zip (Cell.ofValues b)).filterMap fun (c, d) => c.merge oracle d

/-- Merges two values at the same place of a stack. They must have the same width, and keep it. -/
def mergeStackValue (oracle : Oracle) (v w : VType) : Except FrameError VType :=
  let merged := v.merge oracle w
  if width v = width w ∧ width merged = width v then .ok merged
  else .error (.typeMismatch (.value v) w)

namespace Frame

/-- Both stacks have as many values and as many words. -/
def sameDepth (f g : Frame) : Bool :=
  f.stack.length = g.stack.length ∧ f.stackWords = g.stackWords

/-- What holds whichever of two frames a place is reached with. -/
def merge (oracle : Oracle) (f g : Frame) : Except FrameError Frame := do
  if !f.sameDepth g then throw (.depthMismatch f.stackWords g.stackWords)
  let stack ← (f.stack.reverse.zip g.stack.reverse).mapM fun (v, w) => mergeStackValue oracle v w
  return ⟨.ofList (mergeLocals oracle f.locals.toList g.locals.toList), stack.reverse⟩

/-- The questions that merging two frames asks of the oracle, in order: the stack from its bottom
up, as far as it can be merged, and then the locals. -/
def mergeQuestions (oracle : Oracle) (f g : Frame) : List (RefType × RefType) :=
  if !f.sameDepth g then []
  else
    let pairs := f.stack.reverse.zip g.stack.reverse
    let mergeable := pairs.takeWhile fun (v, w) => (mergeStackValue oracle v w).isOk
    let onStack := mergeable.filterMap fun (v, w) => (v.meet w).question?
    if mergeable.length < pairs.length then onStack
    else onStack ++
      ((Cell.ofValues f.locals.toList).zip (Cell.ofValues g.locals.toList)).filterMap
        fun (c, d) => c.question? d

end Frame

end JvmFrames

import JvmFrames.Error
import JvmFrames.Method
import JvmFrames.WordSeq

/-!
# Frames

The locals and the operand stack along one path through a body, and the elementary operations on
them. An operation that fails gives its cause together with the frame as it was by then: what it had
popped stays popped.
-/

namespace JvmFrames

structure Frame where
  locals : WordSeq VType
  /-- The values on the stack, the top first. -/
  stack : List VType
  deriving DecidableEq

/-- The words a list of values takes. -/
def wordCount {α : Type} [Width α] (values : List α) : Nat :=
  values.foldl (fun n v => n + width v) 0

namespace Frame

/-- What an operation on frames gives: a value, or a cause and the frame left behind. -/
abbrev Outcome (α : Type) : Type := Except (Fault FrameError Frame) α

def empty : Frame := ⟨.empty, []⟩

/-- The frame with these locals and this stack, its bottom first. -/
def ofValues (locals stack : List VType) : Frame := ⟨.ofList locals, stack.reverse⟩

def stackWords (f : Frame) : Nat := wordCount f.stack

def snapshot (f : Frame) : Snapshot VType := .ofValues f.locals.toList f.stack.reverse

/-- The frame on entry to a method: its receiver, if it has one, and its parameters. -/
def entry (m : Method) : Frame :=
  let receiver :=
    if m.isStatic then []
    else [VType.receiver m.className (m.isConstructor && m.className != .object)]
  ofValues (receiver ++ m.descriptor.parameters.map VType.ofField) []

/-! ### The stack -/

def push (f : Frame) (v : VType) : Frame := { f with stack := v :: f.stack }

def pop (f : Frame) : Outcome (VType × Frame) :=
  match f.stack with
  | [] => .error ⟨.stackUnderflow, f⟩
  | v :: rest => .ok (v, { f with stack := rest })

/-- The value under the top `depth` values. -/
def fetch (f : Frame) (depth : Nat) : Except FrameError VType :=
  match f.stack[depth]? with
  | some v => .ok v
  | none => .error .stackUnderflow

/-- With a value put under the top `depth` values. -/
def insert (f : Frame) (depth : Nat) (v : VType) : Except FrameError Frame :=
  if depth ≤ f.stack.length then .ok { f with stack := f.stack.insertIdx depth v }
  else .error .stackUnderflow

/-- With an empty stack. -/
def clear (f : Frame) : Frame := { f with stack := [] }

/-! ### The locals -/

/-- The first words of some values. A wide value cut in two leaves an unusable word, and so does
each word that is missing. -/
def takeWords : List VType → Nat → List VType
  | [], n => List.replicate n .top
  | v :: rest, n =>
    if n = 0 then []
    else if width v ≤ n then v :: takeWords rest (n - width v)
    else List.replicate n .top

/-- What is left of some values after their first words. A wide value cut in two leaves an unusable
word. -/
def dropWords : List VType → Nat → List VType
  | [], _ => []
  | v :: rest, n =>
    if n = 0 then v :: rest
    else if width v ≤ n then dropWords rest (n - width v)
    else List.replicate (width v - n) .top ++ rest

/-- The local that starts at a slot. -/
def load (f : Frame) (slot : UInt16) : Except FrameError VType :=
  match f.locals.lookup slot.toNat with
  | .found _ .top | .inside _ | .pastEnd => .error (.unusableLocal slot)
  | .found _ v => .ok v

/-- With a value stored from a slot on. What it overwrites in part becomes unusable, as do the slots
skipped to reach it. -/
def store (f : Frame) (slot : UInt16) (v : VType) : Frame :=
  let values := f.locals.toList
  let values := takeWords values slot.toNat ++ v :: dropWords values (slot.toNat + width v)
  { f with locals := .ofList values }

/-! ### Both -/

/-- With every value replaced. -/
def map (change : VType → VType) (f : Frame) : Frame :=
  { locals := f.locals.map change, stack := f.stack.map change }

/-- With every copy of a value replaced by what its constructor makes of it. -/
def construct (f : Frame) (v : VType) (this : ClassName) : Frame :=
  f.map fun w => if w = v then v.constructed this else w

end Frame

/-- The most words that locals and stack have taken. -/
structure Maxima where
  locals : Nat
  stack : Nat
  deriving DecidableEq

namespace Maxima

def zero : Maxima := ⟨0, 0⟩

def cover (m : Maxima) (f : Frame) : Maxima :=
  ⟨max m.locals f.locals.words, max m.stack f.stackWords⟩

end Maxima

instance : Describe Frame where
  describe f := Text.record "Frame" [("locals", describe f.locals),
    ("stack", describe (WordSeq.ofList f.stack.reverse))]

end JvmFrames

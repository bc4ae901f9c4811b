import JvmFrames.Frame

/-!
# Elementary effects

Every instruction acts on a frame by a list of elementary actions: take a value that passes a check,
push a value, read or write a local, and a few more. `Instruction.actions` and `Branch.actions` are
the tables; `Frame.perform` runs a list of actions until one fails.
-/

namespace JvmFrames

/-- What a value taken off the stack has to be. -/
inductive Check where
  | exactly (value : VType)
  | reference
  | initialized
  | uninitialized
  /-- One word wide. -/
  | narrow
  /-- Null, or a one-dimensional array of one of these types. -/
  | primitiveArray (elements : List BaseType)
  /-- Null, or an array of references. -/
  | referenceArray
  /-- Null, or any array. -/
  | anyArray
  /-- The receiver of an assignment to a field of `owner` in a method of `this`. A constructor may
  set fields of its own class before it has called another constructor. -/
  | receiver (owner this : ClassName)
  deriving DecidableEq

/-- What is wrong with something that is no array of the right kind. -/
def FrameError.ofNonArray (v : VType) : FrameError :=
  if v.isReference then .notAnArray v else .typeMismatch .array v

/-- The type of the elements of an array of references. -/
def RefType.referenceElement? (t : RefType) : Option RefType :=
  match t.element? with
  | some (.ref e) => some e
  | _ => none

/-- What is wrong with a value, if anything is. -/
def Check.error? (check : Check) (v : VType) : Option FrameError :=
  match check with
  | exactly w => if v = w then none else some (.typeMismatch (.value w) v)
  | reference => if v.isReference then none else some (.typeMismatch .reference v)
  | initialized => if v.isInitialized then none else some (.typeMismatch .initializedReference v)
  | uninitialized =>
    if v.isUninitialized then none else some (.typeMismatch .uninitializedReference v)
  | narrow => if width v = 1 then none else some (.widthMismatch 1 (width v))
  | primitiveArray elements => match v with
    | .null => none
    | .object (.primitiveArray 0 t) => if t ∈ elements then none else some (.notAnArray v)
    | _ => some (.ofNonArray v)
  | referenceArray => match v with
    | .null => none
    | .object t => if t.referenceElement?.isSome then none else some (.notAnArray v)
    | _ => some (.ofNonArray v)
  | anyArray => match v with
    | .null => none
    | .object t => if t.isArray then none else some (.notAnArray v)
    | _ => some (.ofNonArray v)
  | receiver owner this => match v with
    | .null | .object _ => none
    | .uninitializedThis =>
      if owner = this then none else some (.typeMismatch (.instanceOf owner) v)
    | _ => some (.typeMismatch (.instanceOf owner) v)

/-- One elementary effect on a frame. -/
inductive Action where
  | take (check : Check)
  | push (value : VType)
  /-- Replaces an array of references by its element. -/
  | element
  /-- Takes two values, and only then checks that both are references. -/
  | takeTwoReferences
  /-- A local has to be this value. -/
  | expectLocal (slot : UInt16) (value : VType)
  /-- Pushes a local, which has to be a reference. -/
  | loadReference (slot : UInt16)
  | storeLocal (slot : UInt16) (value : VType)
  /-- Stores the top value, which has to be a reference. -/
  | storeReference (slot : UInt16)
  | shuffle (how : Shuffle)
  /-- Takes a value under construction and completes every copy of it, in a method of `this`. -/
  | construct (this : ClassName)
  /-- Leaves the top value, which has to be an object, alone on the stack. -/
  | raise
  | fail (error : FrameError)
  deriving DecidableEq

namespace Frame

/-- Takes a value that has to pass a check. -/
def take (f : Frame) (check : Check) : Outcome (VType × Frame) := do
  let (v, f) ← f.pop
  match check.error? v with
  | none => return (v, f)
  | some e => throw ⟨e, f⟩

/-- Takes values of two words in all, the top first. -/
def takeTwoWords (f : Frame) : Outcome (List VType × Frame) := do
  let (a, f) ← f.pop
  if width a = 1 then
    let (b, f) ← f.pop
    if width b = 1 then return ([a, b], f) else throw ⟨.splitsWide 2, f⟩
  else return ([a], f)

/-- With values put on the stack, the first of them on top. -/
def pushAll (f : Frame) (values : List VType) : Frame := { f with stack := values ++ f.stack }

end Frame

def Shuffle.apply (f : Frame) : Shuffle → Frame.Outcome Frame
  | pop => do
    let (_, f) ← f.take .narrow
    return f
  | pop2 => do
    let (_, f) ← f.takeTwoWords
    return f
  | dup => do
    let (a, f) ← f.take .narrow
    return f.pushAll [a, a]
  | dupX1 => do
    let (a, f) ← f.take .narrow
    let (b, f) ← f.take .narrow
    return f.pushAll [a, b, a]
  | dupX2 => do
    let (a, f) ← f.take .narrow
    let (under, f) ← f.takeTwoWords
    return f.pushAll ([a] ++ under ++ [a])
  | dup2 => do
    let (top, f) ← f.takeTwoWords
    return f.pushAll (top ++ top)
  | dup2X1 => do
    let (top, f) ← f.takeTwoWords
    let (b, f) ← f.take .narrow
    return f.pushAll (top ++ [b] ++ top)
  | dup2X2 => do
    let (top, f) ← f.takeTwoWords
    let (under, f) ← f.takeTwoWords
    return f.pushAll (top ++ under ++ top)
  | swap => do
    let (a, f) ← f.take .narrow
    let (b, f) ← f.take .narrow
    return f.pushAll [b, a]

/-- The value that an element of an array of references is; null has null elements. -/
def VType.elementOf : VType → VType
  | .object t => match t.referenceElement? with
    | some e => .object e
    | none => .null
  | _ => .null

def Action.apply (f : Frame) : Action → Frame.Outcome Frame
  | take check => do
    let (_, f) ← f.take check
    return f
  | push v => return f.push v
  | element => do
    let (v, f) ← f.take .referenceArray
    return f.push v.elementOf
  | takeTwoReferences => do
    let (a, f) ← f.pop
    let (b, f) ← f.pop
    match Check.reference.error? a, Check.reference.error? b with
    | some e, _ => throw ⟨e, f⟩
    | none, some e => throw ⟨e, f⟩
    | none, none => return f
  | expectLocal slot v => match f.load slot with
    | .error e => throw ⟨e, f⟩
    | .ok w => match (Check.exactly v).error? w with
      | some e => throw ⟨e, f⟩
      | none => return f
  | loadReference slot => match f.load slot with
    | .error e => throw ⟨e, f⟩
    | .ok w => match Check.reference.error? w with
      | some e => throw ⟨e, f⟩
      | none => return f.push w
  | storeLocal slot v => return f.store slot v
  | storeReference slot => do
    let (v, f) ← f.take .reference
    return f.store slot v
  | shuffle how => how.apply f
  | construct this => do
    let (v, f) ← f.take .uninitialized
    return f.construct v this
  | raise => do
    let (v, f) ← f.take .initialized
    return f.clear.push v
  | fail e => throw ⟨e, f⟩

/-- Performs actions one after the other, until one fails. -/
def Frame.perform : List Action → Frame → Frame.Outcome Frame
  | [], f => .ok f
  | a :: rest, f => match a.apply f with
    | .ok g => perform rest g
    | .error fault => .error fault

end JvmFrames

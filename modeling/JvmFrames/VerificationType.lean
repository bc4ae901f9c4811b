import JvmFrames.Descriptor
import JvmFrames.Label

/-!
# Verification types

What is known of one value in a frame. The type is used with symbolic payloads while a body is
analyzed, and with constant pool indices and code offsets once it is laid out, so both payloads are
parameters.

Two values that meet in one slot merge (`VType.merge`). Only two different object types need to know
about classes; `VType.meet` settles every other case, and names the two types in that one.
-/

namespace JvmFrames

inductive VerificationType (κ υ : Type) where
  /-- Nothing usable: never set, the result of merging unrelated values, or a stray half of a wide
  value. -/
  | top
  | integer
  | float
  | double
  | long
  | null
  /-- The receiver of a constructor, before another constructor has run on it. -/
  | uninitializedThis
  | object (type : κ)
  /-- A value that `new` has made and no constructor has run on. -/
  | uninitialized (allocation : υ)
  deriving DecidableEq

/-- An allocation: the class it is of and the label right before its `new`. Two uninitialized values
are the same one exactly when they come from the same `new`. -/
structure Allocation where
  className : ClassName
  site : Label
  deriving DecidableEq

/-- The values of frames during analysis. -/
abbrev VType : Type := VerificationType RefType Allocation

/-- Answers what two different reference types have in common. -/
abbrev Oracle : Type := RefType → RefType → RefType

namespace VerificationType

variable {κ υ κ' υ' : Type}

/-- References: null, objects, and values still under construction. -/
def isReference : VerificationType κ υ → Bool
  | null | uninitializedThis | object _ | uninitialized _ => true
  | _ => false

/-- References that no constructor has completed. -/
def isUninitialized : VerificationType κ υ → Bool
  | uninitializedThis | uninitialized _ => true
  | _ => false

/-- References that may be used as objects. -/
def isInitialized : VerificationType κ υ → Bool
  | null | object _ => true
  | _ => false

instance : Width (VerificationType κ υ) where
  width
    | double | long => 2
    | _ => 1

/-- With both payloads replaced by what a computation makes of them. -/
def mapM {m : Type → Type} [Monad m] (f : κ → m κ') (g : υ → m υ') :
    VerificationType κ υ → m (VerificationType κ' υ')
  | top => pure top
  | integer => pure integer
  | float => pure float
  | double => pure double
  | long => pure long
  | null => pure null
  | uninitializedThis => pure uninitializedThis
  | object c => return object (← f c)
  | uninitialized u => return uninitialized (← g u)

/-- With both payloads replaced. -/
def map (f : κ → κ') (g : υ → υ') : VerificationType κ υ → VerificationType κ' υ'
  | top => top
  | integer => integer
  | float => float
  | double => double
  | long => long
  | null => null
  | uninitializedThis => uninitializedThis
  | object c => object (f c)
  | uninitialized u => uninitialized (g u)

end VerificationType

namespace VType

open VerificationType

/-- The value of a declared type. Everything narrower than an `int` is held as one. -/
def ofField : FieldType → VType
  | .base .int | .base .char | .base .short | .base .byte | .base .boolean => integer
  | .base .float => float
  | .base .long => long
  | .base .double => double
  | .ref t => object t

/-- The value of a declared type, or null where there is none. -/
def ofField? : Option FieldType → VType
  | none => null
  | some t => ofField t

/-- The receiver in a method of a class. -/
def receiver (c : ClassName) (uninitialized : Bool) : VType :=
  if uninitialized then uninitializedThis else object (.object c)

/-- The value pushed by the `new` that follows a label. -/
def allocated (c : ClassName) (site : Label) : VType :=
  uninitialized ⟨c, site⟩

/-- What a value becomes once its constructor has run, in a method of class `this`. -/
def constructed (this : ClassName) : VType → VType
  | uninitializedThis => object (.object this)
  | uninitialized u => object (.object u.className)
  | v => v

/-- The outcome of a merge, as far as it can be told without knowing about classes. -/
inductive Meeting where
  | value (v : VType)
  | classes (a b : RefType)

/-- Two values that meet in one slot. `top` absorbs everything, equal values stay, null gives way to
an object, and an allocation stays uninitialized beside an object of its own class. Two different
objects have what their classes have in common; anything else is unusable. The result may be
narrower than the values: `long` and `double` merge to `top`. -/
def meet (v w : VType) : Meeting :=
  match v, w with
  | top, _ | _, top => .value top
  | v, w =>
    if v = w then .value v
    else match v, w with
      | null, object _ => .value w
      | object _, null => .value v
      | uninitialized u, object (.object c) | object (.object c), uninitialized u =>
        if u.className = c then .value (uninitialized u) else .value top
      | object a, object b => .classes a b
      | _, _ => .value top

def Meeting.resolve (oracle : Oracle) : Meeting → VType
  | value v => v
  | classes a b => object (oracle a b)

/-- The question a merge asks of the oracle, if it asks one. -/
def Meeting.question? : Meeting → Option (RefType × RefType)
  | value _ => none
  | classes a b => some (a, b)

/-- Merges two values that flow into the same slot. -/
def merge (oracle : Oracle) (v w : VType) : VType :=
  (meet v w).resolve oracle

end VType

instance : Describe Allocation where
  describe u := Text.record "UninitializedRefType"
    [("class", describe u.className), ("site", describe u.site)]

instance {κ υ : Type} [Describe κ] [Describe υ] : Describe (VerificationType κ υ) where
  describe
    | .top => "Top"
    | .integer => "Integer"
    | .float => "Float"
    | .double => "Double"
    | .long => "Long"
    | .null => "Null"
    | .uninitializedThis => "UninitializedThis"
    | .object c => Text.applied "Object" [describe c]
    | .uninitialized u => Text.applied "Uninitialized" [describe u]

end JvmFrames

import JvmFrames.Code

/-!
# Errors

Why an instruction cannot be executed on a frame (`FrameError`), and why a body cannot be analyzed
or laid out (`Error`). Each cause is a constructor; the wording is in `message`.
-/

namespace JvmFrames

/-- A failed operation: its cause, and the state it left behind. -/
structure Fault (ε σ : Type) where
  cause : ε
  left : σ
  deriving DecidableEq

/-- What stood in a slot should have been one of these. -/
inductive Expected where
  | value (value : VType)
  | reference
  | initializedReference
  | uninitializedReference
  | array
  | instanceOf (className : ClassName)
  /-- Something to return where the method returns this, or nothing. -/
  | result (type : Option FieldType)
  deriving DecidableEq

def Expected.message : Expected → String
  | value v => describe v
  | reference => "reference"
  | initializedReference => "initialized reference"
  | uninitializedReference => "uninitialized reference"
  | array => "array"
  | instanceOf c => c.text
  | result t => FieldType.renderResult t

/-- Instructions that are not supported any more. -/
inductive ObsoleteOpcode where
  | jsr
  | ret
  deriving DecidableEq

def ObsoleteOpcode.name : ObsoleteOpcode → String
  | jsr => "jsr"
  | ret => "ret"

/-- Why an instruction cannot be executed on a frame, or two frames cannot be merged. -/
inductive FrameError where
  | stackUnderflow
  | unusableLocal (slot : UInt16)
  | typeMismatch (expected : Expected) (found : VType)
  | widthMismatch (expected found : Nat)
  /-- A shuffle of this many words would cut a wide value in two. -/
  | splitsWide (words : Nat)
  | notAnArray (found : VType)
  | depthMismatch (expected found : Nat)
  | obsolete (opcode : ObsoleteOpcode)
  | noAllocationSite
  | fallsOffEnd
  deriving DecidableEq

namespace FrameError

def message : FrameError → String
  | stackUnderflow => "stack underflow"
  | unusableLocal slot => "local " ++ describe slot ++ " is unset or invalid"
  | typeMismatch expected found => "expected " ++ expected.message ++ " but found " ++ describe found
  | widthMismatch expected found =>
    "expected a value of width " ++ describe expected ++ " but found width " ++ describe found
  | splitsWide words => "top " ++ describe words ++ " stack words split a wide value"
  | notAnArray found => "expected an array but found " ++ describe found
  | depthMismatch expected found =>
    "stack depth mismatch (expected " ++ describe expected ++ " but found " ++ describe found ++ ")"
  | obsolete opcode => "obsolete opcode `" ++ opcode.name ++ "` is not supported"
  | noAllocationSite => "`new` is not preceded by a label"
  | fallsOffEnd => "control falls off the end of the code"

/-- Whether analysis may go on from a repaired frame. A subroutine call is no jump, so it never
may. -/
def isRecoverable : FrameError → Bool
  | obsolete _ => false
  | _ => true

end FrameError

/-- The place a frame error is reported at. -/
inductive Place where
  | node (node : Node)
  | endOfCode
  deriving DecidableEq

def Place.message : Place → String
  | node (.insn i) => describe i
  | node (.branch b) => describe b
  | node n => describe n
  | endOfCode => "<end of code>"

/-- Values of a laid out frame: classes by constant pool index, allocations by code offset. -/
abbrev EncodedType : Type := VerificationType UInt16 UInt16

/-- Why a body cannot be analyzed, or its frames cannot be laid out. -/
inductive Error where
  | maxStackOverflow (words : Nat)
  | maxLocalsOverflow (words : Nat)
  | unknownLabel (label : Label)
  | duplicateLabel (label : Label)
  | badReference (error : ReferenceError)
  | missingClass (type : RefType)
  /-- An instruction cannot be executed on the frame it is reached with. -/
  | verifier (position : Nat) (place : Place) (frame : Snapshot VType) (cause : FrameError)
  /-- A label is reached with frames that do not merge. -/
  | incompatibleFrames (label : Label) (current incoming : Snapshot VType) (cause : FrameError)
  /-- One offset has two different frames. -/
  | conflictingFrames (offset : UInt16) (first second : Snapshot EncodedType)
  deriving DecidableEq

namespace Error

def message : Error → String
  | maxStackOverflow words => "maximum stack size " ++ describe words ++ " does not fit in a u16"
  | maxLocalsOverflow words => "maximum locals size " ++ describe words ++ " does not fit in a u16"
  | unknownLabel l => "label " ++ describe l ++ " is never placed"
  | duplicateLabel l => "label " ++ describe l ++ " is placed twice"
  | badReference e => "bad descriptor: " ++ e.message
  | missingClass t => "no constant for class " ++ t.className
  | verifier position place frame cause =>
    cause.message ++ " at instruction " ++ describe position ++ " (" ++ place.message
      ++ ") with frame " ++ describe frame
  | incompatibleFrames l current incoming cause =>
    "cannot merge frame " ++ describe incoming ++ " into " ++ describe current ++ " at "
      ++ describe l ++ ": " ++ cause.message
  | conflictingFrames offset first second =>
    "conflicting frames " ++ describe first ++ " and " ++ describe second ++ " at offset "
      ++ describe offset

/-- The frame error behind an error, if there is one. -/
def cause? : Error → Option FrameError
  | verifier _ _ _ cause | incompatibleFrames _ _ _ cause => some cause
  | _ => none

end Error

end JvmFrames

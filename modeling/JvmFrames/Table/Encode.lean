import JvmFrames.Table

/-!
# The bytes of a stack map table

Numbers are big endian, and lists are preceded by their length in two bytes. A table that cannot be
written gives the reason together with the bytes written before it was found.
-/

namespace JvmFrames

/-- Why a table cannot be written. -/
inductive EncodeError where
  | badChop (count : Nat)
  | badAppend (count : Nat)
  | tooLong (length : Nat)
  deriving DecidableEq

def EncodeError.message : EncodeError → String
  | badChop n => "Chop frame removes " ++ describe n ++ " locals (expected 1-3)"
  | badAppend n => "Append frame adds " ++ describe n ++ " locals (expected 1-3)"
  | tooLong n => "table has " ++ describe n ++ " entries, but a class file allows at most 65535"

/-- Bytes written, or why writing stopped, with the bytes written until then. -/
abbrev Encoding : Type := Except (Fault EncodeError (List UInt8)) (List UInt8)

namespace Encoding

def bytes (bs : List UInt8) : Encoding := .ok bs

def fail (e : EncodeError) : Encoding := .error ⟨e, []⟩

/-- One encoding after the other. -/
def append (first second : Encoding) : Encoding :=
  match first, second with
  | .error fault, _ => .error fault
  | .ok bs, .ok cs => .ok (bs ++ cs)
  | .ok bs, .error fault => .error ⟨fault.cause, bs ++ fault.left⟩

instance : Append Encoding := ⟨append⟩

def byte (n : Nat) : Encoding := bytes [n.toUInt8]

/-- A number in two bytes, the high one first. -/
def short (n : UInt16) : Encoding := bytes [(n >>> 8).toUInt8, n.toUInt8]

/-- Items one after the other. -/
def concat {α : Type} (encode : α → Encoding) : List α → Encoding
  | [] => bytes []
  | a :: rest => encode a ++ concat encode rest

/-- A list after its length, which has to fit in two bytes. -/
def counted {α : Type} (encode : α → Encoding) (items : List α) : Encoding :=
  if items.length < 65536 then short items.length.toUInt16 ++ concat encode items
  else fail (.tooLong items.length)

end Encoding

open Encoding

def EncodedType.encode : EncodedType → Encoding
  | .top => byte 0
  | .integer => byte 1
  | .float => byte 2
  | .double => byte 3
  | .long => byte 4
  | .null => byte 5
  | .uninitializedThis => byte 6
  | .object index => byte 7 ++ short index
  | .uninitialized offset => byte 8 ++ short offset

/-- A small offset delta is part of the tag of a frame with no further locals; the extended forms
hold it beside the tag. -/
def TableEntry.encode (e : TableEntry) : Encoding :=
  match e.frame with
  | .same =>
    if e.offsetDelta ≤ 63 then byte e.offsetDelta.toNat else byte 251 ++ short e.offsetDelta
  | .sameLocalsOneStack v =>
    (if e.offsetDelta ≤ 63 then byte (e.offsetDelta.toNat + 64)
      else byte 247 ++ short e.offsetDelta) ++ EncodedType.encode v
  | .chop n =>
    if 1 ≤ n.toNat ∧ n.toNat ≤ maxLocalsDifference then
      byte (251 - n.toNat) ++ short e.offsetDelta
    else fail (.badChop n.toNat)
  | .append extra =>
    if 1 ≤ extra.length ∧ extra.length ≤ maxLocalsDifference then
      byte (251 + extra.length) ++ short e.offsetDelta ++ concat EncodedType.encode extra
    else fail (.badAppend extra.length)
  | .full s =>
    byte 255 ++ short e.offsetDelta ++ counted EncodedType.encode s.locals
      ++ counted EncodedType.encode s.stack

def StackMapTable.encode (t : StackMapTable) : Encoding := counted TableEntry.encode t.entries

end JvmFrames

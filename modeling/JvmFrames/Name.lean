import JvmFrames.Text

/-!
# Class and member names

A member name is one segment; a class name is one or more segments joined by slashes. A segment is
not empty and holds none of the characters that descriptors and class files give a meaning of their
own. Both types carry the proof that their text is well formed, so a name that exists is a valid
one.
-/

namespace JvmFrames

/-- What can be wrong with one segment of a name. -/
inductive SegmentFault where
  | empty
  | contains (segment : String) (c : Char)
  deriving DecidableEq

/-- The sentence that reports a fault, for a name of the given kind. -/
def SegmentFault.message (kind : String) : SegmentFault → String
  | .empty => kind ++ " name is empty"
  | .contains segment c =>
    kind ++ " name '" ++ segment ++ "' contains '" ++ String.singleton c ++ "'"

/-- The characters no segment may hold. -/
def isReservedInNames (c : Char) : Bool :=
  c == '.' || c == ';' || c == '[' || c == '/'

/-- The first fault of a segment, if it has one. -/
def segmentFault? (segment : List Char) : Option SegmentFault :=
  if segment.isEmpty then some .empty
  else (segment.find? isReservedInNames).map (.contains (String.ofList segment))

/-- The segments of a text: what stands between its slashes. There is always at least one. -/
def segments : List Char → List (List Char)
  | [] => [[]]
  | c :: cs =>
    if c = '/' then [] :: segments cs
    else match segments cs with
      | [] => [[c]]
      | s :: ss => (c :: s) :: ss

/-- Why a text is not a name. -/
inductive NameError where
  | member (fault : SegmentFault)
  | emptyClass
  | classSegment (fault : SegmentFault) (whole : String)
  deriving DecidableEq

def NameError.message : NameError → String
  | .member fault => fault.message "Unqualified"
  | .emptyClass => SegmentFault.empty.message "Binary"
  | .classSegment fault whole => fault.message "Binary" ++ " (in '" ++ whole ++ "')"

/-- The first thing wrong with a text as a member name. -/
def MemberName.error? (text : String) : Option NameError :=
  (segmentFault? text.toList).map .member

/-- The first thing wrong with a text as a class name. -/
def ClassName.error? (text : String) : Option NameError :=
  if text.toList.isEmpty then some .emptyClass
  else ((segments text.toList).findSome? segmentFault?).map (.classSegment · text)

/-- Name of a field or method. -/
structure MemberName where
  text : String
  valid : MemberName.error? text = none
  deriving DecidableEq

/-- Name of a class or interface, with its package, separated by slashes. -/
structure ClassName where
  text : String
  valid : ClassName.error? text = none
  deriving DecidableEq

def MemberName.parse (text : String) : Except NameError MemberName :=
  match h : MemberName.error? text with
  | none => .ok ⟨text, h⟩
  | some e => .error e

def ClassName.parse (text : String) : Except NameError ClassName :=
  match h : ClassName.error? text with
  | none => .ok ⟨text, h⟩
  | some e => .error e

instance : Describe MemberName := ⟨MemberName.text⟩
instance : Describe ClassName := ⟨ClassName.text⟩

/-- Names are ordered by their texts, character by character. -/
instance : Ord MemberName := ⟨fun a b => compare a.text b.text⟩
instance : Ord ClassName := ⟨fun a b => compare a.text b.text⟩

/-- The name of constructors; only calls to a method of this name complete an allocation. -/
def MemberName.init : MemberName := ⟨"<init>", by decide⟩

/-! ### Classes that instructions, constants and handlers refer to -/

namespace ClassName

def arithmeticException : ClassName := ⟨"java/lang/ArithmeticException", by decide⟩
def javaClass : ClassName := ⟨"java/lang/Class", by decide⟩
def cloneable : ClassName := ⟨"java/lang/Cloneable", by decide⟩
def error : ClassName := ⟨"java/lang/Error", by decide⟩
def exception : ClassName := ⟨"java/lang/Exception", by decide⟩
def methodHandle : ClassName := ⟨"java/lang/invoke/MethodHandle", by decide⟩
def methodType : ClassName := ⟨"java/lang/invoke/MethodType", by decide⟩
def number : ClassName := ⟨"java/lang/Number", by decide⟩
def object : ClassName := ⟨"java/lang/Object", by decide⟩
def runtimeException : ClassName := ⟨"java/lang/RuntimeException", by decide⟩
def serializable : ClassName := ⟨"java/io/Serializable", by decide⟩
def string : ClassName := ⟨"java/lang/String", by decide⟩
def throwable : ClassName := ⟨"java/lang/Throwable", by decide⟩

end ClassName

end JvmFrames

import JvmFrames.Text

/-!
# Access flags

The sixteen-bit flag words of classes and methods. Only the flags listed here are kept: bits that
stand for none of them are dropped when a word is read.
-/

namespace JvmFrames

/-- A family of flags: its members in order, the bit of each, and its name. -/
class Flag (φ : Type) where
  all : List φ
  bit : φ → UInt16
  name : φ → String

/-- Flags of a class. -/
inductive ClassFlag where
  | PUBLIC
  | FINAL
  | SUPER
  | INTERFACE
  | ABSTRACT
  | SYNTHETIC
  | ENUM
  deriving DecidableEq

/-- Flags of a method. -/
inductive MethodFlag where
  | PUBLIC
  | PRIVATE
  | PROTECTED
  | STATIC
  | FINAL
  | SYNCHRONIZED
  | VARARGS
  | ABSTRACT
  | SYNTHETIC
  deriving DecidableEq

instance : Flag ClassFlag where
  all := [.PUBLIC, .FINAL, .SUPER, .INTERFACE, .ABSTRACT, .SYNTHETIC, .ENUM]
  bit
    | .PUBLIC => 0x0001
    | .FINAL => 0x0010
    | .SUPER => 0x0020
    | .INTERFACE => 0x0200
    | .ABSTRACT => 0x0400
    | .SYNTHETIC => 0x1000
    | .ENUM => 0x4000
  name
    | .PUBLIC => "PUBLIC"
    | .FINAL => "FINAL"
    | .SUPER => "SUPER"
    | .INTERFACE => "INTERFACE"
    | .ABSTRACT => "ABSTRACT"
    | .SYNTHETIC => "SYNTHETIC"
    | .ENUM => "ENUM"

instance : Flag MethodFlag where
  all := [.PUBLIC, .PRIVATE, .PROTECTED, .STATIC, .FINAL, .SYNCHRONIZED, .VARARGS, .ABSTRACT,
    .SYNTHETIC]
  bit
    | .PUBLIC => 0x0001
    | .PRIVATE => 0x0002
    | .PROTECTED => 0x0004
    | .STATIC => 0x0008
    | .FINAL => 0x0010
    | .SYNCHRONIZED => 0x0020
    | .VARARGS => 0x0080
    | .ABSTRACT => 0x0400
    | .SYNTHETIC => 0x1000
  name
    | .PUBLIC => "PUBLIC"
    | .PRIVATE => "PRIVATE"
    | .PROTECTED => "PROTECTED"
    | .STATIC => "STATIC"
    | .FINAL => "FINAL"
    | .SYNCHRONIZED => "SYNCHRONIZED"
    | .VARARGS => "VARARGS"
    | .ABSTRACT => "ABSTRACT"
    | .SYNTHETIC => "SYNTHETIC"

/-- A set of flags of one family. -/
structure Flags (φ : Type) where
  bits : UInt16
  deriving DecidableEq

namespace Flags

variable {φ : Type} [Flag φ]

/-- The set of the given flags. -/
def of (flags : List φ) : Flags φ :=
  ⟨flags.foldl (fun bits flag => bits ||| Flag.bit flag) 0⟩

/-- Every flag of the family. -/
def full : Flags φ := of Flag.all

/-- The flags of a word, without its unknown bits. -/
def truncate (word : UInt16) : Flags φ :=
  ⟨word &&& (full : Flags φ).bits⟩

/-- The flags of a word that has no unknown bits. -/
def ofBits? (word : UInt16) : Option (Flags φ) :=
  if word &&& (full : Flags φ).bits = word then some ⟨word⟩ else none

omit [Flag φ] in
def union (a b : Flags φ) : Flags φ := ⟨a.bits ||| b.bits⟩

omit [Flag φ] in
/-- Every flag of `b` is one of `a`. -/
def contains (a b : Flags φ) : Bool := a.bits &&& b.bits == b.bits

omit [Flag φ] in
def isEmpty (a : Flags φ) : Bool := a.bits == 0

def has (a : Flags φ) (flag : φ) : Bool := a.contains (of [flag])

instance : Describe (Flags φ) where
  describe a :=
    match Flag.all.filter a.has with
    | [] => "(empty)"
    | flags => " | ".intercalate (flags.map Flag.name)

end Flags

abbrev ClassFlags : Type := Flags ClassFlag
abbrev MethodFlags : Type := Flags MethodFlag

end JvmFrames

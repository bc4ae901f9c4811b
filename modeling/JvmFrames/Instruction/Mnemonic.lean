import JvmFrames.Instruction

/-!
# Reading instructions by mnemonic

The members of the small operand types, and the instructions that have no operands, each found by
its text.
-/

namespace JvmFrames

/-- Types with finitely many values, each known by its text. -/
class Mnemonic (α : Type) [Describe α] where
  all : List α

/-- The value with the given text. -/
def ofMnemonic? {α : Type} [Describe α] [Mnemonic α] (text : String) : Option α :=
  Mnemonic.all.find? fun a => describe a == text

instance : Mnemonic Shift := ⟨[.left, .logicalRight, .arithmeticRight]⟩
instance : Mnemonic NanMode := ⟨[.l, .g]⟩
instance : Mnemonic OrderTest := ⟨[.eq, .ge, .gt, .le, .lt, .ne]⟩
instance : Mnemonic EqualityTest := ⟨[.eq, .ne]⟩
instance : Mnemonic InvokeKind := ⟨[.virtual, .special, .static, .interface]⟩

def NumberKind.all : List NumberKind := [.int, .long, .float, .double]

def ValueKind.all : List ValueKind := NumberKind.all.map .number ++ [.reference]

def ElementKind.all : List ElementKind :=
  NumberKind.all.map .number ++ [.reference, .byte, .char, .short]

def WholeKind.all : List WholeKind := [.int, .long]

/-- The instructions without operands. -/
instance : Mnemonic Instruction where
  all :=
    [.nop, .compareLong, .arrayLength, .monitorEnter, .monitorExit]
    ++ [.null, .intM1, .int0, .int1, .int2, .int3, .int4, .int5, .long0, .long1, .float0, .float1,
      .float2, .double0, .double1].map .const
    ++ ElementKind.all.map .arrayLoad
    ++ ElementKind.all.map .arrayStore
    ++ [.pop, .pop2, .dup, .dupX1, .dupX2, .dup2, .dup2X1, .dup2X2, .swap].map .shuffle
    ++ NumberKind.all.flatMap (fun k => [.add, .sub, .mul, .div, .rem].map (.arithmetic k))
    ++ NumberKind.all.map .negate
    ++ WholeKind.all.flatMap (fun k => [.and, .or, .xor].map (.bitwise k))
    ++ [.i2l, .i2f, .i2d, .l2i, .l2f, .l2d, .f2i, .f2l, .f2d, .d2i, .d2l, .d2f, .i2b, .i2c,
      .i2s].map .convert

/-- The branches without operands. -/
instance : Mnemonic Branch where
  all := ValueKind.all.map .returnValue ++ [.returnVoid, .throw]

/-- The kind of value whose letter a mnemonic starts with, if it goes on with the given stem. -/
def ValueKind.ofMnemonic? (text stem : String) : Option ValueKind :=
  all.find? fun k => k.letter ++ stem == text

end JvmFrames

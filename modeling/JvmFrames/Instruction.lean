import JvmFrames.Decimal
import JvmFrames.Descriptor.Parser
import JvmFrames.Label

/-!
# Instructions

The instructions of a method body. Operands are symbolic: fields and methods are given by name and
descriptor, jumps by label. Instructions that differ only in the kind of value they work on are one
constructor with that kind as an argument, and short and wide forms are not told apart.

`Instruction` holds what runs straight on, `Branch` what may jump or leave the method.
-/

namespace JvmFrames

/-! ### References to fields and methods -/

/-- Why the parts of a reference are not a name or a descriptor. -/
inductive ReferenceError where
  | name (error : NameError)
  | descriptor (error : DescriptorError)
  deriving DecidableEq

def ReferenceError.message : ReferenceError → String
  | .name e => e.message
  | .descriptor e => e.message

structure FieldRef where
  className : ClassName
  name : MemberName
  descriptor : FieldType
  deriving DecidableEq

/-- The owner may be an array type, for methods such as `clone`. -/
structure MethodRef where
  owner : RefType
  name : MemberName
  descriptor : MethodDescriptor
  isInterface : Bool
  deriving DecidableEq

/-- Call of a dynamically computed call site. -/
structure DynamicCall where
  name : MemberName
  descriptor : MethodDescriptor
  deriving DecidableEq

def FieldRef.parse (className name descriptor : String) : Except ReferenceError FieldRef := do
  let className ← (ClassName.parse className).mapError .name
  let name ← (MemberName.parse name).mapError .name
  let descriptor ← (FieldType.parse descriptor).mapError .descriptor
  return ⟨className, name, descriptor⟩

def MethodRef.parse (owner name descriptor : String) (isInterface : Bool) :
    Except ReferenceError MethodRef := do
  let owner ← (RefType.ofClassName owner).mapError .descriptor
  let name ← (MemberName.parse name).mapError .name
  let descriptor ← (MethodDescriptor.parse descriptor).mapError .descriptor
  return ⟨owner, name, descriptor, isInterface⟩

def MethodRef.isConstructor (m : MethodRef) : Bool := m.name = .init

/-! ### Operands -/

/-- Constants of `ldc`. Floating-point numbers are kept as their bits. -/
inductive Constant where
  | integer (value : Int32)
  | float (bits : UInt32)
  | long (value : Int64)
  | double (bits : UInt64)
  | string (value : String)
  | classRef (type : RefType)
  | methodType (descriptor : MethodDescriptor)
  | methodHandle (method : MethodRef)
  | fieldHandle (field : FieldRef)
  deriving DecidableEq

/-- Constants with an instruction of their own. -/
inductive ShortConstant where
  | null
  | intM1
  | int0
  | int1
  | int2
  | int3
  | int4
  | int5
  | long0
  | long1
  | float0
  | float1
  | float2
  | double0
  | double1
  deriving DecidableEq

/-- Kinds of numbers that arithmetic works on. -/
inductive NumberKind where
  | int
  | long
  | float
  | double
  deriving DecidableEq

/-- Kinds of values that locals and results are told apart by. -/
inductive ValueKind where
  | number (kind : NumberKind)
  | reference
  deriving DecidableEq

/-- Kinds of array elements. -/
inductive ElementKind where
  | number (kind : NumberKind)
  | reference
  | byte
  | char
  | short
  deriving DecidableEq

/-- Kinds of whole numbers that have bitwise operations. -/
inductive WholeKind where
  | int
  | long
  deriving DecidableEq

inductive Arithmetic where
  | add
  | sub
  | mul
  | div
  | rem
  deriving DecidableEq

inductive Bitwise where
  | and
  | or
  | xor
  deriving DecidableEq

inductive Shift where
  | left
  | logicalRight
  | arithmeticRight
  deriving DecidableEq

/-- Rearrangements of the top of the stack. -/
inductive Shuffle where
  | pop
  | pop2
  | dup
  | dupX1
  | dupX2
  | dup2
  | dup2X1
  | dup2X2
  | swap
  deriving DecidableEq

inductive Conversion where
  | i2l
  | i2f
  | i2d
  | l2i
  | l2f
  | l2d
  | f2i
  | f2l
  | f2d
  | d2i
  | d2l
  | d2f
  | i2b
  | i2c
  | i2s
  deriving DecidableEq

/-- What comparing with a NaN gives: the lesser or the greater answer. -/
inductive NanMode where
  | l
  | g
  deriving DecidableEq

inductive OrderTest where
  | eq
  | ge
  | gt
  | le
  | lt
  | ne
  deriving DecidableEq

inductive EqualityTest where
  | eq
  | ne
  deriving DecidableEq

inductive InvokeKind where
  | virtual
  | special
  | static
  | interface
  deriving DecidableEq

/-! ### Instructions -/

inductive Instruction where
  | nop
  | const (value : ShortConstant)
  | bipush (value : Int8)
  | sipush (value : Int16)
  | ldc (value : Constant)
  | load (kind : ValueKind) (slot : UInt16)
  | store (kind : ValueKind) (slot : UInt16)
  | arrayLoad (kind : ElementKind)
  | arrayStore (kind : ElementKind)
  | shuffle (how : Shuffle)
  | arithmetic (kind : NumberKind) (op : Arithmetic)
  | negate (kind : NumberKind)
  | bitwise (kind : WholeKind) (op : Bitwise)
  | shift (kind : WholeKind) (how : Shift)
  | increment (slot : UInt16) (amount : Int16)
  | convert (how : Conversion)
  | compareLong
  | compareFloat (mode : NanMode)
  | compareDouble (mode : NanMode)
  | getStatic (field : FieldRef)
  | putStatic (field : FieldRef)
  | getField (field : FieldRef)
  | putField (field : FieldRef)
  | invoke (kind : InvokeKind) (method : MethodRef)
  | invokeDynamic (call : DynamicCall)
  | new (className : ClassName)
  | newArray (element : BaseType)
  | newRefArray (element : RefType)
  | newMultiArray (type : RefType) (dimensions : UInt8)
  | arrayLength
  | checkCast (type : RefType)
  | instanceOf (type : RefType)
  | monitorEnter
  | monitorExit
  deriving DecidableEq

inductive Branch where
  | ifZero (test : OrderTest) (target : Label)
  | ifInts (test : OrderTest) (target : Label)
  | ifRefs (test : EqualityTest) (target : Label)
  | ifNull (test : EqualityTest) (target : Label)
  | goto (target : Label)
  | tableSwitch (otherwise : Label) (low : Int32) (targets : List Label)
  | lookupSwitch (otherwise : Label) (cases : List (Int32 × Label))
  | returnValue (kind : ValueKind)
  | returnVoid
  | throw
  /-- Call of a subroutine, which no longer exists. -/
  | jsr (target : Label)
  /-- Return from a subroutine, which no longer exists. -/
  | ret (slot : UInt16)
  deriving DecidableEq

namespace Branch

/-- The labels a branch may jump to; for a switch, where it goes otherwise comes first. -/
def targets : Branch → List Label
  | ifZero _ l | ifInts _ l | ifRefs _ l | ifNull _ l | goto l | jsr l => [l]
  | tableSwitch otherwise _ ls => otherwise :: ls
  | lookupSwitch otherwise cases => otherwise :: cases.map (·.2)
  | returnValue _ | returnVoid | throw | ret _ => []

/-- Control may go on to the next instruction. -/
def fallsThrough : Branch → Bool
  | ifZero _ _ | ifInts _ _ | ifRefs _ _ | ifNull _ _ => true
  | _ => false

end Branch

/-! ### Texts -/

instance : Describe FieldRef where
  describe f := Text.record "FieldRef" [("class", describe f.className), ("name", describe f.name),
    ("descriptor", describe f.descriptor)]

instance : Describe MethodRef where
  describe m := Text.record "MethodRef" [("class", describe m.owner), ("name", describe m.name),
    ("descriptor", describe m.descriptor), ("is_interface", describe m.isInterface)]

instance : Describe DynamicCall where
  describe d := Text.record "InvokeDynamic"
    [("name", describe d.name), ("descriptor", describe d.descriptor)]

instance : Describe Constant where
  describe
    | .integer n => Text.applied "Integer" [describe n]
    | .float bits => Text.applied "Float" [Decimal.describeBits .single bits.toNat]
    | .long n => Text.applied "Long" [describe n]
    | .double bits => Text.applied "Double" [Decimal.describeBits .double bits.toNat]
    | .string s => Text.applied "String" [describe s]
    | .classRef t => Text.applied "Class" [describe t]
    | .methodType d => Text.applied "MethodType" [describe d]
    | .methodHandle m => Text.applied "MethodHandle" [describe m]
    | .fieldHandle f => Text.applied "FieldHandle" [describe f]

instance : Describe ShortConstant where
  describe
    | .null => "AConstNull"
    | .intM1 => "IConstM1"
    | .int0 => "IConst0"
    | .int1 => "IConst1"
    | .int2 => "IConst2"
    | .int3 => "IConst3"
    | .int4 => "IConst4"
    | .int5 => "IConst5"
    | .long0 => "LConst0"
    | .long1 => "LConst1"
    | .float0 => "FConst0"
    | .float1 => "FConst1"
    | .float2 => "FConst2"
    | .double0 => "DConst0"
    | .double1 => "DConst1"

/-- The letter that a mnemonic starts with, by the kind of value it works on. -/
def NumberKind.letter : NumberKind → String
  | .int => "I"
  | .long => "L"
  | .float => "F"
  | .double => "D"

def ValueKind.letter : ValueKind → String
  | .number k => k.letter
  | .reference => "A"

def ElementKind.letter : ElementKind → String
  | .number k => k.letter
  | .reference => "A"
  | .byte => "B"
  | .char => "C"
  | .short => "S"

def WholeKind.letter : WholeKind → String
  | .int => "I"
  | .long => "L"

instance : Describe Arithmetic where
  describe
    | .add => "Add"
    | .sub => "Sub"
    | .mul => "Mul"
    | .div => "Div"
    | .rem => "Rem"

instance : Describe Bitwise where
  describe
    | .and => "And"
    | .or => "Or"
    | .xor => "Xor"

instance : Describe Shift where
  describe
    | .left => "Left"
    | .logicalRight => "LogicalRight"
    | .arithmeticRight => "ArithmeticRight"

instance : Describe Shuffle where
  describe
    | .pop => "Pop"
    | .pop2 => "Pop2"
    | .dup => "Dup"
    | .dupX1 => "DupX1"
    | .dupX2 => "DupX2"
    | .dup2 => "Dup2"
    | .dup2X1 => "Dup2X1"
    | .dup2X2 => "Dup2X2"
    | .swap => "Swap"

instance : Describe Conversion where
  describe
    | .i2l => "I2L"
    | .i2f => "I2F"
    | .i2d => "I2D"
    | .l2i => "L2I"
    | .l2f => "L2F"
    | .l2d => "L2D"
    | .f2i => "F2I"
    | .f2l => "F2L"
    | .f2d => "F2D"
    | .d2i => "D2I"
    | .d2l => "D2L"
    | .d2f => "D2F"
    | .i2b => "I2B"
    | .i2c => "I2C"
    | .i2s => "I2S"

instance : Describe NanMode where
  describe
    | .l => "L"
    | .g => "G"

instance : Describe OrderTest where
  describe
    | .eq => "EQ"
    | .ge => "GE"
    | .gt => "GT"
    | .le => "LE"
    | .lt => "LT"
    | .ne => "NE"

instance : Describe EqualityTest where
  describe
    | .eq => "EQ"
    | .ne => "NE"

instance : Describe InvokeKind where
  describe
    | .virtual => "Virtual"
    | .special => "Special"
    | .static => "Static"
    | .interface => "Interface"

instance : Describe Instruction where
  describe
    | .nop => "Nop"
    | .const c => describe c
    | .bipush n => Text.applied "BiPush" [describe n]
    | .sipush n => Text.applied "SiPush" [describe n]
    | .ldc c => Text.applied "Ldc" [describe c]
    | .load k slot => Text.applied (k.letter ++ "Load") [describe slot]
    | .store k slot => Text.applied (k.letter ++ "Store") [describe slot]
    | .arrayLoad k => k.letter ++ "ALoad"
    | .arrayStore k => k.letter ++ "AStore"
    | .shuffle s => describe s
    | .arithmetic k op => k.letter ++ describe op
    | .negate k => k.letter ++ "Neg"
    | .bitwise k op => k.letter ++ describe op
    | .shift k s => Text.applied (k.letter ++ "Sh") [describe s]
    | .increment slot n => Text.applied "IInc" [describe slot, describe n]
    | .convert c => describe c
    | .compareLong => "LCmp"
    | .compareFloat m => Text.applied "FCmp" [describe m]
    | .compareDouble m => Text.applied "DCmp" [describe m]
    | .getStatic f => Text.applied "GetStatic" [describe f]
    | .putStatic f => Text.applied "PutStatic" [describe f]
    | .getField f => Text.applied "GetField" [describe f]
    | .putField f => Text.applied "PutField" [describe f]
    | .invoke k m => Text.applied "Invoke" [describe k, describe m]
    | .invokeDynamic d => Text.applied "InvokeDynamic" [describe d]
    | .new c => Text.applied "New" [describe c]
    | .newArray t => Text.applied "NewArray" [describe t]
    | .newRefArray t => Text.applied "ANewArray" [describe t]
    | .newMultiArray t n => Text.applied "MultiANewArray" [describe t, describe n]
    | .arrayLength => "ArrayLength"
    | .checkCast t => Text.applied "CheckCast" [describe t]
    | .instanceOf t => Text.applied "InstanceOf" [describe t]
    | .monitorEnter => "MonitorEnter"
    | .monitorExit => "MonitorExit"

instance : Describe Branch where
  describe
    | .ifZero t l => Text.applied "If" [describe t, describe l]
    | .ifInts t l => Text.applied "IfICmp" [describe t, describe l]
    | .ifRefs t l => Text.applied "IfACmp" [describe t, describe l]
    | .ifNull t l => Text.applied "IfNull" [describe t, describe l]
    | .goto l => Text.applied "Goto" [describe l]
    | .tableSwitch otherwise low ls => Text.record "TableSwitch"
        [("default", describe otherwise), ("low", describe low), ("targets", describe ls)]
    | .lookupSwitch otherwise cases => Text.record "LookupSwitch"
        [("default", describe otherwise), ("targets", describe cases)]
    | .returnValue k => k.letter ++ "Return"
    | .returnVoid => "Return"
    | .throw => "AThrow"
    | .jsr l => Text.applied "Jsr" [describe l]
    | .ret slot => Text.applied "Ret" [describe slot]

end JvmFrames

import JvmFrames.Code
import JvmFrames.Frame.Action

/-!
# What each instruction does to a frame

The tables of actions, and execution of instructions by them.
-/

namespace JvmFrames

def NumberKind.value : NumberKind → VType
  | .int => .integer
  | .long => .long
  | .float => .float
  | .double => .double

def WholeKind.value : WholeKind → VType
  | .int => .integer
  | .long => .long

def ShortConstant.value : ShortConstant → VType
  | .null => .null
  | .intM1 | .int0 | .int1 | .int2 | .int3 | .int4 | .int5 => .integer
  | .long0 | .long1 => .long
  | .float0 | .float1 | .float2 => .float
  | .double0 | .double1 => .double

def Constant.value : Constant → VType
  | .integer _ => .integer
  | .float _ => .float
  | .long _ => .long
  | .double _ => .double
  | .string _ => .object .string
  | .classRef _ => .object .javaClass
  | .methodType _ => .object .methodType
  | .methodHandle _ | .fieldHandle _ => .object .methodHandle

def Conversion.source : Conversion → VType
  | .i2l | .i2f | .i2d | .i2b | .i2c | .i2s => .integer
  | .l2i | .l2f | .l2d => .long
  | .f2i | .f2l | .f2d => .float
  | .d2i | .d2l | .d2f => .double

def Conversion.target : Conversion → VType
  | .l2i | .f2i | .d2i | .i2b | .i2c | .i2s => .integer
  | .i2l | .f2l | .d2l => .long
  | .i2f | .l2f | .d2f => .float
  | .i2d | .l2d | .f2d => .double

/-- What an element is on the stack, and the element types of the arrays it may be in. References
are told apart before. -/
def ElementKind.value : ElementKind → VType
  | .number k => k.value
  | _ => .integer

def ElementKind.elements : ElementKind → List BaseType
  | .number .int => [.int]
  | .number .long => [.long]
  | .number .float => [.float]
  | .number .double => [.double]
  | .reference => []
  | .byte => [.byte, .boolean]
  | .char => [.char]
  | .short => [.short]

namespace Action

/-- Takes a number of the given value. -/
def takeExactly (v : VType) : Action := .take (.exactly v)

/-- Takes a value that may be assigned to the declared type. References only have to be complete:
whether the class fits is not checked. -/
def takeField : FieldType → Action
  | .base t => takeExactly (VType.ofField (.base t))
  | .ref _ => .take .initialized

/-- Takes the arguments of a call, the last one first. -/
def takeArguments (d : MethodDescriptor) : List Action :=
  d.parameters.reverse.map takeField

/-- Pushes the result of a call. -/
def pushResult (d : MethodDescriptor) : List Action :=
  match d.result with
  | none => []
  | some t => [.push (VType.ofField t)]

/-- Takes the receiver of a call. A call of a constructor completes it. -/
def takeReceiver (this : ClassName) (kind : InvokeKind) (m : MethodRef) : List Action :=
  if kind = .special ∧ m.isConstructor then [.construct this]
  else if kind = .static then []
  else [.take .initialized]

/-- What a method returns has to be accepted by its result type. -/
def expectResult (result : Option FieldType) (accepted : Bool) : List Action :=
  if accepted then [] else [.fail (.typeMismatch (.result result) .top)]

end Action

open JvmFrames.Action in
/-- The actions of an instruction in a method of `this`, with the label right before it. -/
def Instruction.actions (this : ClassName) (site : Option Label) : Instruction → List Action
  | nop => []
  | const c => [.push c.value]
  | bipush _ | sipush _ => [.push .integer]
  | ldc c => [.push c.value]
  | load (.number k) slot => [.expectLocal slot k.value, .push k.value]
  | load .reference slot => [.loadReference slot]
  | store (.number k) slot => [takeExactly k.value, .storeLocal slot k.value]
  | store .reference slot => [.storeReference slot]
  | arrayLoad .reference => [takeExactly .integer, .element]
  | arrayLoad k => [takeExactly .integer, .take (.primitiveArray k.elements), .push k.value]
  | arrayStore .reference => [.take .initialized, takeExactly .integer, .take .referenceArray]
  | arrayStore k =>
    [takeExactly k.value, takeExactly .integer, .take (.primitiveArray k.elements)]
  | shuffle how => [.shuffle how]
  | arithmetic k _ => [takeExactly k.value, takeExactly k.value, .push k.value]
  | negate k => [takeExactly k.value, .push k.value]
  | bitwise k _ => [takeExactly k.value, takeExactly k.value, .push k.value]
  | shift k _ => [takeExactly .integer, takeExactly k.value, .push k.value]
  | increment slot _ => [.expectLocal slot .integer]
  | convert c => [takeExactly c.source, .push c.target]
  | compareLong => [takeExactly .long, takeExactly .long, .push .integer]
  | compareFloat _ => [takeExactly .float, takeExactly .float, .push .integer]
  | compareDouble _ => [takeExactly .double, takeExactly .double, .push .integer]
  | getStatic f => [.push (VType.ofField f.descriptor)]
  | putStatic f => [takeField f.descriptor]
  | getField f => [.take .initialized, .push (VType.ofField f.descriptor)]
  | putField f => [takeField f.descriptor, .take (.receiver f.className this)]
  | invoke kind m =>
    takeArguments m.descriptor ++ takeReceiver this kind m ++ pushResult m.descriptor
  | invokeDynamic d => takeArguments d.descriptor ++ pushResult d.descriptor
  | new c => match site with
    | none => [.fail .noAllocationSite]
    | some l => [.push (VType.allocated c l)]
  | newArray t => [takeExactly .integer, .push (.object (.arrayOf (.base t)))]
  | newRefArray t => [takeExactly .integer, .push (.object (.arrayOf (.ref t)))]
  | newMultiArray t n => List.replicate n.toNat (takeExactly .integer) ++ [.push (.object t)]
  | arrayLength => [.take .anyArray, .push .integer]
  | checkCast t => [.take .initialized, .push (.object t)]
  | instanceOf _ => [.take .initialized, .push .integer]
  | monitorEnter | monitorExit => [.take .initialized]

/-- A value of this kind may be returned from a method with the given result. -/
def ValueKind.returnable (result : Option FieldType) : ValueKind → Bool
  | .number k => match result with
    | some (.base t) => VType.ofField (.base t) = k.value
    | _ => false
  | .reference => match result with
    | some (.ref _) => true
    | _ => false

open JvmFrames.Action in
/-- The actions of a branch in a method with the given result. -/
def Branch.actions (result : Option FieldType) : Branch → List Action
  | ifZero _ _ => [takeExactly .integer]
  | ifInts _ _ => [takeExactly .integer, takeExactly .integer]
  | ifRefs _ _ => [.takeTwoReferences]
  | ifNull _ _ => [.take .reference]
  | goto _ => []
  | tableSwitch _ _ _ | lookupSwitch _ _ => [takeExactly .integer]
  | returnValue (.number k) =>
    takeExactly k.value :: expectResult result ((ValueKind.number k).returnable result)
  | returnValue .reference =>
    .take .initialized :: expectResult result (ValueKind.reference.returnable result)
  | returnVoid => expectResult result result.isNone
  | throw => [.raise]
  | jsr _ => [.fail (.obsolete .jsr)]
  | ret _ => [.fail (.obsolete .ret)]

namespace Frame

/-- Executes an instruction in a method of `this`, with the label right before it. -/
def execute (this : ClassName) (site : Option Label) (i : Instruction) (f : Frame) :
    Outcome Frame :=
  f.perform (i.actions this site)

/-- Executes a branch in a method with the given result. -/
def executeBranch (result : Option FieldType) (b : Branch) (f : Frame) : Outcome Frame :=
  f.perform (b.actions result)

end Frame

end JvmFrames

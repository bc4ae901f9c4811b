import JvmFrames.Name

/-!
# Descriptors

The types that fields, parameters and results are declared with, and their written form: one letter
for a base type, `L` name `;` for a class, a bracket for each dimension of an array, and the
parameters in parentheses before the result for a method.
-/

namespace JvmFrames

/-- Types whose values take a number of words in the locals and on the stack. -/
class Width (α : Type) where
  width : α → Nat

export Width (width)

/-- Primitive types. -/
inductive BaseType where
  | byte
  | char
  | double
  | float
  | int
  | long
  | short
  | boolean
  deriving DecidableEq

/-- Class and array types. An array keeps its innermost element and the dimensions beyond the
first: `A[]` has none of them and `A[][][]` two. -/
inductive RefType where
  | object (className : ClassName)
  | objectArray (additional : Nat) (element : ClassName)
  | primitiveArray (additional : Nat) (element : BaseType)
  deriving DecidableEq

/-- Type of a field, a parameter or a result. -/
inductive FieldType where
  | base (type : BaseType)
  | ref (type : RefType)
  deriving DecidableEq

/-- Parameters and result of a method; no result means `void`. -/
structure MethodDescriptor where
  parameters : List FieldType
  result : Option FieldType
  deriving DecidableEq

/-! ### Widths -/

/-- `long` and `double` take two words, everything else one. -/
instance : Width BaseType where
  width
    | .double | .long => 2
    | _ => 1

instance : Width FieldType where
  width
    | .base t => width t
    | .ref _ => 1

/-! ### Written form -/

/-- The letter of a base type. -/
def BaseType.letter : BaseType → Char
  | .byte => 'B'
  | .char => 'C'
  | .double => 'D'
  | .float => 'F'
  | .int => 'I'
  | .long => 'J'
  | .short => 'S'
  | .boolean => 'Z'

/-- The base type a letter stands for. -/
def BaseType.ofLetter? : Char → Option BaseType
  | 'B' => some .byte
  | 'C' => some .char
  | 'D' => some .double
  | 'F' => some .float
  | 'I' => some .int
  | 'J' => some .long
  | 'S' => some .short
  | 'Z' => some .boolean
  | _ => none

def BaseType.renderChars (t : BaseType) : List Char :=
  [t.letter]

def ClassName.renderChars (c : ClassName) : List Char :=
  'L' :: (c.text.toList ++ [';'])

def RefType.renderChars : RefType → List Char
  | .object c => c.renderChars
  | .objectArray n c => List.replicate (n + 1) '[' ++ c.renderChars
  | .primitiveArray n t => List.replicate (n + 1) '[' ++ t.renderChars

def FieldType.renderChars : FieldType → List Char
  | .base t => t.renderChars
  | .ref t => t.renderChars

/-- A result, or the letter that says there is none. -/
def FieldType.renderResultChars : Option FieldType → List Char
  | none => ['V']
  | some t => t.renderChars

def MethodDescriptor.renderChars (d : MethodDescriptor) : List Char :=
  '(' :: (d.parameters.flatMap FieldType.renderChars
    ++ ')' :: FieldType.renderResultChars d.result)

def BaseType.render (t : BaseType) : String := String.ofList t.renderChars
def ClassName.render (c : ClassName) : String := String.ofList c.renderChars
def RefType.render (t : RefType) : String := String.ofList t.renderChars
def FieldType.render (t : FieldType) : String := String.ofList t.renderChars
def FieldType.renderResult (t : Option FieldType) : String := String.ofList (renderResultChars t)
def MethodDescriptor.render (d : MethodDescriptor) : String := String.ofList d.renderChars

/-! ### Arrays -/

namespace RefType

def javaObject : RefType := .object .object
def string : RefType := .object .string
def throwable : RefType := .object .throwable
def javaClass : RefType := .object .javaClass
def methodType : RefType := .object .methodType
def methodHandle : RefType := .object .methodHandle

/-- The array whose elements have the given type. -/
def arrayOf : FieldType → RefType
  | .base t => .primitiveArray 0 t
  | .ref (.object c) => .objectArray 0 c
  | .ref (.primitiveArray n t) => .primitiveArray (n + 1) t
  | .ref (.objectArray n c) => .objectArray (n + 1) c

def isArray : RefType → Bool
  | .object _ => false
  | _ => true

/-- The type of an array's elements; a class has none. -/
def element? : RefType → Option FieldType
  | .object _ => none
  | .primitiveArray 0 t => some (.base t)
  | .primitiveArray (n + 1) t => some (.ref (.primitiveArray n t))
  | .objectArray 0 c => some (.ref (.object c))
  | .objectArray (n + 1) c => some (.ref (.objectArray n c))

/-- The name a class constant gives the type: the bare name of a class, the descriptor of an
array. -/
def className : RefType → String
  | .object c => c.text
  | t => t.render

end RefType

/-! ### Texts -/

instance : Describe BaseType where
  describe
    | .byte => "Byte"
    | .char => "Char"
    | .double => "Double"
    | .float => "Float"
    | .int => "Int"
    | .long => "Long"
    | .short => "Short"
    | .boolean => "Boolean"

/-- The text of an array: its further dimensions and its innermost element. -/
def describeArray {α : Type} [Describe α] (additional : Nat) (element : α) : String :=
  Text.record "ArrayType"
    [("additional_dimensions", describe additional), ("element_type", describe element)]

instance : Describe RefType where
  describe
    | .object c => Text.applied "Object" [describe c]
    | .objectArray n c => Text.applied "ObjectArray" [describeArray n c]
    | .primitiveArray n t => Text.applied "PrimitiveArray" [describeArray n t]

instance : Describe FieldType where
  describe
    | .base t => Text.applied "Base" [describe t]
    | .ref t => Text.applied "Ref" [describe t]

instance : Describe MethodDescriptor where
  describe d := Text.record "MethodDescriptor"
    [("parameters", describe d.parameters), ("return_type", describe d.result)]

end JvmFrames

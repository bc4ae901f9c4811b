import JvmFrames.AccessFlags
import JvmFrames.Instruction

/-!
# Methods

What a body needs to know of the method it belongs to: class, name, descriptor and flags.
-/

namespace JvmFrames

structure Method where
  className : ClassName
  name : MemberName
  descriptor : MethodDescriptor
  flags : MethodFlags
  deriving DecidableEq

namespace Method

def parse (className name descriptor : String) (flags : MethodFlags) :
    Except ReferenceError Method := do
  let className ← (ClassName.parse className).mapError .name
  let name ← (MemberName.parse name).mapError .name
  let descriptor ← (MethodDescriptor.parse descriptor).mapError .descriptor
  return ⟨className, name, descriptor, flags⟩

def isStatic (m : Method) : Bool := m.flags.has .STATIC

def isConstructor (m : Method) : Bool := m.name = .init

end Method

instance : Describe Method where
  describe m := Text.record "MethodInfo" [("class", describe m.className), ("name", describe m.name),
    ("descriptor", describe m.descriptor), ("access_flags", describe m.flags)]

end JvmFrames

import JvmFrames.AccessFlags
import JvmFrames.VerificationType

/-!
# Class hierarchies

Classes with their superclasses, and what two reference types have in common. An interface counts
as `java/lang/Object`, and so does what nothing is known of beyond its chain of superclasses.
-/

namespace JvmFrames

structure ClassData where
  superclass : Option ClassName
  flags : ClassFlags
  deriving DecidableEq

def ClassData.isInterface (c : ClassData) : Bool := c.flags.has .INTERFACE

/-- The declared classes, the latest declaration first. -/
structure Hierarchy where
  declarations : List (ClassName × ClassData)

namespace Hierarchy

/-- Declares a class, in place of any earlier declaration of it. -/
def add (h : Hierarchy) (name : ClassName) (data : ClassData) : Hierarchy :=
  ⟨(name, data) :: h.declarations⟩

def get? (h : Hierarchy) (name : ClassName) : Option ClassData :=
  h.declarations.lookup name

/-- The class is declared as an interface. -/
def isInterface (h : Hierarchy) (name : ClassName) : Bool :=
  match h.get? name with
  | some data => data.isInterface
  | none => false

/-- Only `java/lang/Object`. -/
def base : Hierarchy := ⟨[(.object, ⟨none, .of [.PUBLIC]⟩)]⟩

/-- The classes that instructions, constants and arrays refer to by themselves. -/
def javaLang : Hierarchy :=
  let plain : ClassFlags := .of [.PUBLIC]
  let sealed : ClassFlags := .of [.PUBLIC, .FINAL]
  let abstract : ClassFlags := .of [.PUBLIC, .ABSTRACT]
  let interface : ClassFlags := .of [.PUBLIC, .INTERFACE, .ABSTRACT]
  let classes : List (ClassName × ClassName × ClassFlags) := [
    (.cloneable, .object, interface),
    (.serializable, .object, interface),
    (.javaClass, .object, sealed),
    (.string, .object, sealed),
    (.number, .object, abstract),
    (.methodType, .object, sealed),
    (.methodHandle, .object, abstract),
    (.throwable, .object, plain),
    (.error, .throwable, plain),
    (.exception, .throwable, plain),
    (.runtimeException, .exception, plain),
    (.arithmeticException, .runtimeException, plain)]
  classes.foldl (fun h (name, superclass, flags) => h.add name ⟨some superclass, flags⟩) base

/-- Why a chain of superclasses ends. -/
inductive ChainEnd where
  /-- The last class has no superclass. -/
  | root
  /-- The last class is not declared. -/
  | undeclared (name : ClassName)
  /-- The superclass of the last class is on the chain already. -/
  | cyclic (name : ClassName)

/-- The superclasses of `current`, until the chain ends or meets a class that was visited. Each
superclass followed is declared for a class not met before, so the number of declarations bounds
the length. -/
def superclassesFrom (h : Hierarchy) (visited : List ClassName) (current : ClassName) :
    Nat → List ClassName × ChainEnd
  | 0 => ([], .root)
  | n + 1 => match h.get? current with
    | none => ([], .undeclared current)
    | some ⟨none, _⟩ => ([], .root)
    | some ⟨some superclass, _⟩ =>
      if superclass ∈ visited then ([], .cyclic superclass)
      else
        let (rest, ending) := h.superclassesFrom (superclass :: visited) superclass n
        (superclass :: rest, ending)

/-- A class and its superclasses in order, with the reason the chain ends. -/
def chain (h : Hierarchy) (name : ClassName) : List ClassName × ChainEnd :=
  let (rest, ending) := h.superclassesFrom [name] name (h.declarations.length + 1)
  (name :: rest, ending)

/-- The nearest class that two classes both extend. -/
def commonClass (h : Hierarchy) (a b : ClassName) : ClassName :=
  if a = b then a
  else if h.isInterface a || h.isInterface b then .object
  else ((h.chain b).1.find? (· ∈ (h.chain a).1)).getD .object

/-- The nearest type that values of both types have. -/
def common (h : Hierarchy) : Oracle := fun a b =>
  if a = b then a
  else match a, b with
    | .object c, .object d => .object (h.commonClass c d)
    | .objectArray m c, .objectArray n d =>
      if m = n then .objectArray m (h.commonClass c d) else .objectArray (min m n) .object
    | _, _ => .javaObject

end Hierarchy

instance : Describe ClassData where
  describe c := Text.record "ClassData"
    [("superclass", describe c.superclass), ("access_flags", describe c.flags)]

end JvmFrames

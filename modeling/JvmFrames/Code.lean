import JvmFrames.Instruction
import JvmFrames.StackMapFrame

/-!
# Method bodies

A body is a sequence of nodes: instructions, the labels that mark places between them, and frames
for the instruction that follows. A body hands out the labels that are used in it.
-/

namespace JvmFrames

inductive Node where
  | label (label : Label)
  | insn (insn : Instruction)
  | branch (branch : Branch)
  /-- A computed frame; analysis passes over it. -/
  | frame (frame : StackMapFrame VType)
  deriving DecidableEq

namespace Node

/-- Something that is executed, as opposed to a mark. -/
def isInstruction : Node → Bool
  | insn _ | branch _ => true
  | _ => false

def isFrame : Node → Bool
  | frame _ => true
  | _ => false

/-- The label a node places. -/
def label? : Node → Option Label
  | label l => some l
  | _ => none

end Node

structure Code where
  nodes : Array Node
  /-- The labels below this one have been handed out. -/
  nextLabel : Nat
  deriving DecidableEq

namespace Code

def empty : Code := ⟨#[], 0⟩

/-- A label not handed out before. -/
def freshLabel (code : Code) : Label × Code :=
  (⟨code.nextLabel⟩, { code with nextLabel := code.nextLabel + 1 })

def size (code : Code) : Nat := code.nodes.size

def push (code : Code) (node : Node) : Code :=
  { code with nodes := code.nodes.push node }

/-- With a node put before the one at an index, or at the end. No index past the end will do. -/
def insert? (code : Code) (index : Nat) (node : Node) : Option Code :=
  if index ≤ code.size then
    some { code with nodes := (code.nodes.toList.insertIdx index node).toArray }
  else none

/-- The index at which a label is placed first. -/
def positionOf? (code : Code) (label : Label) : Option Nat :=
  code.nodes.findIdx? fun node => node.label? = some label

def removeFrames (code : Code) : Code :=
  { code with nodes := code.nodes.filter fun node => !node.isFrame }

def instructionCount (code : Code) : Nat :=
  code.nodes.countP Node.isInstruction

end Code

/-- A range of a body whose exceptions a handler catches: from one label up to another. With no type
given, everything is caught. -/
structure ProtectedRange where
  start : Label
  stop : Label
  handler : Label
  catchType : Option RefType
  deriving DecidableEq

/-- The type of the exception on the stack when the handler is entered. -/
def ProtectedRange.caught (range : ProtectedRange) : RefType :=
  range.catchType.getD .throwable

instance : Describe Node where
  describe
    | .label l => Text.applied "Label" [describe l]
    | .insn i => Text.applied "Insn" [describe i]
    | .branch b => Text.applied "Branch" [describe b]
    | .frame f => Text.applied "Frame" [describe f]

end JvmFrames

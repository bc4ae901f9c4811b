import JvmFrames.Analysis
import JvmFrames.Hierarchy

/-!
# The journal

What happens while a body is analyzed, in order: the questions put to the oracle, the join points
found and changed, the nodes passed, and what went wrong. Events are plain data; `Event.lines` words
them for a log.
-/

namespace JvmFrames

/-- What was wrong with a call or a return. -/
inductive Complaint where
  | arguments (error : FrameError) (descriptor : MethodDescriptor)
  | constructorOn (receiver : VType) (descriptor : MethodDescriptor)
  | receiver (error : FrameError) (descriptor : MethodDescriptor)
  | result (branch : Branch) (result : Option FieldType)

inductive Event where
  /-- The oracle was asked what two types have in common. -/
  | asked (first second : RefType)
  | joinsFound (joins nodes : Nat)
  | labelChanged (label : Label) (frame : Frame)
  | handlerChanged (label : Label) (frame : Frame)
  | handlerEntered (label : Label) (frame : Frame)
  | passing (position : Nat) (node : Node)
  | complained (complaint : Complaint)
  | recovered (position : Nat) (node : Node) (error : FrameError)
  | unreachable (label : Label)
  | analyzed (method : Method) (analysis : Analysis)

/-- How much attention a line asks for. -/
inductive Level where
  | error
  | warn
  | debug
  | trace

def Level.name : Level → String
  | error => "ERROR"
  | warn => "WARN"
  | debug => "DEBUG"
  | trace => "TRACE"

structure LogLine where
  level : Level
  text : String

def LogLine.render (line : LogLine) : String := line.level.name ++ " " ++ line.text

def Complaint.text : Complaint → String
  | arguments e d => "Incompatible argument types: " ++ e.message ++ " (for " ++ d.render ++ ")"
  | constructorOn v d => "Constructor called on " ++ describe v ++ " (for " ++ d.render ++ ")"
  | receiver e d => "Incompatible receiver: " ++ e.message ++ " (for " ++ d.render ++ ")"
  | result b t => "Return instruction " ++ describe b ++ " does not match return type "
      ++ FieldType.renderResult t

/-- Where a chain of superclasses ends too early, that is worth a line. -/
def Hierarchy.ChainEnd.lines : Hierarchy.ChainEnd → List LogLine
  | root => []
  | undeclared c => [⟨.debug, "Class " ++ c.text ++ " is not in the hierarchy"⟩]
  | cyclic c => [⟨.debug, "Cyclic superclass chain through " ++ c.text⟩]

/-- What a hierarchy has to say about two classes while it looks for what they have in common. -/
def Hierarchy.classLines (h : Hierarchy) (a b : ClassName) : List LogLine :=
  if a = b ∨ h.isInterface a ∨ h.isInterface b then []
  else (h.chain a).2.lines ++ (h.chain b).2.lines

/-- What a hierarchy has to say about two types while it looks for what they have in common. -/
def Hierarchy.lines (h : Hierarchy) (a b : RefType) : List LogLine :=
  match a, b with
  | .object c, .object d => h.classLines c d
  | .objectArray m c, .objectArray n d => if m = n then h.classLines c d else []
  | _, _ => []

/-- The lines of an event. What the oracle has to say about a question is given. -/
def Event.lines (onQuestion : RefType → RefType → List LogLine) : Event → List LogLine
  | asked a b => onQuestion a b
  | joinsFound joins nodes =>
    [⟨.debug, "Found " ++ describe joins ++ " join points in " ++ describe nodes ++ " nodes"⟩]
  | labelChanged l f =>
    [⟨.debug, "Label " ++ describe l ++ " now has frame " ++ describe (some f)⟩]
  | handlerChanged l f =>
    [⟨.debug, "Handler " ++ describe l ++ " now has frame " ++ describe (some f)⟩]
  | handlerEntered l f => [⟨.debug, "Analyzing handler " ++ describe l ++ " with " ++ describe f⟩]
  | passing position node => [⟨.trace, describe position ++ ": " ++ describe node⟩]
  | complained c => [⟨.error, c.text⟩]
  | recovered position node e =>
    [⟨.warn, "Continuing past " ++ describe node ++ " at instruction " ++ describe position ++ " ("
      ++ e.message ++ ")"⟩]
  | unreachable l => [⟨.warn, "Label " ++ describe l ++ " is unreachable, so it gets no frame"⟩]
  | analyzed m a =>
    [⟨.debug, "Analyzed " ++ describe m.className ++ "." ++ describe m.name ++ ": max stack "
      ++ describe a.maxStack ++ ", max locals " ++ describe a.maxLocals ++ ", "
      ++ describe a.frames.length ++ " frames"⟩]

end JvmFrames

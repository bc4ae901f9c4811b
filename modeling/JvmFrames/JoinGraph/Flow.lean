import JvmFrames.JoinGraph

/-!
# Frames flowing into join points

A frame arrives at a join point by a jump or by falling into its label (`JoinGraph.mark`), or at a
handler because an instruction it protects may throw (`JoinGraph.feed`). A frame whose snapshot has
arrived before changes nothing; this is what lets analysis come to an end. A snapshot counts as
arrived even if its frame turns out not to merge.
-/

namespace JvmFrames

/-- What the arrival of a frame does to a join point. -/
inductive Arrival where
  /-- The same snapshot had arrived before. -/
  | known
  /-- The join point as it is now, and whether its merged frame has changed. -/
  | merged (join : JoinPoint) (changed : Bool)
  /-- The frame does not merge with the current one. -/
  | refused (join : JoinPoint) (error : Error)

/-- A frame arrives at a join point. -/
def JoinPoint.arrive (oracle : Oracle) (j : JoinPoint) (f : Frame) : Arrival :=
  if f.snapshot ∈ j.seen then .known
  else
    let seen := f.snapshot :: j.seen
    match j.merged with
    | none => .merged { j with seen, merged := some f } true
    | some current => match current.merge oracle f with
      | .ok m => .merged { j with seen, merged := some m } (m ≠ current)
      | .error cause =>
        .refused { j with seen } (.incompatibleFrames j.label current.snapshot f.snapshot cause)

/-- The questions that an arrival asks of the oracle. -/
def JoinPoint.arrivalQuestions (oracle : Oracle) (j : JoinPoint) (f : Frame) :
    List (RefType × RefType) :=
  if f.snapshot ∈ j.seen then []
  else match j.merged with
    | none => []
    | some current => current.mergeQuestions oracle f

/-- The frame a handler is entered with from a frame in its range. -/
def Frame.entering (f : Frame) (h : HandlerState) : Frame :=
  { f with stack := [.object h.catchType] }

namespace JoinGraph

/-- What an operation on a join graph gives: a value, or an error and the graph left behind. -/
abbrev Outcome (α : Type) : Type := Except (Fault Error JoinGraph) α

/-- The locals of a frame flow into one handler. -/
def feedHandler (oracle : Oracle) (g : JoinGraph) (f : Frame) (label : Label) :
    Outcome JoinGraph :=
  match g.join? label with
  | none => .ok g
  | some j => match j.handler with
    | none => .ok g
    | some h => match j.arrive oracle (f.entering h) with
      | .known => .ok g
      | .merged j changed => .ok (g.setJoin (if changed then j.withPending true else j))
      | .refused j e => .error ⟨e, g.setJoin j⟩

def feedHandlers (oracle : Oracle) (f : Frame) : List Label → JoinGraph → Outcome JoinGraph
  | [], g => .ok g
  | label :: rest, g => do
    let g ← g.feedHandler oracle f label
    feedHandlers oracle f rest g

/-- The locals of a frame flow into every handler that protects a position. An exception may come
before or in the middle of an instruction, and finds the stack replaced by itself. -/
def feed (oracle : Oracle) (g : JoinGraph) (position : Nat) (f : Frame) : Outcome JoinGraph :=
  feedHandlers oracle f (g.protectors position) g

/-- A frame arrives at a join point. Says whether the place has to be analyzed again: this is the
first frame to get here, or the merged frame has changed. -/
def mark (oracle : Oracle) (g : JoinGraph) (label : Label) (f : Frame) :
    Outcome (JoinGraph × Bool) :=
  match g.join? label with
  | none => .error ⟨.unknownLabel label, g⟩
  | some j => match j.arrive oracle f with
    | .known => .ok (g, false)
    | .refused j e => .error ⟨e, g.setJoin j⟩
    | .merged j false => .ok (g.setJoin j, false)
    | .merged j true => do
      let g ← (g.setJoin j).feed oracle j.position f
      return (g, true)

/-- The first handler whose entry frame has changed since it was last analyzed: its label, where its
code starts, its frame, and the graph with the change noted. -/
def nextPending? (g : JoinGraph) : Option ((Label × Nat × Frame) × JoinGraph) :=
  match g.joins.find? JoinPoint.isPending with
  | none => none
  | some j => j.merged.map fun f =>
    ((j.label, j.position + 1, f), g.setJoin (j.withPending false))

end JoinGraph

end JvmFrames

import JvmFrames.Frame.Effect
import JvmFrames.JoinGraph.Flow

/-!
# Running a body over frames

The machine follows one path at a time, node by node. A path ends where control leaves the method or
where nothing new arrives at a join point; a join point that changes starts a path of its own. When
no path is left, the handlers whose entry frames have changed are taken up one by one, and when none
is left either, every join point has its final frame.

`Machine.step` handles one node and is total; `Machine.run` repeats it as long as fuel lasts.
-/

namespace JvmFrames

/-- An instruction that could not be executed, with the frame it was reached with. -/
structure Incident where
  error : FrameError
  node : Node
  frame : Frame

/-- Decides about an incident, knowing the earlier ones, the latest of them first: gives the frame
to go on with, or none to give up. -/
abbrev Recovery : Type := List Incident → Incident → Option Frame

/-- What stays the same while a body is analyzed. -/
structure Body where
  method : Method
  code : Code
  oracle : Oracle
  recovery : Option Recovery

structure Machine where
  graph : JoinGraph
  /-- Paths still to follow, the latest first. -/
  work : List (Nat × Frame)
  /-- The path being followed: where it stands, and the frame there. -/
  path : Option (Nat × Frame)
  maxima : Maxima
  /-- The incidents put before the recovery, the latest first. -/
  incidents : List Incident

/-- What comes after a step. -/
inductive Verdict where
  | running (machine : Machine)
  | finished (machine : Machine)
  | failed (machine : Machine) (error : Error)

/-- The label right before a position. -/
def Code.siteBefore? (code : Code) (position : Nat) : Option Label :=
  match position with
  | 0 => none
  | p + 1 => code.nodes[p]?.bind Node.label?

/-- A frame arrives at each of some labels. Those that change are to be followed from there. -/
def JoinGraph.markTargets (oracle : Oracle) (f : Frame) :
    List Label → JoinGraph → List (Nat × Frame) → Outcome (JoinGraph × List (Nat × Frame))
  | [], g, work => .ok (g, work)
  | label :: rest, g, work => do
    let (g, changed) ← g.mark oracle label f
    match changed, g.join? label with
    | true, some j => markTargets oracle f rest g ((j.position + 1, j.merged.getD f) :: work)
    | _, _ => markTargets oracle f rest g work

namespace Machine

/-- Before the first step: the path from the start of the body is to be followed. -/
def start (body : Body) (graph : JoinGraph) : Machine where
  graph
  work := [(0, Frame.entry body.method)]
  path := none
  maxima := .zero
  incidents := []

/-- Takes up a path. -/
def follow (m : Machine) (position : Nat) (f : Frame) : Machine :=
  { m with path := some (position, f), maxima := m.maxima.cover f }

/-- Goes on to a position with an unchanged frame. -/
def moveTo (m : Machine) (position : Nat) (f : Frame) : Machine :=
  { m with path := some (position, f) }

/-- Ends the current path. -/
def leave (m : Machine) : Machine := { m with path := none }

/-- Puts a failed instruction before the recovery, if there is one and it has a say. Gives the frame
to go on with, or the error to report. -/
def recover (body : Body) (m : Machine) (position : Nat) (node : Node) (f : Frame)
    (error : FrameError) : Machine × Except Error Frame :=
  let failure := Error.verifier position (.node node) f.snapshot error
  match body.recovery with
  | none => (m, .error failure)
  | some recovery =>
    if error.isRecoverable then
      let incident : Incident := ⟨error, node, f⟩
      let noted := { m with incidents := incident :: m.incidents }
      match recovery m.incidents incident with
      | some g => (noted, .ok g)
      | none => (noted, .error failure)
    else (m, .error failure)

/-- Feeds the handlers at a position and executes the node there. The outcome of the execution is
given; if it is a failure, the recovery may still supply a frame. -/
def perform (body : Body) (m : Machine) (position : Nat) (node : Node) (f : Frame)
    (outcome : Frame.Outcome Frame) : Machine × Except Error Frame :=
  match m.graph.feed body.oracle position f with
  | .error fault => ({ m with graph := fault.left }, .error fault.cause)
  | .ok graph =>
    let m := { m with graph }
    match outcome with
    | .ok g => (m, .ok g)
    | .error fault => recover body m position node f fault.cause

/-- Passes the label at a position. -/
def passLabel (body : Body) (m : Machine) (position : Nat) (f : Frame) (label : Label) : Verdict :=
  if m.graph.isJoin label then
    match m.graph.mark body.oracle label f with
    | .error fault => .failed { m with graph := fault.left } fault.cause
    | .ok (graph, false) => .running { m with graph }.leave
    | .ok (graph, true) =>
      .running ({ m with graph }.moveTo (position + 1) ((graph.frameAt? label).getD f))
  else .running (m.moveTo (position + 1) f)

/-- Executes the instruction at a position. -/
def passInsn (body : Body) (m : Machine) (position : Nat) (f : Frame) (i : Instruction) : Verdict :=
  let site := body.code.siteBefore? position
  match m.perform body position (.insn i) f (f.execute body.method.className site i) with
  | (m, .error e) => .failed m e
  | (m, .ok g) => .running (m.follow (position + 1) g)

/-- Executes the branch at a position. -/
def passBranch (body : Body) (m : Machine) (position : Nat) (f : Frame) (b : Branch) : Verdict :=
  let result := body.method.descriptor.result
  match m.perform body position (.branch b) f (f.executeBranch result b) with
  | (m, .error e) => .failed m e
  | (m, .ok g) =>
    let m := m.follow (position + 1) g
    match JoinGraph.markTargets body.oracle g b.targets m.graph m.work with
    | .error fault => .failed { m with graph := fault.left } fault.cause
    | .ok (graph, work) =>
      let m := { m with graph, work }
      .running (if b.fallsThrough then m else m.leave)

/-- One step: takes up the next path, or passes one node of the current path. -/
def step (body : Body) (m : Machine) : Verdict :=
  match m.path with
  | none => match m.work with
    | (position, f) :: work => .running ({ m with work }.follow position f)
    | [] => match m.graph.nextPending? with
      | some ((_, position, f), graph) => .running ({ m with graph }.follow position f)
      | none => .finished m
  | some (position, f) => match body.code.nodes[position]? with
    | none => .failed m (.verifier position .endOfCode f.snapshot .fallsOffEnd)
    | some (.label l) => m.passLabel body position f l
    | some (.frame _) => .running (m.moveTo (position + 1) f)
    | some (.insn i) => m.passInsn body position f i
    | some (.branch b) => m.passBranch body position f b

/-- Steps until the machine stops: gives its last state and the error that stopped it, if one did.
None if the fuel does not last. -/
def run (body : Body) : (fuel : Nat) → Machine → Option (Machine × Option Error)
  | 0, _ => none
  | fuel + 1, m => match m.step body with
    | .running m => run body fuel m
    | .finished m => some (m, none)
    | .failed m e => some (m, some e)

end Machine

end JvmFrames

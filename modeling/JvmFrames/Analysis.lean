import JvmFrames.Analysis.Directive
import JvmFrames.Analysis.Machine
import JvmFrames.JoinGraph.Build

/-!
# Analysis of a body

The maximum words of stack and locals of a body, and the frames at its join points.
-/

namespace JvmFrames

structure Analysis where
  maxStack : UInt16
  maxLocals : UInt16
  /-- The frame on entry, which the first directive is compressed against. -/
  entry : Snapshot VType
  /-- The frames at the reached join points, in order of position. A run of labels before one
  instruction shares one frame. -/
  frames : List Directive
  deriving DecidableEq

structure Settings where
  /-- Put the frames into the body, in place of any that were there. -/
  insertFrames : Bool
  /-- What to do about an instruction that cannot be executed; without it analysis fails. -/
  recovery : Option Recovery

namespace Settings

/-- Leave the body without frames, and fail at the first error. -/
def plain : Settings := ⟨false, none⟩

end Settings

/-- What analyzing a body leaves behind, whether it succeeds or not. -/
structure Report where
  /-- The body with its allocations labelled, and with frames if they were asked for. -/
  code : Code
  /-- The incidents put before the recovery, in order. -/
  incidents : List Incident
  result : Except Error Analysis

/-- The largest number of words a method may use. -/
def maxWords : Nat := 65535

namespace Analysis

/-- The body as it is analyzed. -/
def prepare (settings : Settings) (code : Code) : Code :=
  (if settings.insertFrames then code.removeFrames else code).labelAllocations

/-- Collects the results once the machine has finished: the analysis, and the body with the frames
in it. -/
def conclude (method : Method) (code : Code) (m : Machine) : Except Error (Analysis × Code) :=
  if maxWords < m.maxima.stack then .error (.maxStackOverflow m.maxima.stack)
  else if maxWords < m.maxima.locals then .error (.maxLocalsOverflow m.maxima.locals)
  else
    let entry := (Frame.entry method).snapshot
    let reached := reachedAnchors m.graph code
    let frames := directivesFrom entry (reached.map (·.2))
    let placed := (reached.map (·.1)).zip (frames.map (·.frame))
    let woven := { code with nodes := (weaveFrames 0 code.nodes.toList placed).toArray }
    .ok (⟨m.maxima.stack.toUInt16, m.maxima.locals.toUInt16, entry, frames⟩, woven)

/-- The report on a machine that has stopped. -/
def report (settings : Settings) (body : Body) (m : Machine) (error : Option Error) : Report :=
  let incidents := m.incidents.reverse
  match error with
  | some e => ⟨body.code, incidents, .error e⟩
  | none => match conclude body.method body.code m with
    | .error e => ⟨body.code, incidents, .error e⟩
    | .ok (analysis, woven) =>
      ⟨if settings.insertFrames then woven else body.code, incidents, .ok analysis⟩

end Analysis

/-- Analyzes a body. The fuel bounds the steps of the machine: there is no report if it does not
last, and more fuel never changes a report. -/
def analyze (fuel : Nat) (oracle : Oracle) (settings : Settings) (method : Method) (code : Code)
    (ranges : List ProtectedRange) : Option Report :=
  let code := Analysis.prepare settings code
  match JoinGraph.build oracle code ranges with
  | .error e => some ⟨code, [], .error e⟩
  | .ok graph =>
    let body : Body := ⟨method, code, oracle, settings.recovery⟩
    match Machine.run body fuel (.start body graph) with
    | none => none
    | some (m, error) => some (Analysis.report settings body m error)

end JvmFrames

import JvmFrames.Journal.Frame

/-!
# Events of frames flowing into join points

Each function tells what happens while the operation of the same name runs, up to where it fails.
-/

namespace JvmFrames

namespace JoinGraph

/-- The events of finding the join points of a body. -/
def buildEvents (oracle : Oracle) (code : Code) (ranges : List ProtectedRange) : List Event :=
  let found := match build oracle code ranges with
    | .error _ => []
    | .ok g => [.joinsFound g.joins.length code.size]
  Event.questions (buildQuestions oracle code ranges) ++ found

def feedHandlerEvents (oracle : Oracle) (g : JoinGraph) (f : Frame) (label : Label) : List Event :=
  match g.join? label with
  | none => []
  | some j => match j.handler with
    | none => []
    | some h =>
      let changed := match j.arrive oracle (f.entering h) with
        | .merged j true => [.handlerChanged label (j.merged.getD f)]
        | _ => []
      Event.questions (j.arrivalQuestions oracle (f.entering h)) ++ changed

def feedHandlersEvents (oracle : Oracle) (f : Frame) : List Label → JoinGraph → List Event
  | [], _ => []
  | label :: rest, g =>
    let later := match g.feedHandler oracle f label with
      | .error _ => []
      | .ok g => feedHandlersEvents oracle f rest g
    g.feedHandlerEvents oracle f label ++ later

def feedEvents (oracle : Oracle) (g : JoinGraph) (position : Nat) (f : Frame) : List Event :=
  feedHandlersEvents oracle f (g.protectors position) g

def markEvents (oracle : Oracle) (g : JoinGraph) (label : Label) (f : Frame) : List Event :=
  match g.join? label with
  | none => []
  | some j =>
    let changed := match j.arrive oracle f with
      | .merged j true => .labelChanged label (j.merged.getD f)
        :: (g.setJoin j).feedEvents oracle j.position f
      | _ => []
    Event.questions (j.arrivalQuestions oracle f) ++ changed

def markTargetsEvents (oracle : Oracle) (f : Frame) : List Label → JoinGraph → List Event
  | [], _ => []
  | label :: rest, g =>
    let later := match g.mark oracle label f with
      | .error _ => []
      | .ok (g, _) => markTargetsEvents oracle f rest g
    g.markEvents oracle label f ++ later

end JoinGraph

end JvmFrames

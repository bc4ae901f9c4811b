import JvmFrames.Journal.Flow

/-!
# Events of an analysis

The journal of a whole analysis: the events of finding the join points, then those of each step of
the machine, then those of collecting the results.
-/

namespace JvmFrames

namespace Machine

/-- The events of feeding the handlers at a position and executing the node there. Those of the
execution are given. -/
def performEvents (body : Body) (m : Machine) (position : Nat) (node : Node) (f : Frame)
    (outcome : Frame.Outcome Frame) (events : List Event) : List Event :=
  let executed := match m.graph.feed body.oracle position f, outcome with
    | .error _, _ => []
    | .ok _, .ok _ => events
    | .ok _, .error fault => match m.perform body position node f outcome with
      | (_, .ok _) => events ++ [.recovered position node fault.cause]
      | (_, .error _) => events
  m.graph.feedEvents body.oracle position f ++ executed

/-- The events of passing one node. -/
def passEvents (body : Body) (m : Machine) (position : Nat) (f : Frame) : Node → List Event
  | .label l => if m.graph.isJoin l then m.graph.markEvents body.oracle l f else []
  | .frame _ => []
  | .insn i =>
    let this := body.method.className
    m.performEvents body position (.insn i) f
      (f.execute this (body.code.siteBefore? position) i) (f.executeEvents this i)
  | .branch b =>
    let result := body.method.descriptor.result
    let outcome := f.executeBranch result b
    let marked := match m.perform body position (.branch b) f outcome with
      | (_, .error _) => []
      | (m, .ok g) => JoinGraph.markTargetsEvents body.oracle g b.targets m.graph
    m.performEvents body position (.branch b) f outcome (f.executeBranchEvents result b) ++ marked

/-- The events of one step. -/
def stepEvents (body : Body) (m : Machine) : List Event :=
  match m.path with
  | none => match m.work, m.graph.nextPending? with
    | [], some ((label, _, f), _) => [.handlerEntered label f]
    | _, _ => []
  | some (position, f) => match body.code.nodes[position]? with
    | none => []
    | some node => .passing position node :: m.passEvents body position f node

/-- The events of running a machine, after those in `earlier`. -/
def runEvents (body : Body) (earlier : Array Event) : (fuel : Nat) → Machine → Array Event
  | 0, _ => earlier
  | fuel + 1, m =>
    let events := earlier ++ m.stepEvents body
    match m.step body with
    | .running m => runEvents body events fuel m
    | _ => events

end Machine

/-- The events of collecting the results. -/
def Analysis.concludeEvents (method : Method) (code : Code) (m : Machine) : List Event :=
  match conclude method code m with
  | .error _ => []
  | .ok (analysis, _) =>
    (unreachedAnchors m.graph code).map .unreachable ++ [.analyzed method analysis]

/-- The journal of an analysis. -/
def analysisEvents (fuel : Nat) (oracle : Oracle) (settings : Settings) (method : Method)
    (code : Code) (ranges : List ProtectedRange) : List Event :=
  let code := Analysis.prepare settings code
  let found := JoinGraph.buildEvents oracle code ranges
  match JoinGraph.build oracle code ranges with
  | .error _ => found
  | .ok graph =>
    let body : Body := ⟨method, code, oracle, settings.recovery⟩
    let start := Machine.start body graph
    let concluded := match Machine.run body fuel start with
      | some (m, none) => Analysis.concludeEvents method code m
      | _ => []
    found ++ (Machine.runEvents body #[] fuel start).toList ++ concluded

end JvmFrames

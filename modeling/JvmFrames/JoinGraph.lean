import JvmFrames.Frame.Merge

/-!
# Join points

The places of a body that more than one path may lead to: targets of jumps and entries of handlers.
Each has the merge of the frames that have reached it so far. Labels that nothing jumps to are mere
marks and have no join point.
-/

namespace JvmFrames

/-- A handler's own part of a join point. -/
structure HandlerState where
  /-- What the exceptions of all ranges of the handler have in common. -/
  catchType : RefType
  /-- The entry frame has changed since the handler was last analyzed. -/
  pending : Bool
  deriving DecidableEq

structure JoinPoint where
  label : Label
  /-- The index of the label in the body. -/
  position : Nat
  /-- The merge of the frames that have arrived; none before the first one. -/
  merged : Option Frame
  /-- The snapshots of the frames that have arrived. -/
  seen : List (Snapshot VType)
  /-- Set for the entry of a handler. -/
  handler : Option HandlerState
  deriving DecidableEq

/-- A range of positions and the handler that protects it. -/
structure Guard where
  start : Nat
  stop : Nat
  handler : Label
  deriving DecidableEq

def Guard.covers (g : Guard) (position : Nat) : Bool :=
  g.start ≤ position ∧ position < g.stop

structure JoinGraph where
  /-- Every label of the body with its index. -/
  placements : List (Label × Nat)
  /-- The join points in the order they were found. -/
  joins : List JoinPoint
  /-- The protected ranges in the order of the exception table. -/
  guards : List Guard
  deriving DecidableEq

/-- A join point that nothing has reached. -/
def JoinPoint.unreached (label : Label) (position : Nat) : JoinPoint :=
  ⟨label, position, none, [], none⟩

/-- A handler whose entry frame has changed since it was analyzed. -/
def JoinPoint.isPending (j : JoinPoint) : Bool :=
  match j.handler with
  | some h => h.pending
  | none => false

/-- With the mark of a change set or cleared. -/
def JoinPoint.withPending (j : JoinPoint) (pending : Bool) : JoinPoint :=
  { j with handler := j.handler.map fun h => { h with pending } }

namespace JoinGraph

/-- The index of a label that is placed in the body. -/
def position (g : JoinGraph) (label : Label) : Except Error Nat :=
  match g.placements.lookup label with
  | some p => .ok p
  | none => .error (.unknownLabel label)

def join? (g : JoinGraph) (label : Label) : Option JoinPoint :=
  g.joins.find? fun j => j.label = label

def isJoin (g : JoinGraph) (label : Label) : Bool := (g.join? label).isSome

/-- The merged frame at a join point that has been reached. -/
def frameAt? (g : JoinGraph) (label : Label) : Option Frame :=
  (g.join? label).bind (·.merged)

/-- What the exceptions that reach a handler have in common. -/
def catchType? (g : JoinGraph) (label : Label) : Option RefType :=
  (g.join? label).bind fun j => j.handler.map (·.catchType)

/-- The handlers that protect a position, in the order of the exception table, each once. -/
def protectors (g : JoinGraph) (position : Nat) : List Label :=
  ((g.guards.filter fun guard => guard.covers position).map (·.handler)).eraseDups

/-- With a join point in place of the one with its label. -/
def setJoin (g : JoinGraph) (j : JoinPoint) : JoinGraph :=
  { g with joins := g.joins.map fun k => if k.label = j.label then j else k }

/-- With a join point for a label, if it has none. -/
def addJoin (g : JoinGraph) (label : Label) (position : Nat) : JoinGraph :=
  if g.isJoin label then g
  else { g with joins := g.joins ++ [.unreached label position] }

end JoinGraph

end JvmFrames

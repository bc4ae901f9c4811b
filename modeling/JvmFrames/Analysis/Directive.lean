import JvmFrames.JoinGraph

/-!
# Frames to emit

Each instruction that a join point leads to needs its frame. A run of labels with no instruction in
between shares one: that of the last join point of the run, its anchor. Join points that were never
reached get none.
-/

namespace JvmFrames

/-- A frame to emit for the first instruction after a label. -/
structure Directive where
  label : Label
  snapshot : Snapshot VType
  /-- The snapshot as a difference from the directive before, or from the frame on entry. -/
  frame : StackMapFrame VType
  deriving DecidableEq

/-- The instructions that directly follow a join point, by position, with the last join point before
each. -/
def anchorsFrom (g : JoinGraph) (position : Nat) (anchor : Option Label) :
    List Node → List (Nat × Label)
  | [] => []
  | .label l :: rest =>
    anchorsFrom g (position + 1) (if g.isJoin l then some l else anchor) rest
  | .frame _ :: rest => anchorsFrom g (position + 1) anchor rest
  | .insn _ :: rest | .branch _ :: rest => match anchor with
    | none => anchorsFrom g (position + 1) none rest
    | some l => (position, l) :: anchorsFrom g (position + 1) none rest

def anchors (g : JoinGraph) (code : Code) : List (Nat × Label) :=
  anchorsFrom g 0 none code.nodes.toList

/-- The anchors that were reached, with their snapshots. -/
def reachedAnchors (g : JoinGraph) (code : Code) : List (Nat × Label × Snapshot VType) :=
  (anchors g code).filterMap fun (position, l) =>
    (g.frameAt? l).map fun f => (position, l, f.snapshot)

/-- The anchors that no path leads to. -/
def unreachedAnchors (g : JoinGraph) (code : Code) : List Label :=
  ((anchors g code).filter fun (_, l) => (g.frameAt? l).isNone).map (·.2)

/-- Compresses snapshots one after the other. -/
def directivesFrom (previous : Snapshot VType) : List (Label × Snapshot VType) → List Directive
  | [] => []
  | (l, s) :: rest => ⟨l, s, previous.compress s⟩ :: directivesFrom s rest

/-- The nodes from a position on, with each frame put before the node at its position. -/
def weaveFrames (position : Nat) : List Node → List (Nat × StackMapFrame VType) → List Node
  | node :: rest, (p, frame) :: frames =>
    if p = position then .frame frame :: node :: weaveFrames (position + 1) rest frames
    else node :: weaveFrames (position + 1) rest ((p, frame) :: frames)
  | nodes, _ => nodes

end JvmFrames

import JvmFrames.JoinGraph

/-!
# Finding the join points of a body

Every `new` gets a label right before it, which names the allocation. After that no label may be
placed twice, and every label that a jump or the exception table names must be placed.
-/

namespace JvmFrames

/-- The nodes with a label before each `new` that has none, and the next label to hand out. -/
def labelAllocations : (afterLabel : Bool) → (next : Nat) → List Node → List Node × Nat
  | _, next, [] => ([], next)
  | afterLabel, next, node :: rest =>
    match node, afterLabel with
    | .insn (.new c), false =>
      let (rest, last) := labelAllocations false (next + 1) rest
      (.label ⟨next⟩ :: .insn (.new c) :: rest, last)
    | node, _ =>
      let (rest, last) := labelAllocations node.label?.isSome next rest
      (node :: rest, last)

/-- With a label right before each `new`. -/
def Code.labelAllocations (code : Code) : Code :=
  let (nodes, next) := JvmFrames.labelAllocations false code.nextLabel code.nodes.toList
  ⟨nodes.toArray, next⟩

/-- The labels of a list of nodes with their indices, counted from `index`. -/
def placementsFrom (index : Nat) : List Node → List (Label × Nat)
  | [] => []
  | .label l :: rest => (l, index) :: placementsFrom (index + 1) rest
  | _ :: rest => placementsFrom (index + 1) rest

/-- The first label that is placed a second time. -/
def repeatedLabel? (seen : List Label) : List Label → Option Label
  | [] => none
  | l :: rest => if l ∈ seen then some l else repeatedLabel? (l :: seen) rest

namespace JoinGraph

/-- No join points, over the labels of a body. -/
def ofPlacements (code : Code) : Except Error JoinGraph :=
  let placements := placementsFrom 0 code.nodes.toList
  match repeatedLabel? [] (placements.map (·.1)) with
  | some l => .error (.duplicateLabel l)
  | none => .ok ⟨placements, [], []⟩

/-- With a join point at each target of a list. -/
def addTargets (g : JoinGraph) : List Label → Except Error JoinGraph
  | [] => .ok g
  | l :: rest => do
    let p ← g.position l
    (g.addJoin l p).addTargets rest

/-- With the entry of a handler and the positions it protects. Where a handler has several ranges,
its exceptions are all of their common type. -/
def addRange (oracle : Oracle) (g : JoinGraph) (range : ProtectedRange) :
    Except Error JoinGraph := do
  let start ← g.position range.start
  let stop ← g.position range.stop
  let entry ← g.position range.handler
  let g := g.addJoin range.handler entry
  let g : JoinGraph := { g with guards := g.guards ++ [⟨start, stop, range.handler⟩] }
  match g.join? range.handler with
  | none => return g
  | some j =>
    let state : HandlerState := match j.handler with
      | none => ⟨range.caught, false⟩
      | some h => { h with catchType := oracle h.catchType range.caught }
    return g.setJoin { j with handler := some state }

def addRanges (oracle : Oracle) (g : JoinGraph) : List ProtectedRange → Except Error JoinGraph
  | [] => .ok g
  | range :: rest => do
    let g ← g.addRange oracle range
    g.addRanges oracle rest

/-- The labels that the branches of a body may jump to, in order. -/
def jumpTargets (nodes : List Node) : List Label :=
  nodes.flatMap fun node => match node with
    | .branch b => b.targets
    | _ => []

/-- The targets of all jumps, before any handlers. -/
def ofJumps (code : Code) : Except Error JoinGraph := do
  let g ← ofPlacements code
  g.addTargets (jumpTargets code.nodes.toList)

/-- The join points of a body whose allocations are labelled. -/
def build (oracle : Oracle) (code : Code) (ranges : List ProtectedRange) :
    Except Error JoinGraph := do
  let g ← ofJumps code
  g.addRanges oracle ranges

/-- The questions that adding ranges asks of the oracle, in order. -/
def rangeQuestions (oracle : Oracle) (g : JoinGraph) :
    List ProtectedRange → List (RefType × RefType)
  | [] => []
  | range :: rest => match g.addRange oracle range with
    | .error _ => []
    | .ok g' =>
      let asked := match g.catchType? range.handler with
        | some t => [(t, range.caught)]
        | none => []
      asked ++ rangeQuestions oracle g' rest

/-- The questions that finding the join points asks of the oracle, in order. -/
def buildQuestions (oracle : Oracle) (code : Code) (ranges : List ProtectedRange) :
    List (RefType × RefType) :=
  match ofJumps code with
  | .error _ => []
  | .ok g => g.rangeQuestions oracle ranges

end JoinGraph

end JvmFrames

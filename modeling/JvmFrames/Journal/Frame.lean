import JvmFrames.Journal

/-!
# Events of executing instructions

What is worth noting when an instruction or a branch fails, and when frames merge.
-/

namespace JvmFrames

/-- Questions as events. -/
def Event.questions (asked : List (RefType × RefType)) : List Event :=
  asked.map fun (a, b) => .asked a b

namespace Frame

/-- What is wrong with a call, if its arguments or its receiver are refused. A missing receiver of a
constructor is not worth a complaint. -/
def callComplaints (this : ClassName) (kind : InvokeKind) (m : MethodRef) (f : Frame) :
    List Complaint :=
  match f.perform (Action.takeArguments m.descriptor) with
  | .error fault => [.arguments fault.cause m.descriptor]
  | .ok g => match g.perform (Action.takeReceiver this kind m) with
    | .ok _ => []
    | .error fault =>
      if kind = .special ∧ m.isConstructor then
        match fault.cause with
        | .typeMismatch _ found => [.constructorOn found m.descriptor]
        | _ => []
      else [.receiver fault.cause m.descriptor]

/-- The events of executing an instruction. -/
def executeEvents (this : ClassName) (i : Instruction) (f : Frame) : List Event :=
  match i with
  | .invoke kind m => (f.callComplaints this kind m).map .complained
  | _ => []

/-- The events of executing a branch: a return whose value is there, and is not what the method
returns, is worth a complaint. -/
def executeBranchEvents (result : Option FieldType) (b : Branch) (f : Frame) : List Event :=
  match f.executeBranch result b with
  | .error ⟨.typeMismatch (.result _) _, _⟩ => [.complained (.result b result)]
  | _ => []

/-- The events of merging a frame into another. -/
def mergeEvents (oracle : Oracle) (f g : Frame) : List Event :=
  Event.questions (f.mergeQuestions oracle g)

end Frame

end JvmFrames

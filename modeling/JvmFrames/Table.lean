import JvmFrames.Analysis.Directive

/-!
# Stack map tables

The frames of a method laid out by code offset: labels and classes have become numbers, and each
frame is compressed against the one before it in the code.
-/

namespace JvmFrames

/-- Turns labels into code offsets and classes into constant pool indices. Answers may depend on,
and change, what the monad keeps: a class may be entered into the pool when it is asked for. -/
structure Resolver (m : Type → Type) where
  /-- The offset of the first instruction after a label. -/
  labelOffset : Label → m (Option UInt16)
  classIndex : RefType → m (Option UInt16)

structure TableEntry where
  /-- The distance from the entry before, less one; for the first entry, its offset. -/
  offsetDelta : UInt16
  frame : StackMapFrame EncodedType
  deriving DecidableEq

structure StackMapTable where
  entries : List TableEntry
  deriving DecidableEq

/-- The name of the attribute that holds the table. -/
def StackMapTable.attributeName : String := "StackMapTable"

namespace Resolver

variable {m : Type → Type} [Monad m]

def offsetOf (r : Resolver m) (label : Label) : ExceptT Error m UInt16 := do
  match ← r.labelOffset label with
  | some offset => return offset
  | none => throw (.unknownLabel label)

def indexOf (r : Resolver m) (type : RefType) : ExceptT Error m UInt16 := do
  match ← r.classIndex type with
  | some index => return index
  | none => throw (.missingClass type)

def snapshot (r : Resolver m) (s : Snapshot VType) : ExceptT Error m (Snapshot EncodedType) :=
  s.mapM (VerificationType.mapM r.indexOf fun u => r.offsetOf u.site)

/-- The offset and the encoded snapshot of a directive. -/
def directive (r : Resolver m) (label : Label) (s : Snapshot VType) :
    ExceptT Error m (UInt16 × Snapshot EncodedType) := do
  let offset ← r.offsetOf label
  let s ← r.snapshot s
  return (offset, s)

end Resolver

namespace StackMapTable

/-- The entries for snapshots in order of offset, after a snapshot at `last`, or at the start of the
code. A snapshot that is repeated at one offset is left out; a different one at the same offset is
an error. -/
def entriesFrom (previous : Snapshot EncodedType) (last : Option UInt16) :
    List (UInt16 × Snapshot EncodedType) → Except Error (List TableEntry)
  | [] => .ok []
  | (offset, s) :: rest =>
    match last with
    | none => do
      let entries ← entriesFrom s (some offset) rest
      return ⟨offset, previous.compress s⟩ :: entries
    | some lastOffset =>
      if lastOffset = offset then
        if s = previous then entriesFrom previous last rest
        else .error (.conflictingFrames offset previous s)
      else do
        let entries ← entriesFrom s (some offset) rest
        return ⟨offset - lastOffset - 1, previous.compress s⟩ :: entries

/-- Lays out snapshots by offset, those of one offset in the order given. -/
def layOut (entry : Snapshot EncodedType) (frames : List (UInt16 × Snapshot EncodedType)) :
    Except Error StackMapTable := do
  let entries ← entriesFrom entry none (frames.mergeSort fun a b => a.1 ≤ b.1)
  return ⟨entries⟩

/-- The table for snapshots at labels, after the frame on entry. -/
def ofSnapshots {m : Type → Type} [Monad m] (r : Resolver m) (entry : Snapshot VType)
    (frames : List (Label × Snapshot VType)) : ExceptT Error m StackMapTable := do
  let entry ← r.snapshot entry
  let resolved ← frames.mapM fun (label, s) => r.directive label s
  liftM (layOut entry resolved)

end StackMapTable

end JvmFrames

import JvmFrames.Snapshot

/-!
# Compressed frames

A stack map frame says how a snapshot differs from the one before it. `Snapshot.compress` picks the
frame for a pair of snapshots, `StackMapFrame.apply` reads it back.
-/

namespace JvmFrames

inductive StackMapFrame (α : Type) where
  /-- The same locals, and an empty stack. -/
  | same
  /-- The same locals, and one value on the stack. -/
  | sameLocalsOneStack (value : α)
  /-- Without the last locals, and an empty stack. -/
  | chop (count : UInt8)
  /-- With further locals, and an empty stack. -/
  | append (extra : List α)
  /-- The locals and the stack in full. -/
  | full (snapshot : Snapshot α)
  deriving DecidableEq

/-- Up to this many locals may be chopped or appended. -/
def maxLocalsDifference : Nat := 3

/-- The smallest frame that leads from `previous` to `s`. A full one is used only if no other kind
can tell the difference. -/
def Snapshot.compress {α : Type} [DecidableEq α] (previous s : Snapshot α) : StackMapFrame α :=
  match s.stack with
  | [] =>
    if s.locals.length ≤ previous.locals.length then
      let fewer := previous.locals.length - s.locals.length
      if fewer ≤ maxLocalsDifference ∧ s.locals <+: previous.locals then
        if fewer = 0 then .same else .chop fewer.toUInt8
      else .full s
    else if s.locals.length - previous.locals.length ≤ maxLocalsDifference
        ∧ previous.locals <+: s.locals then
      .append (s.locals.drop previous.locals.length)
    else .full s
  | [v] => if s.locals = previous.locals then .sameLocalsOneStack v else .full s
  | _ => .full s

namespace StackMapFrame

variable {α β : Type}

/-- The snapshot a frame stands for after `previous`. Chopping more locals than there are stands for
none. -/
def apply (previous : Snapshot α) : StackMapFrame α → Option (Snapshot α)
  | same => some ⟨previous.locals, []⟩
  | sameLocalsOneStack v => some ⟨previous.locals, [v]⟩
  | chop n =>
    if n.toNat ≤ previous.locals.length then
      some ⟨previous.locals.take (previous.locals.length - n.toNat), []⟩
    else none
  | append extra => some ⟨previous.locals ++ extra, []⟩
  | full s => some s

/-- With each value replaced by what a computation makes of it, in order. -/
def mapM {m : Type → Type} [Monad m] (f : α → m β) : StackMapFrame α → m (StackMapFrame β)
  | same => pure same
  | sameLocalsOneStack v => return sameLocalsOneStack (← f v)
  | chop n => pure (chop n)
  | append extra => return append (← extra.mapM f)
  | full s => return full (← s.mapM f)

/-- One to three locals are chopped or appended, as a table can tell it. -/
def WithinLimits : StackMapFrame α → Prop
  | chop n => 1 ≤ n.toNat ∧ n.toNat ≤ 3
  | append extra => 1 ≤ extra.length ∧ extra.length ≤ 3
  | _ => True

end StackMapFrame

instance {α : Type} [Describe α] : Describe (StackMapFrame α) where
  describe
    | .same => "Same"
    | .sameLocalsOneStack v => Text.applied "SameLocalsOneStack" [describe v]
    | .chop n => Text.applied "Chop" [describe n]
    | .append extra => Text.applied "Append" [describe extra]
    | .full s => Text.applied "Full" [describe s]

end JvmFrames

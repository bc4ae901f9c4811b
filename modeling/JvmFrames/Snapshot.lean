import JvmFrames.VerificationType

/-!
# Snapshots

The locals and the stack at a point of the code, one item per value. A snapshot of a frame has no
unusable locals at its end, so frames that differ only there have equal snapshots.
-/

namespace JvmFrames

/-- Locals and stack, the bottom of the stack first. -/
structure Snapshot (α : Type) where
  locals : List α
  stack : List α
  deriving DecidableEq

namespace Snapshot

variable {α β κ υ : Type}

/-- A list without the `top`s at its end. -/
def trim (values : List (VerificationType κ υ)) : List (VerificationType κ υ) :=
  (values.reverse.dropWhile fun v => match v with
    | .top => true
    | _ => false).reverse

/-- A snapshot of the given values, without unusable locals at the end. -/
def ofValues (locals stack : List (VerificationType κ υ)) : Snapshot (VerificationType κ υ) :=
  ⟨trim locals, stack⟩

/-- With each value replaced by what a computation makes of it: the locals first, then the stack. -/
def mapM {m : Type → Type} [Monad m] (f : α → m β) (s : Snapshot α) : m (Snapshot β) := do
  let locals ← s.locals.mapM f
  let stack ← s.stack.mapM f
  return ⟨locals, stack⟩

end Snapshot

instance {α : Type} [Describe α] : Describe (Snapshot α) where
  describe s := Text.record "FrameSnapshot"
    [("locals", describe s.locals), ("stack", describe s.stack)]

end JvmFrames

import JvmFrames.Text

/-!
# Labels

A label marks a place in a body; jumps, protected ranges and allocations refer to places by label.
-/

namespace JvmFrames

structure Label where
  id : Nat
  deriving DecidableEq

instance : Describe Label := ⟨fun l => "l" ++ describe l.id⟩

end JvmFrames

import JvmFrames.StackMapFrame
import Mathlib.Tactic.Common

/-!
# Compression is lossless and canonical

The frame picked for a pair of snapshots leads from the first to the second
(`Snapshot.apply_compress`), and it is within the limits of a table
(`Snapshot.withinLimits_compress`). Any other frame within them that leads there is the full one:
each of the other kinds fixes the stack and the difference in length, so that at most one of them
fits a pair.
-/

namespace JvmFrames

variable {α : Type}

/-- A difference that may be chopped fits a byte. -/
theorem toNat_toUInt8_of_le {n : Nat} (h : n ≤ maxLocalsDifference) : n.toUInt8.toNat = n := by
  have small : n ≤ 3 := h
  exact Nat.mod_eq_of_lt (by omega)

/-- Chopping what a prefix of the locals leaves over leads to this prefix. -/
theorem StackMapFrame.apply_chop_of_prefix {previous : Snapshot α} {locals : List α}
    (fewer : previous.locals.length - locals.length ≤ maxLocalsDifference)
    (h : locals <+: previous.locals) :
    (chop (previous.locals.length - locals.length).toUInt8).apply previous
      = some ⟨locals, []⟩ := by
  have shorter : locals.length ≤ previous.locals.length := h.length_le
  rw [apply, toNat_toUInt8_of_le fewer, if_pos (Nat.sub_le ..), Nat.sub_sub_self shorter,
    ← List.prefix_iff_eq_take.1 h]

/-- Reading back a frame gives the snapshot it was made for. -/
theorem Snapshot.apply_compress [DecidableEq α] (previous s : Snapshot α) :
    (previous.compress s).apply previous = some s := by
  obtain ⟨locals, stack⟩ := s
  match stack with
  | [] =>
    unfold compress
    dsimp only
    split
    case isTrue shorter =>
      split
      case isTrue h =>
        split
        case isTrue none =>
          -- no local less, so the locals are the same
          have same : locals = previous.locals := h.2.eq_of_length (by omega)
          rw [StackMapFrame.apply, same]
        case isFalse => exact StackMapFrame.apply_chop_of_prefix h.1 h.2
      case isFalse => rfl
    case isFalse longer =>
      split
      case isTrue h =>
        have extended : previous.locals ++ locals.drop previous.locals.length = locals :=
          List.prefix_iff_eq_append.1 h.2
        rw [StackMapFrame.apply, extended]
      case isFalse => rfl
  -- one value on the stack: the short form has the same locals, or there is none
  | [v] =>
    unfold compress
    dsimp only
    split
    case isTrue same => rw [StackMapFrame.apply, same]
    case isFalse => rfl
  -- only the full form has a larger stack
  | _ :: _ :: _ => rfl

namespace Snapshot

variable [DecidableEq α] {previous s : Snapshot α}

/-- The frame picked chops or appends one to three locals, if any. -/
theorem withinLimits_compress (previous s : Snapshot α) : (previous.compress s).WithinLimits := by
  unfold compress
  dsimp only
  split
  · split
    · split
      case isTrue h =>
        split
        · trivial
        case isFalse hsome =>
          -- some locals are chopped, but no more than the limit
          have hsmall : previous.locals.length - s.locals.length ≤ 3 := h.1
          show 1 ≤ UInt8.toNat _ ∧ UInt8.toNat _ ≤ 3
          rw [toNat_toUInt8_of_le h.1]
          omega
      · trivial
    case isFalse hlonger =>
      split
      case isTrue h =>
        have hsmall : s.locals.length - previous.locals.length ≤ 3 := h.1
        show 1 ≤ (List.drop _ _).length ∧ (List.drop _ _).length ≤ 3
        rw [List.length_drop]
        omega
      · trivial
  · split <;> trivial
  · trivial

/-! ## Each kind is picked where it fits

What a frame of one kind leads to determines the stack and how many locals are more or fewer than
before, and compression decides by these two. -/

/-- The same locals and an empty stack are told in the shortest way. -/
theorem compress_same (previous : Snapshot α) : previous.compress ⟨previous.locals, []⟩ = .same := by
  simp [compress]

theorem compress_sameLocalsOneStack (previous : Snapshot α) (v : α) :
    previous.compress ⟨previous.locals, [v]⟩ = .sameLocalsOneStack v := by
  simp [compress]

/-- Up to three locals fewer are chopped. -/
theorem compress_take {n : UInt8} (hpos : 1 ≤ n.toNat) (hsmall : n.toNat ≤ 3)
    (hle : n.toNat ≤ previous.locals.length) :
    previous.compress ⟨previous.locals.take (previous.locals.length - n.toNat), []⟩ = .chop n := by
  have hlength : (previous.locals.take (previous.locals.length - n.toNat)).length
      = previous.locals.length - n.toNat := by
    rw [List.length_take]
    omega
  have hfewer : previous.locals.length - (previous.locals.length - n.toNat) = n.toNat :=
    Nat.sub_sub_self hle
  have hprefix := List.take_prefix (previous.locals.length - n.toNat) previous.locals
  unfold compress
  dsimp only
  rw [hlength, if_pos (Nat.sub_le ..), hfewer, if_pos ⟨hsmall, hprefix⟩, if_neg (by omega)]
  rw [Nat.toUInt8_eq, UInt8.ofNat_toNat]

/-- Up to three locals more are appended. -/
theorem compress_append {extra : List α} (hpos : 1 ≤ extra.length) (hsmall : extra.length ≤ 3) :
    previous.compress ⟨previous.locals ++ extra, []⟩ = .append extra := by
  have hdifference : (previous.locals ++ extra).length - previous.locals.length
      ≤ maxLocalsDifference := by
    rw [List.length_append, Nat.add_sub_cancel_left]
    exact hsmall
  have hlonger : ¬ (previous.locals ++ extra).length ≤ previous.locals.length := by
    rw [List.length_append]
    omega
  unfold compress
  dsimp only
  rw [if_neg hlonger, if_pos ⟨hdifference, List.prefix_append ..⟩, List.drop_left]

/-- A frame within the limits that leads from one snapshot to another is the full one or the one
picked for them. -/
theorem eq_full_or_eq_compress {f : StackMapFrame α} (hlimits : f.WithinLimits)
    (h : f.apply previous = some s) : f = .full s ∨ f = previous.compress s := by
  cases f with
  | same =>
    cases h
    exact Or.inr (compress_same previous).symm
  | sameLocalsOneStack v =>
    cases h
    exact Or.inr (compress_sameLocalsOneStack previous v).symm
  | chop n =>
    obtain ⟨hpos, hsmall⟩ := hlimits
    rw [StackMapFrame.apply] at h
    -- a frame that chops more locals than there are leads nowhere
    split at h
    case isTrue hle =>
      cases h
      exact Or.inr (compress_take hpos hsmall hle).symm
    case isFalse => cases h
  | append extra =>
    obtain ⟨hpos, hsmall⟩ := hlimits
    cases h
    exact Or.inr (compress_append hpos hsmall).symm
  | full t =>
    cases h
    exact Or.inl rfl

/-- Compression loses nothing and leaves no choice: the frame picked reads back, it chops or appends
one to three locals if any, and it is the only frame within these limits that reads back besides the
full one. So a full frame is picked exactly if there is no other. -/
theorem compression_lossless_and_canonical (previous s : Snapshot α) :
    (previous.compress s).apply previous = some s
      ∧ (previous.compress s).WithinLimits
      ∧ (∀ f : StackMapFrame α, f.WithinLimits → f.apply previous = some s →
          f = .full s ∨ f = previous.compress s)
      ∧ ((∃ t, previous.compress s = .full t)
          ↔ ∀ f : StackMapFrame α, f.WithinLimits → f.apply previous = some s → f = .full s) := by
  have hback := apply_compress previous s
  have hlimits := withinLimits_compress previous s
  refine ⟨hback, hlimits, fun f => eq_full_or_eq_compress, ?_,
    fun honly => ⟨s, honly _ hlimits hback⟩⟩
  rintro ⟨t, hfull⟩ f hf happly
  -- the frame picked is the full one of `s`, since it reads back
  have ht : t = s := by
    rw [hfull] at hback
    exact Option.some.inj hback
  rcases eq_full_or_eq_compress hf happly with h | h
  · exact h
  · rw [h, hfull, ht]

/-- Chopping three locals is told in short; with a fourth one gone, only the full frame is left. -/
theorem compression_lossless_and_canonical_chops :
    let previous : Snapshot Nat := ⟨[1, 2, 3, 4], []⟩
    previous.compress ⟨[1], []⟩ = .chop 3
      ∧ previous.compress ⟨[], []⟩ = .full ⟨[], []⟩
      ∧ (StackMapFrame.chop 4).apply previous = some ⟨[], []⟩
      ∧ (∀ f : StackMapFrame Nat, f.WithinLimits → f.apply previous = some ⟨[1], []⟩ →
          f = .full ⟨[1], []⟩ ∨ f = .chop 3)
      ∧ ∀ f : StackMapFrame Nat, f.WithinLimits → f.apply previous = some ⟨[], []⟩ →
          f = .full ⟨[], []⟩ := by
  intro previous
  have hchop : previous.compress ⟨[1], []⟩ = .chop 3 := by decide
  have hfull : previous.compress ⟨[], []⟩ = .full ⟨[], []⟩ := by decide
  -- `compress` is evaluated first, so that the alternatives of the theorem are concrete frames
  have hthree := (compression_lossless_and_canonical previous ⟨[1], []⟩).2.2.1
  rw [hchop] at hthree
  exact ⟨hchop, hfull, by decide, hthree,
    (compression_lossless_and_canonical previous ⟨[], []⟩).2.2.2.mp ⟨_, hfull⟩⟩

end Snapshot

end JvmFrames

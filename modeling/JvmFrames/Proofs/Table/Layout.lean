import JvmFrames.Table
import JvmFrames.Proofs.Compression
import Mathlib.Data.List.Sort

/-!
# Reading a stack map table back

The entries of a table stand for snapshots at offsets (`StackMapTable.expand`). What a table that
was laid out stands for is what it was laid out from: the same snapshots at the same offsets, each
one once and in order.

Laying out walks over the snapshots sorted by offset and leaves out those at the offset it has just
served. The walk is compared with the list of those it keeps (`StackMapTable.kept`): the entries
expand to this list, it is strictly sorted, and after a walk without a conflict it has every
snapshot that there was.
-/

namespace JvmFrames

namespace StackMapTable

/-- A snapshot at an offset. -/
abbrev Placed : Type := UInt16 × Snapshot EncodedType

/-- The offset that an entry stands for, after one at `last`, or at the start of the code. Offsets
are counted without a bound. -/
def offsetAfter : Option Nat → UInt16 → Nat
  | none, delta => delta.toNat
  | some last, delta => last + delta.toNat + 1

/-- What entries stand for, after a snapshot at `last`, or at the start of the code. -/
def expandFrom (previous : Snapshot EncodedType) (last : Option Nat) :
    List TableEntry → Option (List (Nat × Snapshot EncodedType))
  | [] => some []
  | e :: rest => do
    let s ← e.frame.apply previous
    let later ← expandFrom s (some (offsetAfter last e.offsetDelta)) rest
    return (offsetAfter last e.offsetDelta, s) :: later

/-- The offsets and snapshots that a table stands for after the frame on entry. -/
def expand (entry : Snapshot EncodedType) (t : StackMapTable) :
    Option (List (Nat × Snapshot EncodedType)) :=
  expandFrom entry none t.entries

/-- Those of a list that do not stand at the offset of the one before. -/
def kept : Option UInt16 → List Placed → List Placed
  | _, [] => []
  | last, x :: rest => if last = some x.1 then kept last rest else x :: kept (some x.1) rest

/-- In order of offset, and none before `last`. -/
structure InOrder (last : Option UInt16) (list : List Placed) : Prop where
  sorted : list.Pairwise (·.1 ≤ ·.1)
  after : ∀ x ∈ list, ∀ l ∈ last, l ≤ x.1

theorem InOrder.tail {last : Option UInt16} {x : Placed} {rest : List Placed}
    (h : InOrder last (x :: rest)) : InOrder last rest where
  sorted := h.sorted.of_cons
  after y hy := h.after y (List.mem_cons_of_mem x hy)

/-- What comes after the first of a sorted list is not before it. -/
theorem InOrder.next {last : Option UInt16} {x : Placed} {rest : List Placed}
    (h : InOrder last (x :: rest)) : InOrder (some x.1) rest where
  sorted := h.sorted.of_cons
  after y hy l hl := by
    cases hl
    exact List.rel_of_pairwise_cons h.sorted hy

/-- An offset that has not been served is after the last one that was. -/
theorem InOrder.lt {last : Option UInt16} {x : Placed} {rest : List Placed}
    (h : InOrder last (x :: rest)) (fresh : last ≠ some x.1) : ∀ l ∈ last, l < x.1 := by
  intro l hl
  cases hl
  exact UInt16.lt_of_le_of_ne (h.after x List.mem_cons_self l rfl)
    fun eq => fresh (congrArg some eq)

theorem inOrder_mergeSort (list : List Placed) :
    InOrder none (list.mergeSort fun a b => a.1 ≤ b.1) where
  sorted := by
    have total (a b : Placed) : (decide (a.1 ≤ b.1) || decide (b.1 ≤ a.1)) = true := by
      simpa using UInt16.le_total a.1 b.1
    have trans (a b c : Placed) : decide (a.1 ≤ b.1) = true → decide (b.1 ≤ c.1) = true →
        decide (a.1 ≤ c.1) = true := by
      simpa using UInt16.le_trans
    simpa using List.pairwise_mergeSort trans total list
  after x _ l hl := nomatch hl

/-! ## The walk

Each snapshot is a repetition, a conflict or a new entry, according to the offset served last. The
walk is taken apart once, here. -/

/-- The distance that an entry holds. -/
def delta : Option UInt16 → UInt16 → UInt16
  | none, offset => offset
  | some last, offset => offset - last - 1

section Walk

variable {previous : Snapshot EncodedType} {last : Option UInt16} {x : Placed}
  {rest : List Placed}

theorem entriesFrom_repeated (at_last : last = some x.1) (same : x.2 = previous) :
    entriesFrom previous last (x :: rest) = entriesFrom previous last rest := by
  subst at_last
  simp only [entriesFrom, if_true, same]

theorem entriesFrom_conflict (at_last : last = some x.1) (other : x.2 ≠ previous) :
    entriesFrom previous last (x :: rest) = .error (.conflictingFrames x.1 previous x.2) := by
  subst at_last
  simp only [entriesFrom, if_true, other, if_false]

/-- A snapshot at a new offset gets an entry. -/
theorem entriesFrom_kept (fresh : last ≠ some x.1) :
    entriesFrom previous last (x :: rest)
      = (⟨delta last x.1, previous.compress x.2⟩ :: ·) <$> entriesFrom x.2 (some x.1) rest := by
  cases last with
  | none => rfl
  | some l =>
    have apart : l ≠ x.1 := fun h => fresh (congrArg some h)
    simp only [entriesFrom, apart, if_false]
    rfl

/-- How a walk that comes to its end begins. -/
theorem entriesFrom_cons_ok {entries : List TableEntry}
    (h : entriesFrom previous last (x :: rest) = .ok entries) :
    (last = some x.1 ∧ x.2 = previous ∧ entriesFrom previous last rest = .ok entries) ∨
    (last ≠ some x.1 ∧ ∃ later, entriesFrom x.2 (some x.1) rest = .ok later ∧
      entries = ⟨delta last x.1, previous.compress x.2⟩ :: later) := by
  by_cases at_last : last = some x.1
  · by_cases same : x.2 = previous
    · rw [entriesFrom_repeated at_last same] at h
      exact .inl ⟨at_last, same, h⟩
    · rw [entriesFrom_conflict at_last same] at h
      cases h
  · rw [entriesFrom_kept at_last] at h
    cases later : entriesFrom x.2 (some x.1) rest with
    | error e => rw [later] at h; cases h
    | ok entries => rw [later] at h; cases h; exact .inr ⟨at_last, entries, rfl, rfl⟩

/-- How a walk that stops begins. -/
theorem entriesFrom_cons_error {e : Error}
    (h : entriesFrom previous last (x :: rest) = .error e) :
    (last = some x.1 ∧ x.2 = previous ∧ entriesFrom previous last rest = .error e) ∨
    (last = some x.1 ∧ x.2 ≠ previous ∧ e = .conflictingFrames x.1 previous x.2) ∨
    (last ≠ some x.1 ∧ entriesFrom x.2 (some x.1) rest = .error e) := by
  -- the three equations of the walk, told apart by the offset and then by the snapshot
  by_cases at_last : last = some x.1
  · by_cases same : x.2 = previous
    · rw [entriesFrom_repeated at_last same] at h
      exact .inl ⟨at_last, same, h⟩
    · rw [entriesFrom_conflict at_last same] at h
      cases h
      exact .inr (.inl ⟨at_last, same, rfl⟩)
  · rw [entriesFrom_kept at_last] at h
    cases later : entriesFrom x.2 (some x.1) rest with
    | error e => rw [later] at h; cases h; exact .inr (.inr ⟨at_last, rfl⟩)
    | ok entries => rw [later] at h; cases h

end Walk

/-! ## What the walk keeps

One snapshot for each offset. That it is the only one there is what a walk without a conflict shows.
-/

theorem mem_of_mem_kept {x : Placed} {last : Option UInt16} {list : List Placed}
    (h : x ∈ kept last list) : x ∈ list := by
  fun_induction kept last list with
  | case1 => exact h
  | case2 y rest ih => exact List.mem_cons_of_mem y (ih h)
  | case3 last y rest _ ih =>
    cases List.mem_cons.1 h with
    | inl eq => exact eq ▸ List.mem_cons_self
    | inr later => exact List.mem_cons_of_mem y (ih later)

/-- Of the snapshots kept, no two are at one offset. -/
theorem kept_strict {last : Option UInt16} {list : List Placed} (order : InOrder last list) :
    (kept last list).Pairwise (·.1 < ·.1) ∧ ∀ x ∈ kept last list, ∀ l ∈ last, l < x.1 := by
  fun_induction kept last list with
  | case1 => exact ⟨.nil, fun x hx => nomatch hx⟩
  | case2 y rest ih => exact ih order.tail
  | case3 last y rest fresh ih =>
    have later := ih order.next
    have beyond : ∀ x ∈ kept (some y.1) rest, y.1 < x.1 := fun x hx => later.2 x hx y.1 rfl
    refine ⟨.cons beyond later.1, ?_⟩
    intro x hx l hl
    have first : l < y.1 := order.lt fresh l hl
    cases List.mem_cons.1 hx with
    | inl eq => exact eq ▸ first
    | inr hx => exact UInt16.lt_trans first (beyond x hx)

/-- After a walk without a conflict nothing is lost: what was left out stands at the offset that had
just been served, with the same snapshot. -/
theorem mem_kept_of_ok {previous : Snapshot EncodedType} {last : Option UInt16}
    {list : List Placed} {entries : List TableEntry}
    (h : entriesFrom previous last list = .ok entries) :
    ∀ x ∈ list, x ∈ kept last list ∨ (last = some x.1 ∧ x.2 = previous) := by
  induction list generalizing previous last entries with
  | nil => exact fun x hx => nomatch hx
  | cons y rest ih =>
    intro x hx
    cases entriesFrom_cons_ok h with
    | inl repeated =>
      have ⟨at_last, same, h⟩ := repeated
      rw [kept, if_pos at_last]
      cases List.mem_cons.1 hx with
      | inl hx => exact .inr ⟨hx ▸ at_last, hx ▸ same⟩
      | inr hx => exact ih h x hx
    | inr fresh =>
      have ⟨fresh, later, h, _⟩ := fresh
      rw [kept, if_neg fresh]
      refine .inl (List.mem_cons.2 ?_)
      cases List.mem_cons.1 hx with
      | inl hx => exact .inl hx
      | inr hx =>
        cases ih h x hx with
        | inl hx => exact .inr hx
        -- left out behind `y`, so it is equal to `y`, which was kept
        | inr at_y => exact .inl (Prod.ext (Option.some.inj at_y.1).symm at_y.2)

/-- A walk stops only between two different snapshots at one offset. -/
theorem conflict_of_error {previous : Snapshot EncodedType} {last : Option UInt16}
    {list : List Placed} {e : Error} (h : entriesFrom previous last list = .error e) :
    ∃ x ∈ list, ∃ s, e = .conflictingFrames x.1 s x.2 ∧ x.2 ≠ s ∧
      ((x.1, s) ∈ list ∨ (last = some x.1 ∧ s = previous)) := by
  induction list generalizing previous last with
  | nil => exact nomatch h
  | cons y rest ih =>
    rcases entriesFrom_cons_error h with ⟨_, _, h⟩ | ⟨at_last, other, he⟩ | ⟨_, h⟩
    · obtain ⟨x, hx, s, he, ne, hs⟩ := ih h
      exact ⟨x, List.mem_cons_of_mem y hx, s, he, ne, hs.imp_left (List.mem_cons_of_mem y)⟩
    · exact ⟨y, List.mem_cons_self, previous, he, other, .inr ⟨at_last, rfl⟩⟩
    · obtain ⟨x, hx, s, he, ne, hs⟩ := ih h
      refine ⟨x, List.mem_cons_of_mem y hx, s, he, ne, .inl ?_⟩
      cases hs with
      | inl hs => exact List.mem_cons_of_mem y hs
      -- in conflict with the snapshot that was served last, and that is the one of `y`
      | inr at_y =>
        have first : (x.1, s) = y := Prod.ext (Option.some.inj at_y.1).symm at_y.2
        exact first ▸ List.mem_cons_self

/-! ## What the entries stand for

An entry holds the distance from the one before, less one. It adds up again when the table is read.
-/

theorem one_le_sub {a b : UInt16} (h : a < b) : 1 ≤ b - a := by
  have lt : a.toNat < b.toNat := h
  show 1 ≤ (b - a).toNat
  rw [UInt16.toNat_sub_of_le b a (UInt16.le_of_lt h)]
  omega

/-- The distance that an entry holds leads to its offset. -/
theorem offsetAfter_delta {last : Option UInt16} {offset : UInt16} (h : ∀ l ∈ last, l < offset) :
    offsetAfter (last.map UInt16.toNat) (delta last offset) = offset.toNat := by
  cases last with
  | none => rfl
  | some l =>
    have before : l.toNat < offset.toNat := h l rfl
    have gap : (offset - l).toNat = offset.toNat - l.toNat :=
      UInt16.toNat_sub_of_le offset l (Nat.le_of_lt before)
    have less : (offset - l - 1).toNat = (offset - l).toNat - 1 :=
      UInt16.toNat_sub_of_le (offset - l) 1 (one_le_sub before)
    show l.toNat + (offset - l - 1).toNat + 1 = offset.toNat
    omega

/-- The entries of a walk expand to what it has kept. -/
theorem expandFrom_entriesFrom {previous : Snapshot EncodedType} {last : Option UInt16}
    {list : List Placed} {entries : List TableEntry} (order : InOrder last list)
    (h : entriesFrom previous last list = .ok entries) :
    expandFrom previous (last.map UInt16.toNat) entries
      = some ((kept last list).map fun x => (x.1.toNat, x.2)) := by
  induction list generalizing previous last entries with
  | nil => cases h; rfl
  | cons x rest ih =>
    cases entriesFrom_cons_ok h with
    | inl repeated =>
      have ⟨at_last, _, h⟩ := repeated
      rw [kept, if_pos at_last]
      exact ih order.tail h
    | inr fresh =>
      have ⟨fresh, later, h, eq⟩ := fresh
      -- this entry gives its offset and snapshot back, and the rest expands from there
      have here := offsetAfter_delta (order.lt fresh)
      have there := ih order.next h
      rw [kept, if_neg fresh, eq, expandFrom, Snapshot.apply_compress, here]
      show (expandFrom x.2 ((some x.1).map UInt16.toNat) later).bind _ = _
      rw [there]
      rfl

/-! ## Differences that do not wrap around

Offsets are numbers of sixteen bits, and subtraction would wrap around below zero. In a sorted list
it never gets there, so checking makes no difference. -/

/-- A difference, if it is not negative. -/
def difference? (a b : UInt16) : Option UInt16 := if b ≤ a then some (a - b) else none

/-- `delta`, if neither of its differences is negative. -/
def delta? : Option UInt16 → UInt16 → Option UInt16
  | none, offset => some offset
  | some last, offset => (difference? offset last).bind (difference? · 1)

/-- The walk of `entriesFrom` with differences that are checked, each when it is taken: nothing if
one of them is negative. -/
def checkedFrom (previous : Snapshot EncodedType) (last : Option UInt16) :
    List Placed → Option (Except Error (List TableEntry))
  | [] => some (.ok [])
  | x :: rest =>
    if last = some x.1 then
      if x.2 = previous then checkedFrom previous last rest
      else some (.error (.conflictingFrames x.1 previous x.2))
    else do
      let d ← delta? last x.1
      let later ← checkedFrom x.2 (some x.1) rest
      return (⟨d, previous.compress x.2⟩ :: ·) <$> later

/-- `layOut` with differences that are checked. -/
def checkedLayOut (entry : Snapshot EncodedType) (frames : List Placed) :
    Option (Except Error StackMapTable) :=
  (checkedFrom entry none (frames.mergeSort fun a b => a.1 ≤ b.1)).map (StackMapTable.mk <$> ·)

/-- The distance between offsets in order is not negative. -/
theorem delta?_eq {last : Option UInt16} {offset : UInt16} (h : ∀ l ∈ last, l < offset) :
    delta? last offset = some (delta last offset) := by
  cases last with
  | none => rfl
  | some l =>
    have before : l < offset := h l rfl
    have one : (1 : UInt16) ≤ offset - l := one_le_sub before
    rw [delta?, difference?, if_pos (UInt16.le_of_lt before), Option.bind_some, difference?,
      if_pos one]
    rfl

/-- No difference is negative on the way through a sorted list. -/
theorem checkedFrom_eq {previous : Snapshot EncodedType} {last : Option UInt16}
    {list : List Placed} (order : InOrder last list) :
    checkedFrom previous last list = some (entriesFrom previous last list) := by
  induction list generalizing previous last with
  | nil => rfl
  | cons x rest ih =>
    rw [checkedFrom]
    split
    case isTrue at_last =>
      split
      case isTrue same => rw [entriesFrom_repeated at_last same, ih order.tail]
      case isFalse other => rw [entriesFrom_conflict at_last other]
    case isFalse fresh =>
      rw [entriesFrom_kept fresh, delta?_eq (order.lt fresh), ih order.next]
      rfl

/-! ## Tables from snapshots

Sorting puts repetitions and conflicts next to each other, so the walk finds all of them. -/

theorem layOut_eq (entry : Snapshot EncodedType) (frames : List Placed) :
    layOut entry frames
      = StackMapTable.mk <$> entriesFrom entry none (frames.mergeSort fun a b => a.1 ≤ b.1) := by
  rw [layOut]
  cases entriesFrom entry none (frames.mergeSort fun a b => a.1 ≤ b.1) <;> rfl

theorem checkedLayOut_eq (entry : Snapshot EncodedType) (frames : List Placed) :
    checkedLayOut entry frames = some (layOut entry frames) := by
  rw [checkedLayOut, checkedFrom_eq (inOrder_mergeSort frames), layOut_eq]
  rfl

/-- Two different snapshots at one offset. -/
def Conflict (frames : List Placed) : Prop :=
  ∃ a ∈ frames, ∃ b ∈ frames, a.1 = b.1 ∧ a.2 ≠ b.2

/-- A table that was laid out expands to the snapshots it was laid out from. -/
theorem expand_of_layOut {entry : Snapshot EncodedType} {frames : List Placed} {t : StackMapTable}
    (h : layOut entry frames = .ok t) :
    ∃ list : List Placed, t.expand entry = some (list.map fun x => (x.1.toNat, x.2)) ∧
      list.Pairwise (·.1 < ·.1) ∧ ∀ x, x ∈ list ↔ x ∈ frames := by
  let sorted := frames.mergeSort fun a b => a.1 ≤ b.1
  have order : InOrder none sorted := inOrder_mergeSort frames
  have members (x : Placed) : x ∈ sorted ↔ x ∈ frames := List.mem_mergeSort
  rw [layOut_eq] at h
  cases walk : entriesFrom entry none sorted with
  | error e => rw [walk] at h; cases h
  | ok entries =>
    rw [walk] at h
    cases h
    refine ⟨kept none sorted, expandFrom_entriesFrom order walk, (kept_strict order).1, ?_⟩
    intro x
    constructor
    · intro hx
      exact (members x).1 (mem_of_mem_kept hx)
    · intro hx
      -- at the start no offset has been served, so nothing was left out on that account
      cases mem_kept_of_ok walk x ((members x).2 hx) with
      | inl hx => exact hx
      | inr at_last => exact nomatch at_last.1

/-- There is no conflict in what was laid out. -/
theorem not_conflict_of_layOut {entry : Snapshot EncodedType} {frames : List Placed}
    {t : StackMapTable} (h : layOut entry frames = .ok t) : ¬ Conflict frames := by
  intro ⟨a, ha, b, hb, same, other⟩
  obtain ⟨list, -, strict, members⟩ := expand_of_layOut h
  have apart : (list.map Prod.fst).Nodup :=
    List.pairwise_map.2 (strict.imp fun lt => UInt16.ne_of_lt lt)
  have eq : a = b :=
    List.inj_on_of_nodup_map apart ((members a).2 ha) ((members b).2 hb) same
  exact other (congrArg Prod.snd eq)

/-- If nothing was laid out there is a conflict, and the error names one. -/
theorem conflict_of_layOut {entry : Snapshot EncodedType} {frames : List Placed} {e : Error}
    (h : layOut entry frames = .error e) :
    Conflict frames ∧ ∃ offset s s', e = .conflictingFrames offset s s' := by
  rw [layOut_eq] at h
  cases walk : entriesFrom entry none (frames.mergeSort fun a b => a.1 ≤ b.1) with
  | ok entries => rw [walk] at h; cases h
  | error e' =>
    rw [walk] at h
    cases h
    obtain ⟨x, hx, s, he, other, hs⟩ := conflict_of_error walk
    have hs : (x.1, s) ∈ frames := by
      cases hs with
      | inl hs => exact List.mem_mergeSort.1 hs
      | inr at_last => exact nomatch at_last.1
    exact ⟨⟨x, List.mem_mergeSort.1 hx, (x.1, s), hs, rfl, other⟩, x.1, s, x.2, he⟩

/-- Laying out fails exactly for a conflict. -/
theorem layOut_eq_error_iff {entry : Snapshot EncodedType} {frames : List Placed} :
    (∃ offset s s', layOut entry frames = .error (.conflictingFrames offset s s')) ↔
      Conflict frames := by
  constructor
  · intro ⟨_, _, _, h⟩
    exact (conflict_of_layOut h).1
  · intro conflict
    cases h : layOut entry frames with
    | ok t => exact absurd conflict (not_conflict_of_layOut h)
    | error e =>
      obtain ⟨-, offset, s, s', he⟩ := conflict_of_layOut h
      exact ⟨offset, s, s', he ▸ rfl⟩

/-- The order in which snapshots are given does not matter to the table: without a conflict those at
one offset are equal, so there is only one way to sort them. -/
theorem layOut_eq_ok_of_perm {entry : Snapshot EncodedType} {frames frames' : List Placed}
    {t : StackMapTable} (perm : frames.Perm frames') (h : layOut entry frames = .ok t) :
    layOut entry frames' = .ok t := by
  have agree : ∀ a ∈ frames, ∀ b ∈ frames, a.1 = b.1 → a = b := by
    intro a ha b hb same
    refine Prod.ext same ?_
    by_contra other
    exact not_conflict_of_layOut h ⟨a, ha, b, hb, same, other⟩
  have sorted : frames.mergeSort (fun a b => a.1 ≤ b.1)
      = frames'.mergeSort (fun a b => a.1 ≤ b.1) := by
    -- sorted lists of the same items are equal if items at one offset are
    refine List.Perm.eq_of_pairwise (fun a b ha hb le ge => ?_) (inOrder_mergeSort frames).sorted
      (inOrder_mergeSort frames').sorted
      (((List.mergeSort_perm ..).trans perm).trans (List.mergeSort_perm ..).symm)
    exact agree a (List.mem_mergeSort.1 ha) b (perm.mem_iff.2 (List.mem_mergeSort.1 hb))
      (UInt16.le_antisymm le ge)
  rw [layOut_eq, ← sorted, ← layOut_eq, h]

end StackMapTable

/-! ## Resolvers

Offsets and indices are asked for one by one, by calls that may have effects. A resolver whose
answers do not depend on its state can be replaced by the table of its answers. -/

/-- Offsets for labels and constant pool indices for classes. -/
structure Numbering where
  offset : Label → UInt16
  index : RefType → UInt16

namespace Numbering

/-- The encoded form of a value. -/
def type (n : Numbering) : VType → EncodedType :=
  VerificationType.map n.index fun u => n.offset u.site

/-- The encoded form of a snapshot. -/
def snapshot (n : Numbering) (s : Snapshot VType) : Snapshot EncodedType :=
  ⟨s.locals.map n.type, s.stack.map n.type⟩

/-- The offset and the encoded snapshot of a snapshot at a label. -/
def place (n : Numbering) (frame : Label × Snapshot VType) : StackMapTable.Placed :=
  (n.offset frame.1, n.snapshot frame.2)

end Numbering

namespace Resolver

variable {σ α β : Type} {n : Numbering}

/-- The resolver's answer for a label, in every state. -/
def Locates (r : Resolver (StateM σ)) (n : Numbering) (l : Label) : Prop :=
  ∀ state, ((r.labelOffset l).run state).1 = some (n.offset l)

/-- The resolver's answers for the class or the label of a value, in every state. -/
def Encodes (r : Resolver (StateM σ)) (n : Numbering) : VType → Prop
  | .object t => ∀ state, ((r.classIndex t).run state).1 = some (n.index t)
  | .uninitialized u => r.Locates n u.site
  | _ => True

/-- The resolver's answers for all values of a snapshot. -/
def EncodesAll (r : Resolver (StateM σ)) (n : Numbering) (s : Snapshot VType) : Prop :=
  (∀ v ∈ s.locals, r.Encodes n v) ∧ ∀ v ∈ s.stack, r.Encodes n v

/-- How a computation ends, whatever state it starts in. -/
def Ends (x : ExceptT Error (StateM σ) α) (outcome : Except Error α) : Prop :=
  ∀ state, (x.run.run state).1 = outcome

theorem Ends.pure (a : α) : Ends (Pure.pure a : ExceptT Error (StateM σ) α) (.ok a) := fun _ => rfl

/-- Two computations in a row end as the second one does on the value of the first. -/
theorem Ends.bind {x : ExceptT Error (StateM σ) α} {k : α → ExceptT Error (StateM σ) β}
    {a : α} {outcome : Except Error β} (first : Ends x (.ok a)) (second : Ends (k a) outcome) :
    Ends (x >>= k) outcome := by
  intro state
  have ended : (x.run.run state).1 = .ok a := first state
  rw [ExceptT.run_bind, StateT.run_bind]
  cases run : x.run.run state with
  | mk result state' =>
    rw [run] at ended
    cases ended
    exact second state'

/-- A computation for each item of a list ends with all values. -/
theorem Ends.mapM {f : α → ExceptT Error (StateM σ) β} {g : α → β} {list : List α}
    (h : ∀ a ∈ list, Ends (f a) (.ok (g a))) : Ends (list.mapM f) (.ok (list.map g)) := by
  induction list with
  | nil => exact .pure []
  | cons a rest ih =>
    rw [List.mapM_cons]
    have later := ih fun b hb => h b (List.mem_cons_of_mem a hb)
    exact (h a List.mem_cons_self).bind (later.bind (.pure _))

variable {r : Resolver (StateM σ)}

theorem ends_offsetOf {l : Label} (h : r.Locates n l) :
    Ends (r.offsetOf l) (.ok (n.offset l)) := by
  have asked : Ends (liftM (r.labelOffset l)) (.ok (some (n.offset l))) :=
    fun state => congrArg Except.ok (h state)
  exact asked.bind (.pure _)

theorem ends_indexOf {t : RefType} (h : r.Encodes n (.object t)) :
    Ends (r.indexOf t) (.ok (n.index t)) := by
  have asked : Ends (liftM (r.classIndex t)) (.ok (some (n.index t))) :=
    fun state => congrArg Except.ok (h state)
  exact asked.bind (.pure _)

/-- A value is encoded with the answers for its class or label. -/
theorem ends_type {v : VType} (h : r.Encodes n v) :
    Ends (VerificationType.mapM r.indexOf (fun u => r.offsetOf u.site) v) (.ok (n.type v)) := by
  cases v with
  | object t => exact (ends_indexOf h).bind (.pure _)
  | uninitialized u => exact (ends_offsetOf h).bind (.pure _)
  | _ => exact .pure _

theorem ends_snapshot {s : Snapshot VType} (h : r.EncodesAll n s) :
    Ends (r.snapshot s) (.ok (n.snapshot s)) := by
  have locals := Ends.mapM fun v hv => ends_type (h.1 v hv)
  have stack := Ends.mapM fun v hv => ends_type (h.2 v hv)
  exact locals.bind (stack.bind (.pure _))

theorem ends_directive {l : Label} {s : Snapshot VType} (label : r.Locates n l)
    (values : r.EncodesAll n s) : Ends (r.directive l s) (.ok (n.place (l, s))) :=
  (ends_offsetOf label).bind ((ends_snapshot values).bind (.pure _))

end Resolver

namespace StackMapTable

variable {σ : Type}

/-- The answer of `ofSnapshots` with a resolver in a given state. -/
def resolved (r : Resolver (StateM σ)) (state : σ) (entry : Snapshot VType)
    (frames : List (Label × Snapshot VType)) : Except Error StackMapTable :=
  ((ofSnapshots r entry frames).run.run state).1

/-- With a resolver that answers every question, laying out is all there is to it. -/
theorem resolved_eq_layOut {r : Resolver (StateM σ)} {n : Numbering} {entry : Snapshot VType}
    {frames : List (Label × Snapshot VType)} (hentry : r.EncodesAll n entry)
    (hframes : ∀ frame ∈ frames, r.Locates n frame.1 ∧ r.EncodesAll n frame.2) (state : σ) :
    resolved r state entry frames = layOut (n.snapshot entry) (frames.map n.place) := by
  have directives : Resolver.Ends (frames.mapM fun frame => r.directive frame.1 frame.2)
      (.ok (frames.map n.place)) :=
    .mapM fun frame h => Resolver.ends_directive (hframes frame h).1 (hframes frame h).2
  exact (Resolver.ends_snapshot hentry).bind (directives.bind fun _ => rfl) state

/-- A conflict is between two snapshots whose labels have one offset. -/
theorem conflict_place_iff {n : Numbering} {frames : List (Label × Snapshot VType)} :
    Conflict (frames.map n.place) ↔
      ∃ a ∈ frames, ∃ b ∈ frames, n.offset a.1 = n.offset b.1 ∧ n.snapshot a.2 ≠ n.snapshot b.2 := by
  simp only [Conflict, List.mem_map, exists_exists_and_eq_and, Numbering.place]

/-- What a table says. For any frame on entry, any snapshots at labels, and any resolver that
answers for all their labels and classes, in whatever state, as a numbering does: there is no table
exactly if two snapshots that end up at one offset differ. Otherwise the table expands to the
snapshots at their offsets, in strictly increasing order of offset. The order in which they were
given does not matter, and no difference between offsets is ever negative. -/
theorem table_expands_to_snapshots (r : Resolver (StateM σ)) (n : Numbering) (state : σ)
    (entry : Snapshot VType) (frames : List (Label × Snapshot VType))
    (hentry : r.EncodesAll n entry)
    (hframes : ∀ frame ∈ frames, r.Locates n frame.1 ∧ r.EncodesAll n frame.2) :
    ((∃ offset s s', resolved r state entry frames = .error (.conflictingFrames offset s s')) ↔
      ∃ a ∈ frames, ∃ b ∈ frames, n.offset a.1 = n.offset b.1 ∧ n.snapshot a.2 ≠ n.snapshot b.2) ∧
    ((∀ a ∈ frames, ∀ b ∈ frames, n.offset a.1 = n.offset b.1 → n.snapshot a.2 = n.snapshot b.2) →
      ∃ table, resolved r state entry frames = .ok table ∧
        ∃ list, table.expand (n.snapshot entry) = some list ∧ list.Pairwise (·.1 < ·.1) ∧
          ∀ x, x ∈ list ↔ ∃ frame ∈ frames, x = ((n.offset frame.1).toNat, n.snapshot frame.2)) ∧
    (∀ frames' state' table, frames'.Perm frames →
      (resolved r state' entry frames' = .ok table ↔ resolved r state entry frames = .ok table)) ∧
    checkedLayOut (n.snapshot entry) (frames.map n.place) = some (resolved r state entry frames) := by
  -- the resolver is replaced by its numbering once and for all
  rw [resolved_eq_layOut hentry hframes, layOut_eq_error_iff, conflict_place_iff]
  refine ⟨Iff.rfl, ?_, ?_, checkedLayOut_eq ..⟩
  · intro agree
    cases h : layOut (n.snapshot entry) (frames.map n.place) with
    | error e =>
      obtain ⟨a, ha, b, hb, same, other⟩ := conflict_place_iff.1 (conflict_of_layOut h).1
      exact absurd (agree a ha b hb same) other
    | ok table =>
      obtain ⟨list, expanded, strict, members⟩ := expand_of_layOut h
      refine ⟨table, rfl, _, expanded, List.pairwise_map.2 strict, ?_⟩
      intro x
      constructor
      · intro hx
        obtain ⟨placed, hplaced, rfl⟩ := List.mem_map.1 hx
        obtain ⟨frame, hframe, rfl⟩ := List.mem_map.1 ((members placed).1 hplaced)
        exact ⟨frame, hframe, rfl⟩
      · intro ⟨frame, hframe, eq⟩
        have placed := (members _).2 (List.mem_map_of_mem (f := n.place) hframe)
        exact List.mem_map.2 ⟨_, placed, eq.symm⟩
  · intro frames' state' table perm
    -- a permutation asks for the same labels and classes
    have hframes' : ∀ frame ∈ frames', r.Locates n frame.1 ∧ r.EncodesAll n frame.2 :=
      fun frame h => hframes frame (perm.mem_iff.1 h)
    have placed : (frames'.map n.place).Perm (frames.map n.place) := perm.map n.place
    rw [resolved_eq_layOut hentry hframes']
    exact ⟨layOut_eq_ok_of_perm placed, layOut_eq_ok_of_perm placed.symm⟩

/-- A resolver that counts the questions it is asked. -/
def counting (n : Numbering) : Resolver (StateM Nat) where
  labelOffset l := do
    modify (· + 1)
    return some (n.offset l)
  classIndex t := do
    modify (· + 1)
    return some (n.index t)

/-- Counting does not change the answers. -/
theorem counting_encodesAll (n : Numbering) (s : Snapshot VType) : (counting n).EncodesAll n s := by
  have each (v : VType) : (counting n).Encodes n v := by
    cases v with
    | object t => exact fun _ => rfl
    | uninitialized u => exact fun _ => rfl
    | _ => exact trivial
  exact ⟨fun v _ => each v, fun v _ => each v⟩

/-- The label 0 comes last, and all others are at one offset. -/
def twoOffsets : Numbering where
  offset l := if l = ⟨0⟩ then 9 else 3
  index _ := 2

/-- Three snapshots, two of which are equal and at one offset. -/
def atTwoOffsets : List (Label × Snapshot VType) :=
  [(⟨0⟩, ⟨[], [.null]⟩), (⟨1⟩, ⟨[.object .string, .long], []⟩), (⟨2⟩, ⟨[.object .string, .long], []⟩)]

/-- Three snapshots at two offsets are laid out although they are not given in order. -/
theorem table_expands_to_snapshots_two_offsets :
    ∃ table, resolved (counting twoOffsets) 0 ⟨[.object .string], []⟩ atTwoOffsets = .ok table ∧
      ∃ list, table.expand (twoOffsets.snapshot ⟨[.object .string], []⟩) = some list ∧
        list.Pairwise (·.1 < ·.1) ∧
        ∀ x, x ∈ list ↔ ∃ frame ∈ atTwoOffsets,
          x = ((twoOffsets.offset frame.1).toNat, twoOffsets.snapshot frame.2) :=
  (table_expands_to_snapshots (counting twoOffsets) twoOffsets 0 ⟨[.object .string], []⟩
    atTwoOffsets (counting_encodesAll ..)
    (fun _ _ => ⟨fun _ => rfl, counting_encodesAll ..⟩)).2.1 (by decide)

end StackMapTable

end JvmFrames

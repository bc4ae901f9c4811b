import JvmFrames.Table.Encode
import Mathlib.Tactic.Common

/-!
# Reading the bytes of a stack map table

The reader of the class file format, and the proof that it takes back exactly what was written.
Every item is self-delimiting: its reader finds where it ends, whatever bytes follow. So the readers
are related to the encodings with the rest of the input left open (`Decoder.Reads`), and this
relation composes as the encodings do.
-/

namespace JvmFrames

/-- A reader takes bytes from the front of its input. It gives what they stand for and the bytes it
has left alone, or nothing if they stand for nothing. -/
abbrev Decoder (α : Type) : Type := StateT (List UInt8) Option α

namespace Decoder

variable {α β : Type}

/-- One byte, as a number. -/
def byte : Decoder Nat
  | [] => none
  | b :: rest => some (b.toNat, rest)

/-- A number in two bytes, the high one first. -/
def short : Decoder UInt16 := do
  let high ← byte
  let low ← byte
  return (high * 256 + low).toUInt16

/-- A given number of items, one after the other. -/
def items (item : Decoder α) : Nat → Decoder (List α)
  | 0 => return []
  | n + 1 => do
    let a ← item
    let rest ← items item n
    return a :: rest

/-- A list after its length. -/
def counted (item : Decoder α) : Decoder (List α) := do
  let length ← short
  items item length.toNat

end Decoder

open Decoder

/-- A verification type by its tag. -/
def EncodedType.decode : Decoder EncodedType := do
  match ← byte with
  | 0 => return .top
  | 1 => return .integer
  | 2 => return .float
  | 3 => return .double
  | 4 => return .long
  | 5 => return .null
  | 6 => return .uninitializedThis
  | 7 => .object <$> short
  | 8 => .uninitialized <$> short
  | _ => failure

/-- What stands beside the tag of an entry, for the tags that an offset delta follows. -/
def StackMapFrame.decode (tag : Nat) : Decoder (StackMapFrame EncodedType) :=
  if tag = 247 then .sameLocalsOneStack <$> EncodedType.decode
  else if tag ≤ 250 then return .chop (251 - tag).toUInt8
  else if tag = 251 then return .same
  else if tag ≤ 254 then .append <$> items EncodedType.decode (tag - 251)
  else do
    let locals ← counted EncodedType.decode
    (.full ⟨locals, ·⟩) <$> counted EncodedType.decode

/-- An entry by its tag. The tags from 128 to 246 are reserved. -/
def TableEntry.decode : Decoder TableEntry := do
  let tag ← byte
  if tag ≤ 63 then return ⟨tag.toUInt16, .same⟩
  else if tag ≤ 127 then
    (⟨(tag - 64).toUInt16, .sameLocalsOneStack ·⟩) <$> EncodedType.decode
  else if tag ≤ 246 then failure
  else do
    let delta ← short
    (⟨delta, ·⟩) <$> StackMapFrame.decode tag

/-- A table is a list of entries after its length. -/
def StackMapTable.decode : Decoder StackMapTable := .mk <$> counted TableEntry.decode

/-! ## Readers of encodings

A reader is compared with an encoding for one value at a time. The relation follows the shape of
both: a reader in two steps takes what was written in two parts. -/

namespace Encoding

theorem append_eq (first second : Encoding) : first ++ second = append first second := rfl

/-- Two parts are written if each of them is, one after the other. -/
theorem append_eq_ok_iff {first second : Encoding} {bs : List UInt8} :
    first ++ second = .ok bs ↔ ∃ cs ds, first = .ok cs ∧ second = .ok ds ∧ cs ++ ds = bs := by
  rw [append_eq]
  cases first <;> cases second <;> simp [append]

/-- It does not matter which of three parts are put together first. -/
theorem append_assoc (a b c : Encoding) : a ++ b ++ c = a ++ (b ++ c) := by
  simp only [append_eq]
  cases a <;> cases b <;> cases c <;> simp [append]

end Encoding

namespace Decoder

variable {α β : Type}

/-- The reader takes what was written, and nothing of what follows, and gives the value. -/
def Reads (d : Decoder α) (e : Encoding) (a : α) : Prop :=
  ∀ bs, e = .ok bs → ∀ rest, d (bs ++ rest) = some (a, rest)

theorem Reads.pure (a : α) : Reads (Pure.pure a) (.bytes []) a := by
  intro bs h rest
  cases h
  rfl

/-- What was written in two parts is read in two steps. -/
theorem Reads.bind {d : Decoder α} {k : α → Decoder β} {e e' : Encoding} {a : α} {b : β}
    (first : d.Reads e a) (second : (k a).Reads e' b) : (d >>= k).Reads (e ++ e') b := by
  intro bs h rest
  obtain ⟨cs, ds, hcs, hds, rfl⟩ := Encoding.append_eq_ok_iff.1 h
  show (d (cs ++ ds ++ rest)).bind (fun p => k p.1 p.2) = some (b, rest)
  rw [List.append_assoc, first cs hcs]
  exact second ds hds rest

/-- A reader followed by a function gives what the function makes of the value. -/
theorem Reads.map {d : Decoder α} {e : Encoding} {a : α} (f : α → β) (h : d.Reads e a) :
    (f <$> d).Reads e (f a) := by
  intro bs hbs rest
  show (d (bs ++ rest)).bind (fun p => some (f p.1, p.2)) = some (f a, rest)
  rw [h bs hbs]
  rfl

/-- Nothing has to be read where nothing was written. -/
theorem Reads.fail {d : Decoder α} {e : EncodeError} {a : α} : d.Reads (.fail e) a :=
  fun _ h => nomatch h

theorem reads_byte {n : Nat} (h : n < 256) : byte.Reads (.byte n) n := by
  intro bs hbs rest
  cases hbs
  show some (n.toUInt8.toNat, rest) = some (n, rest)
  rw [show n.toUInt8.toNat = n from Nat.mod_eq_of_lt h]

/-- A number of sixteen bits is read back from its two bytes. -/
theorem reads_short (n : UInt16) : short.Reads (.short n) n := by
  intro bs hbs rest
  cases hbs
  show some ((((n >>> 8).toUInt8.toNat) * 256 + n.toUInt8.toNat).toUInt16, rest) = some (n, rest)
  have high : (n >>> 8).toUInt8.toNat = n.toNat / 256 := by
    have := n.toNat_lt
    simp [Nat.shiftRight_eq_div_pow]
    omega
  have low : n.toUInt8.toNat = n.toNat % 256 := by simp
  have whole : n.toNat / 256 * 256 + n.toNat % 256 = n.toNat := Nat.div_add_mod' ..
  rw [high, low, whole]
  simp

/-- A tag that says everything. -/
theorem reads_tag {k : Nat → Decoder α} {n : Nat} {a : α} (h : n < 256) (hk : k n = pure a) :
    (byte >>= k).Reads (.byte n) a := by
  -- as if nothing had been written behind the tag, since `bind` asks for two parts
  have read : (byte >>= k).Reads (.byte n ++ .bytes []) a := by
    refine (reads_byte h).bind ?_
    rw [hk]
    exact .pure a
  exact read

/-- Items are read in the order they are written, as many as there are. -/
theorem reads_items {item : Decoder α} {encode : α → Encoding}
    (h : ∀ a, item.Reads (encode a) a) :
    ∀ list : List α, (items item list.length).Reads (.concat encode list) list
  | [] => Reads.pure []
  | a :: rest => (h a).bind ((reads_items h rest).map (a :: ·))

/-- A list is read back if its items are. One that is too long was not written. -/
theorem reads_counted {item : Decoder α} {encode : α → Encoding}
    (h : ∀ a, item.Reads (encode a) a) (list : List α) :
    (counted item).Reads (.counted encode list) list := by
  unfold Encoding.counted
  split
  case isTrue fits =>
    refine (reads_short _).bind ?_
    -- the length does not wrap around, so as many items are read as were written
    rw [show list.length.toUInt16.toNat = list.length from Nat.mod_eq_of_lt fits]
    exact reads_items h list
  case isFalse => exact .fail

end Decoder

/-! ## The parts of a table

Every kind of entry has tags of its own, so the tag tells how to go on reading. -/

/-- A verification type is read back by its tag. -/
theorem EncodedType.reads_encode (v : EncodedType) :
    EncodedType.decode.Reads (EncodedType.encode v) v := by
  cases v with
  | top => exact reads_tag (n := 0) (by decide) rfl
  | integer => exact reads_tag (n := 1) (by decide) rfl
  | float => exact reads_tag (n := 2) (by decide) rfl
  | double => exact reads_tag (n := 3) (by decide) rfl
  | long => exact reads_tag (n := 4) (by decide) rfl
  | null => exact reads_tag (n := 5) (by decide) rfl
  | uninitializedThis => exact reads_tag (n := 6) (by decide) rfl
  | object index => exact (reads_byte (by decide)).bind ((reads_short index).map _)
  | uninitialized offset =>
    exact (reads_byte (by decide)).bind ((reads_short offset).map _)

namespace TableEntry

/-- An entry with its offset delta beside its tag. -/
theorem reads_extended {tag : Nat} {delta : UInt16} {frame : StackMapFrame EncodedType}
    {e : Encoding} (low : 247 ≤ tag) (high : tag ≤ 255)
    (read : (StackMapFrame.decode tag).Reads e frame) :
    TableEntry.decode.Reads (.byte tag ++ (.short delta ++ e)) ⟨delta, frame⟩ := by
  refine (reads_byte (by omega)).bind ?_
  -- the tag is beyond those with an offset of their own and those that are reserved
  rw [if_neg (by omega), if_neg (by omega), if_neg (by omega)]
  exact (reads_short delta).bind (read.map _)

/-- An entry with nothing to say is read back, in its short and its long form. -/
theorem reads_same (delta : UInt16) :
    TableEntry.decode.Reads (encode ⟨delta, .same⟩) ⟨delta, .same⟩ := by
  show TableEntry.decode.Reads (if delta ≤ 63 then _ else _) _
  split
  case isTrue h =>
    have small : delta.toNat ≤ 63 := h
    refine reads_tag (show delta.toNat < 256 from by omega) ?_
    rw [if_pos small, show delta.toNat.toUInt16 = delta from by simp]
  case isFalse =>
    have read : (StackMapFrame.decode 251).Reads (.bytes []) .same := .pure _
    exact reads_extended (by decide) (by decide) read

/-- An entry with one value on the stack is read back, in its short and its long form. -/
theorem reads_sameLocalsOneStack (delta : UInt16) (v : EncodedType) :
    TableEntry.decode.Reads (encode ⟨delta, .sameLocalsOneStack v⟩)
      ⟨delta, .sameLocalsOneStack v⟩ := by
  show TableEntry.decode.Reads ((if delta ≤ 63 then _ else _) ++ _) _
  split
  case isTrue h =>
    have small : delta.toNat ≤ 63 := h
    -- a small offset is part of the tag, 64 places up
    refine (reads_byte (show delta.toNat + 64 < 256 from by omega)).bind ?_
    rw [if_neg (by omega), if_pos (by omega), Nat.add_sub_cancel,
      show delta.toNat.toUInt16 = delta from by simp]
    exact (EncodedType.reads_encode v).map _
  case isFalse =>
    rw [Encoding.append_assoc]
    exact reads_extended (by decide) (by decide) ((EncodedType.reads_encode v).map _)

/-- An entry that chops locals is read back. The tag has the number of them. -/
theorem reads_chop (delta : UInt16) (n : UInt8) :
    TableEntry.decode.Reads (encode ⟨delta, .chop n⟩) ⟨delta, .chop n⟩ := by
  show TableEntry.decode.Reads (if 1 ≤ n.toNat ∧ n.toNat ≤ 3 then _ else _) _
  split
  case isTrue h =>
    have read : (StackMapFrame.decode (251 - n.toNat)).Reads (.bytes []) (.chop n) := by
      rw [StackMapFrame.decode, if_neg (by omega), if_pos (by omega),
        show (251 - (251 - n.toNat)).toUInt8 = n from by
          rw [show 251 - (251 - n.toNat) = n.toNat from by omega]
          simp]
      exact .pure _
    exact reads_extended (by omega) (by omega) read
  case isFalse => exact .fail

/-- An entry that appends locals is read back. The tag has the number of them. -/
theorem reads_append (delta : UInt16) (extra : List EncodedType) :
    TableEntry.decode.Reads (encode ⟨delta, .append extra⟩) ⟨delta, .append extra⟩ := by
  show TableEntry.decode.Reads (if 1 ≤ extra.length ∧ extra.length ≤ 3 then _ else _) _
  split
  case isTrue h =>
    rw [Encoding.append_assoc]
    refine reads_extended (by omega) (by omega) ?_
    rw [StackMapFrame.decode, if_neg (by omega), if_neg (by omega), if_neg (by omega),
      if_pos (by omega), Nat.add_sub_cancel_left]
    exact (reads_items EncodedType.reads_encode extra).map _
  case isFalse => exact .fail

/-- A full entry is read back with both of its lists. -/
theorem reads_full (delta : UInt16) (s : Snapshot EncodedType) :
    TableEntry.decode.Reads (encode ⟨delta, .full s⟩) ⟨delta, .full s⟩ := by
  show TableEntry.decode.Reads (_ ++ _ ++ _ ++ _) _
  -- grouped as it is read: the tag, the offset, and then both lists
  rw [Encoding.append_assoc, Encoding.append_assoc]
  refine reads_extended (by decide) (by decide) ?_
  refine (reads_counted EncodedType.reads_encode s.locals).bind ?_
  exact (reads_counted EncodedType.reads_encode s.stack).map _

/-- An entry is read back, whatever its kind. -/
theorem reads_encode : ∀ e : TableEntry, TableEntry.decode.Reads e.encode e
  | ⟨delta, .same⟩ => reads_same delta
  | ⟨delta, .sameLocalsOneStack v⟩ => reads_sameLocalsOneStack delta v
  | ⟨delta, .chop n⟩ => reads_chop delta n
  | ⟨delta, .append extra⟩ => reads_append delta extra
  | ⟨delta, .full s⟩ => reads_full delta s

end TableEntry

/-! ## Tables that cannot be written

Writing fails where a number does not fit its place. All such places are numbers of things: locals
chopped or appended, values in a full frame, entries of the table. -/

namespace Encoding

/-- Writing stops with an error. -/
def Fails (e : Encoding) : Prop := ∃ fault, e = .error fault

theorem fails_append_iff {first second : Encoding} :
    (first ++ second).Fails ↔ first.Fails ∨ second.Fails := by
  rw [append_eq]
  cases first <;> cases second <;> simp [Fails, append]

theorem fails_fail (e : EncodeError) : (fail e).Fails := ⟨_, rfl⟩

theorem not_fails_bytes (bs : List UInt8) : ¬ (bytes bs).Fails := fun ⟨_, h⟩ => nomatch h

theorem fails_concat_iff {α : Type} {encode : α → Encoding} {list : List α} :
    (concat encode list).Fails ↔ ∃ a ∈ list, (encode a).Fails := by
  induction list with
  | nil => simp [concat, not_fails_bytes]
  | cons a rest ih => simp [concat, fails_append_iff, ih]

/-- A list fails to be written if it is too long or one of its items fails. -/
theorem fails_counted_iff {α : Type} {encode : α → Encoding} {list : List α} :
    (counted encode list).Fails ↔ 65535 < list.length ∨ ∃ a ∈ list, (encode a).Fails := by
  unfold counted
  split
  case isTrue fits =>
    have fits : ¬ 65535 < list.length := by omega
    simp [fails_append_iff, fails_concat_iff, short, not_fails_bytes, fits]
  case isFalse long =>
    have long : 65535 < list.length := by omega
    simp [fails_fail, long]

end Encoding

theorem EncodedType.not_fails (v : EncodedType) : ¬ (EncodedType.encode v).Fails := by
  cases v <;> simp [EncodedType.encode, Encoding.byte, Encoding.short, Encoding.fails_append_iff,
    Encoding.not_fails_bytes]

/-- The frames that the format has room for: a full one counts its values in sixteen bits each, and
the others keep to the limits on chopped and appended locals. -/
def StackMapFrame.Writable {α : Type} : StackMapFrame α → Prop
  | full s => s.locals.length ≤ 65535 ∧ s.stack.length ≤ 65535
  | f => f.WithinLimits

namespace TableEntry

/-- An entry fails to be written if the format has no room for its frame. -/
theorem fails_encode_iff (e : TableEntry) : e.encode.Fails ↔ ¬ e.frame.Writable := by
  obtain ⟨delta, frame⟩ := e
  -- tags and offsets always fit, so it is the numbers of things that decide
  have tag (n : Nat) : ¬ (Encoding.byte n).Fails := Encoding.not_fails_bytes _
  have wide (n : UInt16) : ¬ (Encoding.short n).Fails := Encoding.not_fails_bytes _
  cases frame with
  | same =>
    show Encoding.Fails (if delta ≤ 63 then _ else _) ↔ _
    split <;> simp [StackMapFrame.Writable, StackMapFrame.WithinLimits, Encoding.fails_append_iff,
      tag, wide]
  | sameLocalsOneStack v =>
    show Encoding.Fails ((if delta ≤ 63 then _ else _) ++ _) ↔ _
    split <;> simp [StackMapFrame.Writable, StackMapFrame.WithinLimits, Encoding.fails_append_iff,
      tag, wide, EncodedType.not_fails]
  | chop n =>
    show Encoding.Fails (if 1 ≤ n.toNat ∧ n.toNat ≤ 3 then _ else _) ↔ ¬ (_ ∧ _)
    split
    case isTrue h => simp [h, Encoding.fails_append_iff, tag, wide]
    case isFalse h => simp only [h, Encoding.fails_fail, not_false_eq_true]
  | append extra =>
    show Encoding.Fails (if 1 ≤ extra.length ∧ extra.length ≤ 3 then _ else _) ↔ ¬ (_ ∧ _)
    split
    case isTrue h =>
      simp [h, Encoding.fails_append_iff, Encoding.fails_concat_iff, tag, wide,
        EncodedType.not_fails]
    case isFalse h => simp only [h, Encoding.fails_fail, not_false_eq_true]
  | full s =>
    show Encoding.Fails (_ ++ _ ++ _ ++ _) ↔ ¬ (_ ∧ _)
    simp [Encoding.fails_append_iff, Encoding.fails_counted_iff, tag, wide, EncodedType.not_fails]
    omega

end TableEntry

/-! ## Whole tables

Both directions together: what can be written, and that it is read back. -/

namespace StackMapTable

/-- A table cannot be written exactly if it has too many entries or one that the format has no room
for. The bytes of a table that can be written are read back as this table, whatever follows them,
and what follows is left over: no table's bytes begin those of another. -/
theorem encode_self_delimiting (t : StackMapTable) :
    ((∃ fault, t.encode = .error fault) ↔
      65535 < t.entries.length ∨ ∃ e ∈ t.entries, ¬ e.frame.Writable) ∧
    ∀ bytes, t.encode = .ok bytes →
      ∀ rest, StackMapTable.decode (bytes ++ rest) = some (t, rest) := by
  constructor
  · show Encoding.Fails (.counted TableEntry.encode t.entries) ↔ _
    rw [Encoding.fails_counted_iff]
    simp only [TableEntry.fails_encode_iff]
  · exact (reads_counted TableEntry.reads_encode t.entries).map StackMapTable.mk

/-- Offset deltas on both sides of the last one that fits in a tag, and every kind of frame. -/
def everyForm : StackMapTable where
  entries := [⟨63, .same⟩, ⟨64, .same⟩, ⟨63, .sameLocalsOneStack (.object 258)⟩,
    ⟨64, .sameLocalsOneStack .null⟩, ⟨65535, .chop 3⟩,
    ⟨0, .append [.long, .uninitialized 9, .top]⟩, ⟨1, .full ⟨[.integer], [.uninitializedThis]⟩⟩]

/-- A table with every kind of entry is read back from its bytes. -/
theorem encode_self_delimiting_every_form :
    everyForm.encode = .ok [0, 7, 63, 251, 0, 64, 127, 7, 1, 2, 247, 0, 64, 5, 248, 255, 255,
      254, 0, 0, 4, 8, 0, 9, 0, 255, 0, 1, 0, 1, 1, 0, 1, 6] ∧
    ∀ rest, StackMapTable.decode ([0, 7, 63, 251, 0, 64, 127, 7, 1, 2, 247, 0, 64, 5, 248, 255, 255,
      254, 0, 0, 4, 8, 0, 9, 0, 255, 0, 1, 0, 1, 1, 0, 1, 6] ++ rest) = some (everyForm, rest) :=
  ⟨rfl, (encode_self_delimiting everyForm).2 _ rfl⟩

end StackMapTable

end JvmFrames

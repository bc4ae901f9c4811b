/-!
# Constructor-style text of values

Messages and dumps show values the way they are built: a constructor applied to its arguments
(`Object(a/B)`), a record with its named fields, a list in brackets, a string in quotes. This module
holds that notation and its instances for the basic types; each domain type adds its own instance
beside its definition.
-/

namespace JvmFrames

/-- Types whose values have a text in constructor style. -/
class Describe (α : Type) where
  describe : α → String

export Describe (describe)

namespace Text

/-- Parts separated by a comma and a blank. -/
def commaSeparated (parts : List String) : String :=
  ", ".intercalate parts

/-- A constructor applied to arguments: `Name(a, b)`. -/
def applied (name : String) (args : List String) : String :=
  name ++ "(" ++ commaSeparated args ++ ")"

/-- A record: the name, then each field with its value, in braces. -/
def record (name : String) (fields : List (String × String)) : String :=
  name ++ " \x7b " ++ commaSeparated (fields.map fun (field, value) => field ++ ": " ++ value)
    ++ " \x7d"

/-- A list in brackets. -/
def bracketed (parts : List String) : String :=
  "[" ++ commaSeparated parts ++ "]"

/-- Control characters: the two blocks of codes that stand for no glyph. -/
def isControl (c : Char) : Bool :=
  c.toNat < 0x20 || (0x7f ≤ c.toNat && c.toNat < 0xa0)

/-- One character inside quotes. A quote, a backslash and the common controls have short escapes;
any other control is written by its code in lower-case hexadecimal. -/
def escaped (c : Char) : String :=
  match c with
  | '"' => "\\\""
  | '\\' => "\\\\"
  | '\n' => "\\n"
  | '\r' => "\\r"
  | '\t' => "\\t"
  | '\x00' => "\\0"
  | _ =>
    if isControl c then "\\u\x7b" ++ String.ofList (Nat.toDigits 16 c.toNat) ++ "\x7d"
    else String.singleton c

/-- A string in double quotes. -/
def quoted (s : String) : String :=
  "\"" ++ String.join (s.toList.map escaped) ++ "\""

end Text

instance : Describe Nat := ⟨fun n => toString n⟩
instance : Describe Int := ⟨fun n => toString n⟩
instance : Describe UInt8 := ⟨fun n => describe n.toNat⟩
instance : Describe UInt16 := ⟨fun n => describe n.toNat⟩
instance : Describe Int8 := ⟨fun n => describe n.toInt⟩
instance : Describe Int16 := ⟨fun n => describe n.toInt⟩
instance : Describe Int32 := ⟨fun n => describe n.toInt⟩
instance : Describe Int64 := ⟨fun n => describe n.toInt⟩
instance : Describe Bool := ⟨fun b => if b then "true" else "false"⟩
instance : Describe String := ⟨Text.quoted⟩

instance {α : Type} [Describe α] : Describe (List α) :=
  ⟨fun xs => Text.bracketed (xs.map describe)⟩

instance {α : Type} [Describe α] : Describe (Option α) where
  describe
    | none => "None"
    | some a => Text.applied "Some" [describe a]

instance {α β : Type} [Describe α] [Describe β] : Describe (α × β) :=
  ⟨fun (a, b) => Text.applied "" [describe a, describe b]⟩

end JvmFrames

import JvmFrames.Text

/-!
# Decimal text of binary floating-point numbers

A finite binary number is a whole number times a power of two, so it has an exact decimal expansion.
It is written with a point and at least one digit after it.
-/

namespace JvmFrames.Decimal

/-- Layout of a binary format: the bits of its fraction and of its exponent. -/
structure Format where
  fractionBits : Nat
  exponentBits : Nat

/-- The formats of `float` and `double`. -/
def Format.single : Format := ⟨23, 8⟩
def Format.double : Format := ⟨52, 11⟩

/-- The digits of `n` with `places` of them behind a point, without zeros at the end beyond the
first digit there. -/
def withPoint (n places : Nat) : String :=
  let one := Nat.pow 10 places
  let fraction := (Nat.toDigits 10 (n % one)).leftpad places '0'
  let trimmed := (fraction.reverse.dropWhile (· == '0')).reverse
  toString (n / one) ++ "." ++ (if trimmed.isEmpty then "0" else String.ofList trimmed)

/-- The expansion of a mantissa times two to the power of `exponent - bias`. -/
def scaled (mantissa exponent bias : Nat) : String :=
  if bias ≤ exponent then withPoint (mantissa * Nat.pow 2 (exponent - bias)) 0
  else withPoint (mantissa * Nat.pow 5 (bias - exponent)) (bias - exponent)

/-- The text of the number with the given bits. -/
def describeBits (format : Format) (bits : Nat) : String :=
  let fractions := Nat.pow 2 format.fractionBits
  let exponents := Nat.pow 2 format.exponentBits
  let fraction := bits % fractions
  let exponent := bits / fractions % exponents
  let negative := bits / (fractions * exponents) % 2 == 1
  let signed (text : String) := if negative then "-" ++ text else text
  -- The exponent that stands for a mantissa without places after its point.
  let bias := exponents / 2 - 1 + format.fractionBits
  if exponent = exponents - 1 then
    if fraction = 0 then signed "inf" else "NaN"
  else if exponent = 0 then signed (scaled fraction 1 bias)
  else signed (scaled (fraction + fractions) exponent bias)

end JvmFrames.Decimal

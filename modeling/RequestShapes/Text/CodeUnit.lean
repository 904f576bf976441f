/-!
# Hexadecimal digits and UTF-16 code units

An escape names a character by sixteen-bit units. A character beyond the first
plane takes two of them, a high and a low surrogate; a surrogate without its
partner stands for no character and is read as the replacement character.
-/

namespace RequestShapes.Text

/-- The value of a hexadecimal digit. -/
def hexValue? (c : Char) : Option Nat :=
  if c.isDigit then some (c.toNat - '0'.toNat)
  else if 'a' ≤ c ∧ c ≤ 'f' then some (c.toNat - 'a'.toNat + 10)
  else if 'A' ≤ c ∧ c ≤ 'F' then some (c.toNat - 'A'.toNat + 10)
  else none

/-- Read exactly so many hexadecimal digits after a value read so far. -/
def readHex (value : Nat) : Nat → List Char → Option (Nat × List Char)
  | 0, text => some (value, text)
  | _ + 1, [] => none
  | count + 1, c :: text => do
      let digit ← hexValue? c
      readHex (16 * value + digit) count text

/-- So many hexadecimal digits of a value, lower case. -/
def hexText (count value : Nat) : List Char :=
  let digits := Nat.toDigits 16 value
  List.replicate (count - digits.length) '0' ++ digits

/-- Whether a unit opens a pair. -/
def isHighSurrogate (unit : Nat) : Bool :=
  0xd800 ≤ unit && unit < 0xdc00

/-- Whether a unit closes a pair. -/
def isLowSurrogate (unit : Nat) : Bool :=
  0xdc00 ≤ unit && unit < 0xe000

/-- The character of a pair of surrogates. -/
def joinSurrogates (high low : Nat) : Char :=
  Char.ofNat (0x10000 + (high - 0xd800) * 0x400 + (low - 0xdc00))

/-- The character of a single unit. -/
def charOfUnit (unit : Nat) : Char :=
  if isHighSurrogate unit || isLowSurrogate unit then '\ufffd' else Char.ofNat unit

/-- The characters of code points, among which a pair of surrogates stands for
its character. -/
def charsOfCodes : List Nat → List Char
  | [] => []
  | [code] => [charOfUnit code]
  | code :: next :: codes =>
      if isHighSurrogate code && isLowSurrogate next then
        joinSurrogates code next :: charsOfCodes codes
      else charOfUnit code :: charsOfCodes (next :: codes)

/-- The units of a character. -/
def unitsOfChar (c : Char) : List Nat :=
  if c.toNat < 0x10000 then [c.toNat]
  else [0xd800 + (c.toNat - 0x10000) / 0x400, 0xdc00 + (c.toNat - 0x10000) % 0x400]

end RequestShapes.Text

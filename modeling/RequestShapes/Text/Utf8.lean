/-!
# UTF-8

Bytes are decoded strictly: every character in its shortest form, no surrogates,
nothing beyond the last code point. A fault tells the bytes that could have
begun a character but do not, by their place and the reason.
-/

namespace RequestShapes.Text

/-- What is wrong with some bytes. -/
inductive Utf8Reason where
  /-- No character begins with this byte. -/
  | startByte
  /-- The byte that follows does not continue the character. -/
  | continuationByte
  /-- The bytes end within a character. -/
  | endOfData
deriving DecidableEq, Repr

/-- Bytes that are no UTF-8: where they begin, how many they are, and the first
of them. -/
structure Utf8Fault where
  position : Nat
  count : Nat
  first : UInt8
  reason : Utf8Reason
deriving DecidableEq, Repr

/-- The wording of a reason. -/
def Utf8Reason.message : Utf8Reason → String
  | startByte => "invalid start byte"
  | continuationByte => "invalid continuation byte"
  | endOfData => "unexpected end of data"

/-- The wording of a fault. -/
def Utf8Fault.message (fault : Utf8Fault) : String :=
  let digits := Nat.toDigits 16 fault.first.toNat
  let place :=
    if fault.count = 1 then s!"byte 0x{String.ofList digits} in position {fault.position}"
    else s!"bytes in position {fault.position}-{fault.position + fault.count - 1}"
  "'utf-8' codec can't decode " ++ place ++ ": " ++ fault.reason.message

/-- A character that has begun: the bits so far, how many bytes are read and
how many are missing, and between which bounds the next one must lie. -/
structure Utf8Partial where
  first : UInt8
  value : Nat
  count : Nat
  missing : Nat
  least : UInt8
  greatest : UInt8

/-- The character that a byte beyond ASCII begins. The bounds of its second
byte exclude longer forms than needed, surrogates, and what lies beyond the
last code point. -/
def Utf8Partial.begin? (byte : UInt8) : Option Utf8Partial :=
  if byte < 0xc2 then none
  else if byte < 0xe0 then some ⟨byte, byte.toNat - 0xc0, 1, 1, 0x80, 0xbf⟩
  else if byte < 0xf0 then
    some ⟨byte, byte.toNat - 0xe0, 1, 2, if byte = 0xe0 then 0xa0 else 0x80,
      if byte = 0xed then 0x9f else 0xbf⟩
  else if byte < 0xf5 then
    some ⟨byte, byte.toNat - 0xf0, 1, 3, if byte = 0xf0 then 0x90 else 0x80,
      if byte = 0xf4 then 0x8f else 0xbf⟩
  else none

/-- The character continued by one more byte. -/
def Utf8Partial.next (begun : Utf8Partial) (byte : UInt8) : Utf8Partial :=
  ⟨begun.first, 64 * begun.value + (byte.toNat - 0x80), begun.count + 1, begun.missing - 1,
    0x80, 0xbf⟩

/-- The fault of a character that has begun, found at a position after it. -/
def Utf8Partial.fault (begun : Utf8Partial) (position : Nat) (reason : Utf8Reason) : Utf8Fault :=
  ⟨position - begun.count, begun.count, begun.first, reason⟩

/-- The characters of bytes, the first of which stands at a position and may
continue a character. -/
def decodeUtf8From (position : Nat) (begun? : Option Utf8Partial) :
    List UInt8 → Except Utf8Fault (List Char)
  | [] =>
      match begun? with
      | none => .ok []
      | some begun => .error (begun.fault position .endOfData)
  | byte :: bytes =>
      match begun? with
      | some begun =>
          if begun.least ≤ byte ∧ byte ≤ begun.greatest then
            let begun := begun.next byte
            if begun.missing = 0 then
              (decodeUtf8From (position + 1) none bytes).map (Char.ofNat begun.value :: ·)
            else decodeUtf8From (position + 1) (some begun) bytes
          else .error (begun.fault position .continuationByte)
      | none =>
          if byte < 0x80 then
            (decodeUtf8From (position + 1) none bytes).map (Char.ofNat byte.toNat :: ·)
          else
            match Utf8Partial.begin? byte with
            | some begun => decodeUtf8From (position + 1) (some begun) bytes
            | none => .error ⟨position, 1, byte, .startByte⟩

/-- The characters of bytes. -/
def decodeUtf8 (bytes : List UInt8) : Except Utf8Fault (List Char) :=
  decodeUtf8From 0 none bytes

end RequestShapes.Text

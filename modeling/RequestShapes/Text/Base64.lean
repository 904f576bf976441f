/-!
# Base 64

Four characters of an alphabet of sixty-four stand for three bytes. Characters
outside of the alphabet are passed over. A group may end after two or three
characters if it is filled up with equals signs, and nothing is read behind
such a group.
-/

namespace RequestShapes.Text

/-- The six bits that a character stands for. -/
def sextet? (c : Char) : Option Nat :=
  if c.isUpper then some (c.toNat - 'A'.toNat)
  else if c.isLower then some (c.toNat - 'a'.toNat + 26)
  else if c.isDigit then some (c.toNat - '0'.toNat + 52)
  else if c = '+' then some 62
  else if c = '/' then some 63
  else none

/-- The whole bytes in a group of sextets. -/
def groupBytes (group : List Nat) : List UInt8 :=
  let value := group.foldl (fun value sextet => 64 * value + sextet) 0
  match group.length with
  | 2 => [value / Nat.pow 2 4].map UInt8.ofNat
  | 3 => [value / Nat.pow 2 10, value / Nat.pow 2 2].map UInt8.ofNat
  | 4 => [value / Nat.pow 2 16, value / Nat.pow 2 8, value].map UInt8.ofNat
  | _ => []

/-- The bytes of a text after the sextets of an open group and the equals signs
behind them. -/
def decodeBase64From (group : List Nat) (signs : Nat) : List Char → Option (List UInt8)
  | [] => if group.isEmpty then some [] else none
  | c :: text =>
      if c = '=' then
        if group.length < 2 then decodeBase64From group signs text
        else if group.length + signs + 1 < 4 then decodeBase64From group (signs + 1) text
        else some (groupBytes group)
      else
        match sextet? c with
        | none => decodeBase64From group signs text
        | some sextet =>
            let group := group ++ [sextet]
            if group.length < 4 then decodeBase64From group 0 text
            else (decodeBase64From [] 0 text).map (groupBytes group ++ ·)

/-- The bytes of a text; nothing if its last group stays open. -/
def decodeBase64? (text : List Char) : Option (List UInt8) :=
  decodeBase64From [] 0 text

end RequestShapes.Text

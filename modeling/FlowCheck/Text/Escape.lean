import FlowCheck.Text.Letter

/-! # Percent escapes

A text in few characters: the bytes of its UTF-8 form, of which ASCII letters, digits and `_ . : -` stand
for themselves and every other is written `%` and two hexadecimal digits. -/

namespace FlowCheck.Text.Escape

/-- The characters that stand for themselves. -/
def isPlain (c : Char) : Bool :=
  isAsciiLetter c || isDigit c || c == '_' || c == '.' || c == ':' || c == '-'

/-- The hexadecimal digit for a number below sixteen, in upper case. -/
def hexDigit (n : Nat) : Char := Char.ofNat (if n < 10 then 48 + n else 55 + n)

/-- The number a hexadecimal digit of either case stands for. -/
def hexValue? (c : Char) : Option Nat :=
  if isDigit c then some (c.toNat - 48)
  else if 'A' ≤ c && c ≤ 'F' then some (c.toNat - 55)
  else if 'a' ≤ c && c ≤ 'f' then some (c.toNat - 87)
  else none

/-- The number that two hexadecimal digits stand for. A plus sign may take the place of the first. -/
def hexPair? (high low : Char) : Option Nat :=
  if high = '+' then hexValue? low
  else match hexValue? high, hexValue? low with
    | some h, some l => some (16 * h + l)
    | _, _ => none

/-- The bytes of a text in UTF-8. -/
def bytes (text : List Char) : List UInt8 := text.flatMap String.utf8EncodeChar

/-- The text whose bytes in UTF-8 these are, if there is one. -/
def ofBytes? (bs : List UInt8) : Option (List Char) :=
  (String.fromUTF8? ⟨bs.toArray⟩).map String.toList

/-- How one byte is written. -/
def encodeByte (b : UInt8) : List Char :=
  let c := Char.ofNat b.toNat
  if isPlain c then [c] else ['%', hexDigit (b.toNat / 16), hexDigit (b.toNat % 16)]

/-- The written form of a text. -/
def encode (text : List Char) : List Char := (bytes text).flatMap encodeByte

/-- The bytes that a written form stands for. -/
def decodeBytes? : List Char → Option (List UInt8)
  | [] => some []
  | '%' :: high :: low :: rest =>
    match hexPair? high low, decodeBytes? rest with
    | some n, some bs => some (UInt8.ofNat n :: bs)
    | _, _ => none
  | c :: rest => if isPlain c then (decodeBytes? rest).map (UInt8.ofNat c.toNat :: ·) else none

/-- The text that a written form stands for. -/
def decode? (written : List Char) : Option (List Char) := (decodeBytes? written).bind ofBytes?

end FlowCheck.Text.Escape

import FlowCheck.Text.Letter

/-! # Numerals

Natural numbers written in decimal. `digits` is the shortest way to write one; the readers accept any
number of leading zeros. -/

namespace FlowCheck.Text.Numeral

/-- The digit that stands for a number below ten. -/
def digit (n : Nat) : Char := Char.ofNat (48 + n)

/-- The number a digit stands for. -/
def digitValue (c : Char) : Nat := c.toNat - 48

/-- A number in decimal, without leading zeros. -/
def digits (n : Nat) : List Char :=
  if n < 10 then [digit n] else digits (n / 10) ++ [digit (n % 10)]

/-- A number in decimal, as a string. -/
def text (n : Nat) : String := String.ofList (digits n)

/-- The number that a row of digits stands for. -/
def value (text : List Char) : Nat := text.foldl (fun n c => 10 * n + digitValue c) 0

/-- The text is a row of at least one digit. -/
def isDigits (text : List Char) : Bool := !text.isEmpty && text.all isDigit

/-- The number below `bound` that a row of digits stands for. -/
def read? (bound : Nat) (text : List Char) : Option Nat :=
  if isDigits text && value text < bound then some (value text) else none

/-- Reads a number that may carry a plus sign. -/
def readSigned? (bound : Nat) (text : List Char) : Option Nat :=
  match text with
  | '+' :: rest => read? bound rest
  | _ => read? bound text

end FlowCheck.Text.Numeral

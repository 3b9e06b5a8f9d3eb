import FlowCheck.Json.Value
import FlowCheck.Text.Escape

/-! # Writing JSON

The text of a value, without blanks. In a string, quotes, backslashes and control characters are escaped and
nothing else. -/

namespace FlowCheck.Json

/-- A hexadecimal digit in lower case. -/
def hexDigit (n : Nat) : Char := Char.ofNat (if n < 10 then 48 + n else 87 + n)

/-- How a character is written in a string. -/
def writeChar (c : Char) : List Char :=
  if c = '"' then ['\\', '"']
  else if c = '\\' then ['\\', '\\']
  else if c = '\x08' then ['\\', 'b']
  else if c = '\x0c' then ['\\', 'f']
  else if c = '\n' then ['\\', 'n']
  else if c = '\r' then ['\\', 'r']
  else if c = '\t' then ['\\', 't']
  else if c.toNat < 32 then ['\\', 'u', '0', '0', hexDigit (c.toNat / 16), hexDigit (c.toNat % 16)]
  else [c]

/-- A string in its quotes. One without a text is written as half of a surrogate pair. -/
def writeString : Option String → List Char
  | some s => '"' :: s.toList.flatMap writeChar ++ ['"']
  | none => ['"', '\\', 'u', 'd', '8', '0', '0', '"']

mutual
/-- The text of a value. -/
def write : Value → List Char
  | .null => ['n', 'u', 'l', 'l']
  | .bool true => ['t', 'r', 'u', 'e']
  | .bool false => ['f', 'a', 'l', 's', 'e']
  | .number text => text
  | .string text => writeString text
  | .array elements => '[' :: writeElements elements ++ [']']
  | .object members => '{' :: writeMembers members ++ ['}']
/-- The texts of some elements with commas between them. -/
def writeElements : List Value → List Char
  | [] => []
  | [v] => write v
  | v :: vs => write v ++ ',' :: writeElements vs
/-- The texts of some members with commas between them. -/
def writeMembers : List (Option String × Value) → List Char
  | [] => []
  | [(key, v)] => writeString key ++ ':' :: write v
  | (key, v) :: ms => writeString key ++ ':' :: write v ++ ',' :: writeMembers ms
end

/-- The text of a value. -/
def Value.render (v : Value) : String := String.ofList (write v)

end FlowCheck.Json

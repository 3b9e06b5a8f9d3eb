import FlowCheck.Text.Numeral

/-! # JSON values

Values of RFC 8259. A number is kept as it is written, an object keeps all its members in their order, also
those of one name. A string may name half of a surrogate pair with an escape; then it has no text, and is
kept as `none`. -/

namespace FlowCheck.Json

/-- A JSON value. -/
inductive Value where
  | null
  | bool (value : Bool)
  | number (text : List Char)
  | string (text : Option String)
  | array (elements : List Value)
  | object (members : List (Option String × Value))
  deriving Repr, Inhabited

namespace Value

/-- A string with a text. -/
def text (s : String) : Value := .string (some s)

/-- A natural number. -/
def nat (n : Nat) : Value := .number (Text.Numeral.digits n)

/-- An object whose members have names with a text. -/
def record (members : List (String × Value)) : Value := .object (members.map fun m => (some m.1, m.2))

/-- A value that may be missing, which then is `null`. -/
def option {α : Type} (encode : α → Value) : Option α → Value
  | some a => encode a
  | none => .null

/-- An array. -/
def list {α : Type} (encode : α → Value) (xs : List α) : Value := .array (xs.map encode)

end Value

end FlowCheck.Json

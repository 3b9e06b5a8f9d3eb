/-! # Locations

A place in a text as a line and a column, both counted from zero. Columns count characters. A line ends
with `\n` and with nothing else. -/

namespace FlowCheck

/-- A place in a text. -/
structure Location where
  line : Nat
  column : Nat
  deriving DecidableEq, Repr, Inhabited

namespace Location

/-- The start of a text. -/
def start : Location := ⟨0, 0⟩

/-- The place after one more character. -/
def next (loc : Location) (c : Char) : Location :=
  if c = '\n' then ⟨loc.line + 1, 0⟩ else ⟨loc.line, loc.column + 1⟩

/-- The place after some more characters. -/
def advance (loc : Location) (text : List Char) : Location := text.foldl next loc

/-- Reading order: by line, then by column. -/
def le (a b : Location) : Bool := a.line < b.line || (a.line == b.line && a.column ≤ b.column)

end Location

end FlowCheck

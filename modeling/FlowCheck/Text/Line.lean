/-! # Lines

A text seen as lines. `collapse` writes a text on one line, `ofText` cuts a text into its lines. -/

namespace FlowCheck.Text.Line

/-- The text on one line: each of `\r\n`, `\r` and `\n` becomes one space, all else stays. -/
def collapse : List Char → List Char
  | [] => []
  | '\r' :: '\n' :: rest => ' ' :: collapse rest
  | c :: rest => (if c = '\r' ∨ c = '\n' then ' ' else c) :: collapse rest

/-- A line without the carriage return that ends it. -/
def dropReturn (line : List Char) : List Char :=
  if line.getLast? = some '\r' then line.dropLast else line

/-- The lines of a text. A line ends at `\n` or `\r\n`, which is not part of it; what stands after the
last line end is a line of its own unless it is empty, and keeps a carriage return at its end. -/
def ofText (text : List Char) : List (List Char) := go [] text
where
  /-- The lines of `text`, when the characters `line` (last one first) of its first line are read already. -/
  go (line : List Char) : List Char → List (List Char)
    | [] => if line = [] then [] else [line.reverse]
    | c :: rest => if c = '\n' then dropReturn line.reverse :: go [] rest else go (c :: line) rest

end FlowCheck.Text.Line

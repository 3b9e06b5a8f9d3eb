/-! # Cutting a text in two

At the first place where a pattern stands, and at the last place where a character stands. -/

namespace FlowCheck.Text

/-- What stands before and after the first occurrence of a pattern. The empty pattern stands at the start. -/
def cutFirst? (pattern : List Char) (text : List Char) : Option (List Char × List Char) :=
  if pattern.isPrefixOf text then some ([], text.drop pattern.length)
  else match text with
    | [] => none
    | c :: rest => (cutFirst? pattern rest).map fun parts => (c :: parts.1, parts.2)

/-- What stands before and after the last occurrence of a character. -/
def cutLast? (separator : Char) : List Char → Option (List Char × List Char)
  | [] => none
  | c :: rest =>
    match cutLast? separator rest with
    | some parts => some (c :: parts.1, parts.2)
    | none => if c = separator then some ([], rest) else none

end FlowCheck.Text

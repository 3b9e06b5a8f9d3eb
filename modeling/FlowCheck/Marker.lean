import FlowCheck.Text.Escape
import FlowCheck.Text.Numeral
import FlowCheck.Text.Split

/-! # Markers

Every generated line carries a marker that says which expression of a batch it was made from:
an opening delimiter, the percent-escaped id of the expression, `#`, the position of the expression in the
batch, and a closing delimiter. `render` writes a marker and `find` finds the first one on a line. -/

namespace FlowCheck

/-- What a marker says. -/
structure Marker where
  expressionId : String
  index : Nat
  deriving DecidableEq, Repr, Inhabited

/-- The delimiters around a marker. -/
structure MarkerPattern where
  opening : String
  closing : String
  deriving DecidableEq, Repr, Inhabited

/-- Positions in a batch are words of 64 bits. -/
def Marker.indexLimit : Nat := Nat.pow 2 64

namespace MarkerPattern

/-- What stands between the delimiters. -/
def body (m : Marker) : List Char :=
  Text.Escape.encode m.expressionId.toList ++ '#' :: Text.Numeral.digits m.index

/-- The marker with this text between its delimiters. The position is what stands after the last `#`. -/
def ofBody? (text : List Char) : Option Marker :=
  match Text.cutLast? '#' text with
  | none => none
  | some parts =>
    match Text.Escape.decode? parts.1, Text.Numeral.readSigned? Marker.indexLimit parts.2 with
    | some id, some index => some ⟨String.ofList id, index⟩
    | _, _ => none

/-- The text of a marker. -/
def render (p : MarkerPattern) (m : Marker) : String :=
  p.opening ++ String.ofList (body m) ++ p.closing

/-- The marker whose opening delimiter ends where this text starts. -/
def after? (p : MarkerPattern) (text : List Char) : Option Marker :=
  (Text.cutFirst? p.closing.toList text).bind fun parts => ofBody? parts.1

/-- The first marker on a line. After an opening delimiter that starts no marker the search goes on behind
that delimiter. -/
def findIn (p : MarkerPattern) (line : List Char) : Option Marker :=
  match Text.cutFirst? p.opening.toList line with
  | none => none
  | some parts =>
    match p.after? parts.2 with
    | some m => some m
    | none => if parts.2.length < line.length then p.findIn parts.2 else none
termination_by line.length

/-- The first marker on a line. -/
def find (p : MarkerPattern) (line : String) : Option Marker := p.findIn line.toList

end MarkerPattern

end FlowCheck

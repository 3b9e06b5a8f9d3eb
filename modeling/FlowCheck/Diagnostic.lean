import FlowCheck.Location
import FlowCheck.Text.Numeral

/-! # Diagnostics

What a compiler has to say about a text: how severe it is, a code, a message and, mostly, a place. -/

namespace FlowCheck

/-- How severe a diagnostic is, from the least to the most. -/
inductive Severity where
  | hidden | info | warning | error
  deriving DecidableEq, Repr, Inhabited

/-- The word for a severity. -/
def Severity.text : Severity → String
  | .hidden => "hidden"
  | .info => "info"
  | .warning => "warning"
  | .error => "error"

/-- One thing a compiler reports. -/
structure Diagnostic where
  severity : Severity
  code : String
  message : String
  location : Option Location
  deriving DecidableEq, Repr, Inhabited

namespace Diagnostic

/-- The diagnostic is an error. -/
def isError (d : Diagnostic) : Bool := d.severity == .error

/-- The diagnostic as a line for people: `(line,column): severity CODE: message`, counted from one, and
without the place when there is none. -/
def rendered (d : Diagnostic) : String :=
  let body := d.severity.text ++ " " ++ d.code ++ ": " ++ d.message
  match d.location with
  | some loc => "(" ++ Text.Numeral.text (loc.line + 1) ++ "," ++ Text.Numeral.text (loc.column + 1) ++ "): " ++ body
  | none => body

/-- The order by place; a diagnostic without a place comes first. -/
def le (a b : Diagnostic) : Bool :=
  match a.location, b.location with
  | none, _ => true
  | some _, none => false
  | some x, some y => x.le y

/-- Diagnostics by place; at one place they keep their order. -/
def sort (ds : List Diagnostic) : List Diagnostic := ds.mergeSort le

end Diagnostic

end FlowCheck

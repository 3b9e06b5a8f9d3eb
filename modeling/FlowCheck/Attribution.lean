import FlowCheck.Diagnostic
import FlowCheck.Marker
import FlowCheck.Scope
import FlowCheck.Text.Blank
import FlowCheck.Text.Line

/-! # Attribution

From the errors of a compiler to errors of expressions: the marker on the line of an error says which
expression it is about. An error that cannot be attributed is kept with its whole text. -/

namespace FlowCheck

/-- An error for the author of a workflow, with the activity and the expression it is about. -/
structure ValidationError where
  message : String
  isWarning : Bool
  source : Option Activity
  expressionId : Option String
  deriving DecidableEq, Repr, Inhabited

/-- The error as a text. -/
def ValidationError.text (e : ValidationError) : String :=
  match e.source with
  | some activity => e.message ++ " (activity '" ++ activity.id ++ "')"
  | none => e.message

/-- Looks through all errors of a validation, each with its diagnostic, and may change or drop some. -/
abbrev Curator := List (ValidationError × Diagnostic) → List ValidationError

/-- Keeps all errors as they are. -/
def Curator.keepAll : Curator := fun errors => errors.map (·.1)

namespace Attribution

/-- What stands behind the place in the text of a diagnostic; nothing if a place is not closed. -/
def behindPlace? : List Char → Option (List Char)
  | '(' :: rest => (Text.cutFirst? [')', ':', ' '] rest).map (·.2)
  | text => some text

/-- What stands behind a text at the front of another. -/
def behind? (front text : List Char) : Option (List Char) :=
  if front.isPrefixOf text then some (text.drop front.length) else none

/-- The message in the text of an error: what stands behind the place, the word `error`, and a code without
blanks. -/
def message? (rendered : List Char) : Option (List Char) :=
  (behindPlace? rendered).bind fun text =>
    (behind? ['e', 'r', 'r', 'o', 'r', ' '] text).bind fun text =>
      (Text.cutFirst? [':', ' '] text).bind fun parts =>
        if parts.1.isEmpty || parts.1.any Text.isBlank then none else some parts.2

/-- The expression that a marker means: the one at its place, if it has the marker's id, or else the first one
with that id. -/
def unit? (scope : ValidationScope) (m : Marker) : Option ExpressionUnit :=
  (scope.units[m.index]?.filter (·.id == m.expressionId)).or (scope.find? m.expressionId)

/-- The expression that a line of a batch was made from. -/
def unitOfLine? (pattern : MarkerPattern) (scope : ValidationScope) (lines : List (List Char)) (line : Nat) :
    Option ExpressionUnit :=
  (lines[line]?.bind pattern.findIn).bind (unit? scope)

/-- The error for a diagnostic. -/
def error (pattern : MarkerPattern) (scope : ValidationScope) (lines : List (List Char)) (d : Diagnostic) :
    ValidationError :=
  let unit := d.location.bind fun loc => unitOfLine? pattern scope lines loc.line
  match message? d.rendered.toList, unit with
  | some message, some unit => ⟨String.ofList message, false, some unit.activity, some unit.id⟩
  | _, _ => ⟨d.rendered, false, none, none⟩

/-- The errors for the diagnostics of a batch. Only errors count. -/
def errors (pattern : MarkerPattern) (curator : Curator) (diagnostics : List Diagnostic) (source : String)
    (scope : ValidationScope) : List ValidationError :=
  let lines := Text.Line.ofText source.toList
  curator ((diagnostics.filter (·.isError)).map fun d => (error pattern scope lines d, d))

end Attribution

end FlowCheck

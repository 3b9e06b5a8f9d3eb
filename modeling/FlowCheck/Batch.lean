import FlowCheck.Language
import FlowCheck.Text.Line

/-! # Batches

The source of a batch has one line for each expression. Diagnostics are attributed by their line, so nothing in
an expression may break its line. -/

namespace FlowCheck

/-- A text on one line. -/
def oneLine (text : String) : String := String.ofList (Text.Line.collapse text.toList)

/-- The lines of a batch so far. -/
structure SourceWriter where
  lines : List String
  deriving DecidableEq, Repr, Inhabited

namespace SourceWriter

/-- No lines. -/
def empty : SourceWriter := ⟨[]⟩

/-- One more line. -/
def line (w : SourceWriter) (text : String) : SourceWriter := ⟨w.lines ++ [oneLine text]⟩

/-- The number of lines, which is the place of the next one. -/
def lineCount (w : SourceWriter) : Nat := w.lines.length

/-- The source: each line with its end. -/
def finish (w : SourceWriter) : String := String.join (w.lines.map (· ++ "\n"))

end SourceWriter

/-- The values of a list of which no earlier one has the same key. -/
def distinctBy {α : Type} (key : α → String) (xs : List α) : List α := go [] xs
where
  /-- The same, when some keys were met before. -/
  go (met : List String) : List α → List α
    | [] => []
    | x :: xs => if key x ∈ met then go met xs else x :: go (key x :: met) xs

namespace ExpressionUnit

/-- The variables that an expression uses, in the order of their first use. An identifier that is no variable is
left to the compiler to report. -/
def parameters {Tree : Type} (language : Language Tree) (unit : ExpressionUnit) : Except Fault (List Parameter) :=
  (language.identifiers unit.text).map fun names =>
    (distinctBy language.identifierKey names).filterMap fun name =>
      (unit.environment.resolve name).map fun type => ⟨name, language.typeName type⟩

/-- The line for an expression at a place in a batch. -/
def fragment {Tree : Type} (language : Language Tree) (unit : ExpressionUnit) (index : Nat) :
    Except Fault String :=
  (unit.parameters language).map fun parameters =>
    language.fragment {
      marker := language.marker.render ⟨unit.id, index⟩
      index := index
      kind := unit.kind
      parameters := parameters
      returnType := language.typeName unit.resultType
      text := oneLine unit.text }

end ExpressionUnit

end FlowCheck

import FlowCheck.Module
import FlowCheck.Scope

/-! # Workflow documents

A workflow as it is written down: the modules its types come from, its activities with their variables and
expressions, and which activity contains which. Types are texts here. -/

namespace FlowCheck.Workflow

/-- A module of a document, with its exports or the file they are in. -/
structure ModuleSpec where
  name : String
  kind : ModuleKind
  exports : Option (List TypeExport)
  location : Option String
  deriving DecidableEq, Repr, Inhabited

/-- What all expressions of a document import: namespaces, and modules of the document by their names. -/
structure Imports where
  namespaces : List String
  modules : List String
  deriving DecidableEq, Repr, Inhabited

/-- A variable of an activity, which all that the activity contains may use. -/
structure VariableSpec where
  name : String
  typeName : String
  deriving DecidableEq, Repr, Inhabited

/-- An expression of an activity. -/
structure ExpressionSpec where
  id : String
  text : String
  resultType : String
  kind : ExpressionKind
  deriving DecidableEq, Repr, Inhabited

/-- An activity with its own variables and expressions. -/
structure ActivitySpec where
  id : String
  displayName : Option String
  locals : List VariableSpec
  expressions : List ExpressionSpec
  deriving DecidableEq, Repr, Inhabited

/-- One activity contains another. -/
structure Edge where
  parent : String
  child : String
  deriving DecidableEq, Repr, Inhabited

/-- A workflow document. -/
structure Document where
  id : String
  name : Option String
  modules : List ModuleSpec
  imports : Imports
  activities : List ActivitySpec
  edges : List Edge
  deriving DecidableEq, Repr, Inhabited

/-- An activity without a name is shown by its id. -/
def ActivitySpec.activity (a : ActivitySpec) : Activity := ⟨a.id, a.displayName.getD a.id⟩

/-- The workflow as an activity. -/
def Document.root (d : Document) : Activity := ⟨d.id, d.name.getD d.id⟩

end FlowCheck.Workflow

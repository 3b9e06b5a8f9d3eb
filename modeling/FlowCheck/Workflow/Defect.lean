import FlowCheck.Fault
import FlowCheck.Text.Numeral

/-! # Defects of documents

All that can be wrong with a workflow document, with the code and the wording of each. -/

namespace FlowCheck.Workflow

/-- Why a text is no type. -/
inductive TypeDefect where
  /-- It is not written like one. -/
  | malformed (text : String)
  /-- No module exports a type that this path means. -/
  | unknown (path : String)
  /-- A type has another number of arguments than it takes. -/
  | arity (name : String) (takes got : Nat)
  deriving DecidableEq, Repr, Inhabited

/-- The wording of a defect of a type. -/
def TypeDefect.message : TypeDefect → String
  | .malformed text => "'" ++ text ++ "' is not a valid type name"
  | .unknown path => "Unknown type '" ++ path ++ "'"
  | .arity name takes got =>
    "Type '" ++ name ++ "' takes " ++ Text.Numeral.text takes ++ " type argument(s), got " ++ Text.Numeral.text got

/-- What is wrong with a document. -/
inductive Defect where
  /-- It is not a document in JSON. -/
  | malformed
  | duplicateModule (name : String)
  /-- The file of a module gives no exports. -/
  | unreadableModule (name : String) (fault : Fault)
  /-- A module has neither exports nor a file. -/
  | emptyModule (name : String)
  /-- What is imported is no module of the document. -/
  | unknownImport (name : String)
  | duplicateActivity (id : String)
  /-- The parent of an edge is no activity. -/
  | unknownParent (id : String)
  /-- The child of an edge is no activity, but its parent is. -/
  | unknownChild (id : String)
  /-- An activity is the child of more than one edge. -/
  | secondParent (id : String)
  /-- Some activity contains itself. -/
  | cycle
  /-- The type of a variable of an activity is none. -/
  | variableType (activity name : String) (defect : TypeDefect)
  | duplicateExpression (activity id : String)
  /-- The result type of an expression of an activity is none. -/
  | expressionType (activity id : String) (defect : TypeDefect)
  deriving DecidableEq, Repr, Inhabited

namespace Defect

/-- The code of a defect. -/
def code : Defect → String
  | .malformed => "P001"
  | .unknownParent _ | .unknownChild _ => "P002"
  | .secondParent _ | .cycle => "P003"
  | .variableType .. | .expressionType .. => "P004"
  | .duplicateModule _ | .duplicateActivity _ | .duplicateExpression .. => "P005"
  | .unreadableModule .. | .emptyModule _ | .unknownImport _ => "P006"

/-- The wording of a defect. -/
def message : Defect → String
  | .malformed => "Failed to parse workflow JSON: "
  | .duplicateModule name => "Duplicate module name '" ++ name ++ "'"
  | .unreadableModule name fault => "Module '" ++ name ++ "' could not be read: " ++ fault.text
  | .emptyModule name => "Module '" ++ name ++ "' has neither exports nor a location"
  | .unknownImport name => "Import references unknown module '" ++ name ++ "'"
  | .duplicateActivity id => "Duplicate activity id '" ++ id ++ "'"
  | .unknownParent id => "Edge references unknown parent activity '" ++ id ++ "'"
  | .unknownChild id => "Edge references unknown child activity '" ++ id ++ "'"
  | .secondParent id => "Activity '" ++ id ++ "' has more than one parent"
  | .cycle => "Activity containment contains a cycle"
  | .variableType _ name defect => "Variable '" ++ name ++ "': " ++ defect.message
  | .duplicateExpression _ id => "Duplicate expression id '" ++ id ++ "'"
  | .expressionType _ id defect => "Expression '" ++ id ++ "': " ++ defect.message

/-- The activity that a defect is about. -/
def activity? : Defect → Option String
  | .duplicateActivity id | .secondParent id => some id
  | .variableType activity _ _ | .duplicateExpression activity _ | .expressionType activity _ _ => some activity
  | _ => none

/-- The defect as a fault. -/
def fault (d : Defect) : Fault := .document ⟨d.code, d.message, d.activity?⟩

end Defect

end FlowCheck.Workflow

import FlowCheck.Validator
import FlowCheck.Workflow.Load

/-! # Reports

A workflow document is loaded and all its expressions are validated as one batch. -/

namespace FlowCheck

/-- An error of an expression in a document. -/
structure ExpressionError where
  message : String
  isWarning : Bool
  activityId : Option String
  expressionId : Option String
  deriving DecidableEq, Repr, Inhabited

/-- Why a document could not be validated: with the code of a defect of the document, or else with that of all
other faults. -/
structure DocumentError where
  code : String
  phase : String
  message : String
  nodeId : Option String
  deriving DecidableEq, Repr, Inhabited

/-- What comes of the validation of a document. -/
inductive Report where
  /-- The expressions were validated; the document has so many of them. -/
  | validated (expressions : Nat) (errors : List ExpressionError)
  /-- The expressions could not be validated. -/
  | rejected (errors : List DocumentError)
  deriving DecidableEq, Repr, Inhabited

/-- An error of a validation as one of a document. -/
def ExpressionError.ofError (e : ValidationError) : ExpressionError :=
  ⟨e.message, e.isWarning, e.source.map (·.id), e.expressionId⟩

/-- A fault as an error of a document. -/
def DocumentError.ofFault (f : Fault) : DocumentError :=
  match f.code? with
  | some code => ⟨code, "Document", f.text, f.node?⟩
  | none => ⟨"V001", "Validate", f.text, f.node?⟩

/-- A validator for Flow. -/
def Validator.flow (files : Files) (config : Config) (loader : ModuleLoader) : Validator Flow.SourceTree :=
  ⟨Flow.language, .exportTables files, config, loader, .keepAll⟩

/-- A session in which the core module is required. -/
def Session.requiring (core : Module) : Session := ⟨.empty, .ofList [core]⟩

namespace Report

/-- Validates a document with a configuration. -/
def ofDocument (files : Files) (config : Config) (text : String) : Report :=
  let core := Flow.coreModule 0
  match Workflow.load files core text with
  | .error defects => .rejected (defects.map fun d => .ofFault d.fault)
  | .ok workflow =>
    let scope := workflow.scope
    match ((Validator.flow files config workflow.loader).validate (.requiring core) (some scope)).result with
    | .ok errors => .validated scope.units.length (errors.map .ofError)
    | .error fault => .rejected [.ofFault fault]

/-- Validates a document with the text of a configuration, or with the default one if there is none. -/
def ofTexts (files : Files) (config : Option String) (text : String) : Report :=
  match config with
  | none => ofDocument files .default text
  | some config =>
    match Config.ofText config with
    | .ok config => ofDocument files config text
    | .error fault => .rejected [.ofFault fault]

end Report

end FlowCheck

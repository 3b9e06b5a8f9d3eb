import FlowCheck.Reference
import FlowCheck.Workflow.Codec
import FlowCheck.Workflow.Containment
import FlowCheck.Workflow.Types

/-! # Loading a document

From a document to a scope: its modules with what they export, the types of its variables and expressions, and
its expressions in the order in which activities contain each other. Modules, containment and expressions are
looked at one after the other, and all that is wrong with the first of them that is not in order is reported. -/

namespace FlowCheck.Workflow

/-- A document whose modules, containment and types are in order. -/
structure Loaded where
  document : Document
  modules : List Module
  units : List ExpressionUnit
  deriving Inhabited

namespace Loaded

/-- The workflow as an activity. -/
def root (w : Loaded) : Activity := w.document.root

/-- Finds the modules of the document by their names. -/
def loader (w : Loaded) : ModuleLoader := .ofList w.modules

/-- A scope with all expressions of the document and what it imports. -/
def scope (w : Loaded) : ValidationScope :=
  ⟨w.units, distinct w.document.imports.namespaces, w.document.imports.modules.map .named⟩

end Loaded

/-! ### Modules -/

/-- The modules of a document read so far, their names, what they export, and what is wrong with them. -/
structure ModulesRead where
  names : List String
  modules : List Module
  table : ExportTable
  defects : List Defect
  deriving Inhabited

namespace ModulesRead

/-- Notes a defect. -/
def reject (r : ModulesRead) (d : Defect) : ModulesRead := { r with defects := r.defects ++ [d] }

/-- Adds a module with what it exports. -/
def accept (r : ModulesRead) (m : Module) (exports : List TypeExport) : ModulesRead :=
  { r with modules := r.modules ++ [m], table := r.table.add m exports }

/-- Reads one more module, which is given an id. -/
def next (files : Files) (r : ModulesRead) (spec : ModuleSpec × Nat) : ModulesRead :=
  let m : Module := ⟨spec.2, spec.1.name, spec.1.kind, spec.1.exports, spec.1.location⟩
  if m.name ∈ r.names then r.reject (.duplicateModule m.name)
  else
    let r := { r with names := r.names ++ [m.name] }
    match m.exports, m.location with
    | some exports, _ => r.accept m exports
    | none, some _ =>
      match Reference.fromFile files m with
      | .ok reference => r.accept m reference.exports
      | .error fault => r.reject (.unreadableModule m.name fault)
    | none, none => r.reject (.emptyModule m.name)

/-- Reads the modules of a document and looks up what it imports. The ids of the modules follow that of the core
module, whose types come first. -/
def ofDocument (files : Files) (core : Module) (d : Document) : ModulesRead :=
  let table := d.imports.namespaces.foldl ExportTable.importNamespace (ExportTable.empty.addModule core)
  let r := (d.modules.zipIdx (core.id + 1)).foldl (next files) ⟨[], [], table, []⟩
  (d.imports.modules.filter (· ∉ r.names)).foldl (fun r name => r.reject (.unknownImport name)) r

end ModulesRead

/-! ### Expressions -/

/-- What was read of the activities so far: their variables with those of the activities around them, by their
places in the document, the ids of their expressions, the expressions, and what is wrong. -/
structure UnitsRead where
  environments : List (Nat × Environment)
  expressionIds : List String
  units : List ExpressionUnit
  defects : List Defect
  deriving Inhabited

namespace UnitsRead

/-- The variables around an activity and its own. One without a type is not declared. -/
def declare (table : ExportTable) (activity : ActivitySpec) (found : Environment × List Defect)
    (variableSpec : VariableSpec) : Environment × List Defect :=
  match resolve table variableSpec.typeName with
  | .ok type => (found.1.declare variableSpec.name type, found.2)
  | .error defect => (found.1, found.2 ++ [.variableType activity.id variableSpec.name defect])

/-- Reads one more expression of an activity. -/
def addExpression (table : ExportTable) (activity : ActivitySpec) (environment : Environment) (r : UnitsRead)
    (spec : ExpressionSpec) : UnitsRead :=
  if spec.id ∈ r.expressionIds then
    { r with defects := r.defects ++ [.duplicateExpression activity.id spec.id] }
  else
    let r := { r with expressionIds := r.expressionIds ++ [spec.id] }
    match resolve table spec.resultType with
    | .ok type =>
      { r with units := r.units ++ [⟨spec.id, spec.text, type, environment, spec.kind, activity.activity⟩] }
    | .error defect => { r with defects := r.defects ++ [.expressionType activity.id spec.id defect] }

/-- Reads one more activity, after the one around it. -/
def addActivity (table : ExportTable) (containment : Containment) (activities : List ActivitySpec) (r : UnitsRead)
    (i : Nat) : UnitsRead :=
  match activities[i]? with
  | none => r
  | some activity =>
    let around := ((containment.parent? i).bind (r.environments.lookup ·)).getD .empty
    let declared := activity.locals.foldl (declare table activity) (around, r.defects)
    let r := { r with environments := (i, declared.1) :: r.environments, defects := declared.2 }
    activity.expressions.foldl (addExpression table activity declared.1) r

/-- Reads the activities of a document, each after the one around it. -/
def ofDocument (table : ExportTable) (containment : Containment) (d : Document) : UnitsRead :=
  containment.order.foldl (addActivity table containment d.activities) ⟨[], [], [], []⟩

end UnitsRead

/-! ### Documents -/

/-- A value, unless there are defects. -/
def unlessDefects {α : Type} (defects : List Defect) (a : α) : Except (List Defect) α :=
  if defects.isEmpty then .ok a else .error defects

/-- Reads the text of a document. -/
def parse (text : String) : Except (List Defect) Document :=
  match Document.ofText? text with
  | some d => .ok d
  | none => .error [.malformed]

/-- Reads the text of a document and looks up its types among the exports of its modules and of the core module. -/
def load (files : Files) (core : Module) (text : String) : Except (List Defect) Loaded := do
  let document ← parse text
  let modules := ModulesRead.ofDocument files core document
  unlessDefects modules.defects ()
  let containment ← Containment.ofDocument document
  let units := UnitsRead.ofDocument modules.table containment document
  unlessDefects units.defects ⟨document, modules.modules, units.units⟩

end FlowCheck.Workflow

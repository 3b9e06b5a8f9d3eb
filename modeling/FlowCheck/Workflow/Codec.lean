import FlowCheck.Json.Exports
import FlowCheck.Json.Reader
import FlowCheck.Json.Writer
import FlowCheck.Workflow.Document

/-! # Workflow documents in JSON

How a document is read and written. What has a default may be missing; the written form leaves nothing out. -/

namespace FlowCheck.Workflow

open FlowCheck.Json (Value fields? required withDefault optional string? list? word?)

/-! ### Reading -/

/-- The words for the kinds of modules. -/
def moduleKinds : List (String × ModuleKind) :=
  [("static", .static), ("dynamic", .dynamic), ("collectible", .collectible)]

/-- The words for the kinds of expressions. -/
def expressionKinds : List (String × ExpressionKind) := [("value", .value), ("reference", .reference)]

/-- Reads a module. -/
def ModuleSpec.ofValue? (v : Value) : Option ModuleSpec :=
  match fields? ["name", "kind", "exports", "location"] v with
  | some [name, kind, exports, location] => do
    return {
      name := ← required string? name
      kind := ← withDefault .static (word? moduleKinds) kind
      exports := ← optional (list? Json.typeExport?) exports
      location := ← optional string? location }
  | _ => none

/-- Reads imports. -/
def Imports.ofValue? (v : Value) : Option Imports :=
  match fields? ["namespaces", "modules"] v with
  | some [namespaces, modules] => do
    return {
      namespaces := ← withDefault [] (list? string?) namespaces
      modules := ← withDefault [] (list? string?) modules }
  | _ => none

/-- Reads a variable. -/
def VariableSpec.ofValue? (v : Value) : Option VariableSpec :=
  match fields? ["name", "type"] v with
  | some [name, typeName] => do
    return { name := ← required string? name, typeName := ← required string? typeName }
  | _ => none

/-- Reads an expression. -/
def ExpressionSpec.ofValue? (v : Value) : Option ExpressionSpec :=
  match fields? ["id", "text", "resultType", "kind"] v with
  | some [id, text, resultType, kind] => do
    return {
      id := ← required string? id
      text := ← required string? text
      resultType := ← required string? resultType
      kind := ← withDefault .value (word? expressionKinds) kind }
  | _ => none

/-- Reads an activity. -/
def ActivitySpec.ofValue? (v : Value) : Option ActivitySpec :=
  match fields? ["id", "displayName", "variables", "expressions"] v with
  | some [id, displayName, locals, expressions] => do
    return {
      id := ← required string? id
      displayName := ← optional string? displayName
      locals := ← withDefault [] (list? VariableSpec.ofValue?) locals
      expressions := ← withDefault [] (list? ExpressionSpec.ofValue?) expressions }
  | _ => none

/-- Reads an edge. -/
def Edge.ofValue? (v : Value) : Option Edge :=
  match fields? ["parent", "child"] v with
  | some [parent, child] => do
    return { parent := ← required string? parent, child := ← required string? child }
  | _ => none

/-- Reads a document. -/
def Document.ofValue? (v : Value) : Option Document :=
  match fields? ["id", "name", "modules", "imports", "activities", "edges"] v with
  | some [id, name, modules, imports, activities, edges] => do
    return {
      id := ← required string? id
      name := ← optional string? name
      modules := ← withDefault [] (list? ModuleSpec.ofValue?) modules
      imports := ← withDefault ⟨[], []⟩ Imports.ofValue? imports
      activities := ← withDefault [] (list? ActivitySpec.ofValue?) activities
      edges := ← withDefault [] (list? Edge.ofValue?) edges }
  | _ => none

/-- Reads the text of a document. -/
def Document.ofText? (text : String) : Option Document := (Json.read? text).bind Document.ofValue?

/-! ### Writing -/

/-- The word for a kind of module. -/
def moduleKindText : ModuleKind → String
  | .static => "static"
  | .dynamic => "dynamic"
  | .collectible => "collectible"

/-- The word for a kind of expression. -/
def expressionKindText : ExpressionKind → String
  | .value => "value"
  | .reference => "reference"

/-- Writes a module. -/
def ModuleSpec.toValue (m : ModuleSpec) : Value :=
  .record [("name", .text m.name), ("kind", .text (moduleKindText m.kind)),
    ("exports", .option (.list Json.ofTypeExport) m.exports), ("location", .option .text m.location)]

/-- Writes imports. -/
def Imports.toValue (i : Imports) : Value :=
  .record [("namespaces", .list .text i.namespaces), ("modules", .list .text i.modules)]

/-- Writes a variable. -/
def VariableSpec.toValue (v : VariableSpec) : Value :=
  .record [("name", .text v.name), ("type", .text v.typeName)]

/-- Writes an expression. -/
def ExpressionSpec.toValue (e : ExpressionSpec) : Value :=
  .record [("id", .text e.id), ("text", .text e.text), ("resultType", .text e.resultType),
    ("kind", .text (expressionKindText e.kind))]

/-- Writes an activity. -/
def ActivitySpec.toValue (a : ActivitySpec) : Value :=
  .record [("id", .text a.id), ("displayName", .option .text a.displayName),
    ("variables", .list VariableSpec.toValue a.locals),
    ("expressions", .list ExpressionSpec.toValue a.expressions)]

/-- Writes an edge. -/
def Edge.toValue (e : Edge) : Value := .record [("parent", .text e.parent), ("child", .text e.child)]

/-- Writes a document. -/
def Document.toValue (d : Document) : Value :=
  .record [("id", .text d.id), ("name", .option .text d.name),
    ("modules", .list ModuleSpec.toValue d.modules), ("imports", d.imports.toValue),
    ("activities", .list ActivitySpec.toValue d.activities), ("edges", .list Edge.toValue d.edges)]

/-- The text of a document. -/
def Document.render (d : Document) : String := d.toValue.render

end FlowCheck.Workflow

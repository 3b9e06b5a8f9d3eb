import FlowCheck.Json.Record
import FlowCheck.Module

/-! # Exported types in JSON -/

namespace FlowCheck.Json

/-- Numbers of type arguments are words of 64 bits. -/
def arityLimit : Nat := Nat.pow 2 64

/-- Reads a field of an exported type. -/
def fieldExport? (v : Value) : Option FieldExport :=
  match fields? ["name", "type"] v with
  | some [name, typeName] => do
    return { name := ← required string? name, typeName := ← required string? typeName }
  | _ => none

/-- Reads an exported type. -/
def typeExport? (v : Value) : Option TypeExport :=
  match fields? ["name", "arity", "base", "fields"] v with
  | some [name, arity, base, fields] => do
    return {
      name := ← required string? name
      arity := ← withDefault 0 (natBelow? arityLimit) arity
      base := ← optional string? base
      fields := ← withDefault [] (list? fieldExport?) fields }
  | _ => none

/-- Reads the file of a module, a record of the types that the module exports. -/
def exportFile? (v : Value) : Option (List TypeExport) :=
  match fields? ["exports"] v with
  | some [exports] => required (list? typeExport?) exports
  | _ => none

/-- A field of an exported type. -/
def ofFieldExport (f : FieldExport) : Value := .record [("name", .text f.name), ("type", .text f.typeName)]

/-- An exported type. -/
def ofTypeExport (e : TypeExport) : Value :=
  .record [("name", .text e.name), ("arity", .nat e.arity), ("base", .option .text e.base),
    ("fields", .list ofFieldExport e.fields)]

end FlowCheck.Json

import FlowCheck.Module

/-! # Export tables

The types that some modules export, each with the module that owns it, and the namespaces through which they
have short names. The first module to export a name owns it. -/

namespace FlowCheck

/-- Exported types in the order in which they were added, and imported namespaces. -/
structure ExportTable where
  entries : List (Module × TypeExport)
  namespaces : List String
  deriving Inhabited

namespace ExportTable

/-- No types and no namespaces. -/
def empty : ExportTable := ⟨[], []⟩

/-- The exported type of a full name and its owner. -/
def find? (table : ExportTable) (fullName : String) : Option (Module × TypeExport) :=
  table.entries.find? (·.2.name == fullName)

/-- The exported type that a path means: the type of that full name, or else the first of a type of that name
in one of the namespaces. -/
def lookup (table : ExportTable) (path : String) : Option (Module × TypeExport) :=
  (table.find? path).or (table.namespaces.findSome? fun ns => table.find? (ns ++ "." ++ path))

/-- Some more exported types of one owner, behind those that are there. -/
def add (table : ExportTable) (owner : Module) (exports : List TypeExport) : ExportTable :=
  { table with entries := table.entries ++ exports.map (owner, ·) }

/-- The exported types that a module carries. -/
def addModule (table : ExportTable) (m : Module) : ExportTable := table.add m (m.exports.getD [])

/-- One more namespace, unless it is there. -/
def importNamespace (table : ExportTable) (ns : String) : ExportTable :=
  if ns ∈ table.namespaces then table else { table with namespaces := table.namespaces ++ [ns] }

/-- The number of names under which a type is exported. -/
def size (table : ExportTable) : Nat := (table.entries.map (·.2.name)).eraseDups.length

end ExportTable

end FlowCheck

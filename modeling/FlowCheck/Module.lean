import FlowCheck.Text.Split

/-! # Modules

A module is a unit of compiled code that exports types. What it exports is either carried in memory or kept
in a file. -/

namespace FlowCheck

/-- What may happen to a module while it is in use. -/
inductive ModuleKind where
  /-- Nothing: what it exports stays. -/
  | static
  /-- It is generated while the program runs, and may change. -/
  | dynamic
  /-- It may be unloaded. -/
  | collectible
  deriving DecidableEq, Repr, Inhabited

/-- A field of an exported type, and the text of the field's type. -/
structure FieldExport where
  name : String
  typeName : String
  deriving DecidableEq, Repr, Inhabited

/-- A type that a module exports, under its full name. `arity` is the number of type arguments it takes,
`base` the text of the type it extends. -/
structure TypeExport where
  name : String
  arity : Nat := 0
  base : Option String := none
  fields : List FieldExport := []
  deriving DecidableEq, Repr, Inhabited

/-- The full name up to its last point; nothing if it has none. -/
def TypeExport.namespaceName (e : TypeExport) : String :=
  match Text.cutLast? '.' e.name.toList with
  | some parts => String.ofList parts.1
  | none => ""

/-- A module. Two modules are the same when they are equal; `id` tells apart modules that agree in all
the rest. -/
structure Module where
  id : Nat
  name : String
  kind : ModuleKind
  exports : Option (List TypeExport)
  location : Option String
  deriving DecidableEq, Repr, Inhabited

namespace Module

/-- What is known of the exports of a static module stays true, so it may be kept. -/
def isCacheable (m : Module) : Bool := m.kind == .static

end Module

/-- Finds a module by its name. -/
abbrev ModuleLoader := String → Option Module

/-- The loader over some modules by their names. The last of several modules of one name is found. -/
def ModuleLoader.ofList (modules : List Module) : ModuleLoader := fun name =>
  modules.reverse.find? (·.name == name)

end FlowCheck

import FlowCheck.Fault
import FlowCheck.Json.Reader
import FlowCheck.Json.Record
import FlowCheck.Scope

/-! # Configuration -/

namespace FlowCheck

/-- What can be set for all validations. -/
structure Config where
  /-- The namespaces that every scope imports, before its own. -/
  defaultNamespaces : List String
  deriving DecidableEq, Repr, Inhabited

namespace Config

/-- The configuration where none is given. -/
def default : Config := ⟨["Core", "Core.Functional"]⟩

/-- Reads a configuration. -/
def ofValue? (v : Json.Value) : Option Config :=
  match Json.fields? ["defaultNamespaces"] v with
  | some [namespaces] => do
    return ⟨← Json.withDefault default.defaultNamespaces (Json.list? Json.string?) namespaces⟩
  | _ => none

/-- Reads the text of a configuration. -/
def ofText (text : String) : Except Fault Config :=
  match (Json.read? text).bind ofValue? with
  | some config => .ok config
  | none => .error .config

/-- The default namespaces and then some more, each once. -/
def namespacesWith (config : Config) (more : List String) : List String :=
  distinct (config.defaultNamespaces ++ more)

end Config

end FlowCheck

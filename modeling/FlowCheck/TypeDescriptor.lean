import FlowCheck.Module

/-! # Type descriptors

A type together with what its use draws in: the module that owns it, the type it extends and its type
arguments. -/

namespace FlowCheck

/-- A type in a workflow. Its full name is `ns.name`, or `name` when there is no namespace. -/
structure TypeDescriptor where
  ns : String
  name : String
  owner : Module
  base : Option TypeDescriptor
  args : List TypeDescriptor

instance : Inhabited TypeDescriptor := ⟨⟨"", "", default, none, []⟩⟩

namespace TypeDescriptor

/-- The type of a full name, which is cut at its last point. -/
def ofFullName (fullName : String) (owner : Module) (base : Option TypeDescriptor)
    (args : List TypeDescriptor) : TypeDescriptor :=
  match Text.cutLast? '.' fullName.toList with
  | some parts => ⟨String.ofList parts.1, String.ofList parts.2, owner, base, args⟩
  | none => ⟨"", fullName, owner, base, args⟩

/-- The name with its namespace. -/
def fullName (t : TypeDescriptor) : String := if t.ns = "" then t.name else t.ns ++ "." ++ t.name

mutual
/-- How the type is written: its full name, and its arguments in angle brackets. -/
def display : TypeDescriptor → String
  | ⟨ns, name, owner, base, args⟩ =>
    let full := (⟨ns, name, owner, base, args⟩ : TypeDescriptor).fullName
    match args with
    | [] => full
    | _ :: _ => full ++ "<" ++ ", ".intercalate (displayAll args) ++ ">"
/-- How each of some types is written. -/
def displayAll : List TypeDescriptor → List String
  | [] => []
  | t :: ts => t.display :: displayAll ts
end

/-- Two types with one key are taken for the same: they have one owner and are written alike. -/
def key (t : TypeDescriptor) : Module × String := (t.owner, t.display)

mutual
/-- Adds to the types found so far the type, then what its base draws in, then what its arguments draw in.
A type whose key is there already adds nothing, and neither do its base and its arguments. -/
def collect (found : List TypeDescriptor) : TypeDescriptor → List TypeDescriptor
  | ⟨ns, name, owner, base, args⟩ =>
    let t : TypeDescriptor := ⟨ns, name, owner, base, args⟩
    if t.key ∈ found.map key then found else collectAll (collectBase (found ++ [t]) base) args
/-- Adds what a base draws in. -/
def collectBase (found : List TypeDescriptor) : Option TypeDescriptor → List TypeDescriptor
  | none => found
  | some t => collect found t
/-- Adds what some types draw in, one after the other. -/
def collectAll (found : List TypeDescriptor) : List TypeDescriptor → List TypeDescriptor
  | [] => found
  | t :: ts => collectAll (collect found t) ts
end

/-- The type, the types it extends and its arguments, and theirs in turn, each once, as they are met. -/
def reachable (t : TypeDescriptor) : List TypeDescriptor := collect [] t

/-- The types that the type extends, the nearest first. -/
def bases : TypeDescriptor → List TypeDescriptor
  | ⟨_, _, _, none, _⟩ => []
  | ⟨_, _, _, some t, _⟩ => t :: t.bases

end TypeDescriptor

end FlowCheck

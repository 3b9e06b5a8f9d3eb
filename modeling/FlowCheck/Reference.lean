import FlowCheck.Fault
import FlowCheck.Json.Exports
import FlowCheck.Json.Reader

/-! # References

What a compilation links for a module: the types it exports, and the way they were learnt. A provider knows two
ways, one by what the module carries and one by its file. -/

namespace FlowCheck

/-- What a compilation knows of a module. -/
structure Reference where
  owner : Module
  name : String
  exports : List TypeExport
  source : ReferenceSource
  deriving DecidableEq, Repr, Inhabited

/-- Ways to learn what a module exports. -/
structure ReferenceProvider where
  fromMetadata : Module → Except Fault Reference
  fromFile : Module → Except Fault Reference

/-- Files that can be read: the content of each by its path. -/
abbrev Files := String → Option String

/-- A path without the steps `./` at its front, which stay in the same directory. -/
def plainPath : List Char → List Char
  | '.' :: '/' :: rest => plainPath (rest.dropWhile (· == '/'))
  | path => path
termination_by path => path.length
decreasing_by
  have := (List.dropWhile_suffix (· == '/') (l := rest)).length_le
  simp only [List.length_cons]
  omega

/-- The files of one directory by their names. -/
def Files.ofList (files : List (String × String)) : Files := fun path =>
  files.lookup (String.ofList (plainPath path.toList))

namespace Reference

/-- The reference by the export table that a module carries. -/
def fromMetadata (m : Module) : Except Fault Reference :=
  match m.exports with
  | some exports => .ok ⟨m, m.name, exports, .metadata⟩
  | none => .error (.noReference m.name .metadata)

/-- The reference by the file of a module. -/
def fromFile (files : Files) (m : Module) : Except Fault Reference :=
  match m.location with
  | none => .error (.noReference m.name .file)
  | some path =>
    match (files path).bind fun text => (Json.read? text).bind Json.exportFile? with
    | some exports => .ok ⟨m, m.name, exports, .file⟩
    | none => .error (.moduleFile path)

end Reference

/-- The provider that looks at what a module carries and at its file. -/
def ReferenceProvider.exportTables (files : Files) : ReferenceProvider :=
  ⟨Reference.fromMetadata, Reference.fromFile files⟩

end FlowCheck

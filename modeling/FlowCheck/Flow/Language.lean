import FlowCheck.Flow.Typing
import FlowCheck.Language

/-! # The language Flow

A batch of Flow is a sequence of items, each on a line of its own:

    /*@assign-1#0@*/ fn __expr0(count: Core.Int) -> Core.Int => count + 1;

Types are looked up among the exports of the linked references. -/

namespace FlowCheck.Flow

/-- The types that every Flow text may use. -/
def coreExports : List TypeExport :=
  [{ name := "Core.Object" },
    { name := "Core.Int", base := "Core.Object" },
    { name := "Core.Float", base := "Core.Object" },
    { name := "Core.Bool", base := "Core.Object" },
    { name := "Core.String", base := "Core.Object", fields := [⟨"length", "Core.Int"⟩] },
    { name := "Core.List", arity := 1, base := "Core.Object", fields := [⟨"count", "Core.Int"⟩] },
    { name := "Core.Functional.Maybe", arity := 1, base := "Core.Object", fields := [⟨"hasValue", "Core.Bool"⟩] }]

/-- The module of these types. -/
def coreModule (id : Nat) : Module := ⟨id, "Core", .static, some coreExports, none⟩

/-- A parameter of an item. -/
def parameterText (p : Parameter) : String := p.name ++ ": " ++ p.typeName

/-- The item for an expression. -/
def fragment (f : Fragment) : String :=
  f.marker ++ " fn __expr" ++ Text.Numeral.text f.index ++ "(" ++ ", ".intercalate (f.parameters.map parameterText) ++
    ") -> " ++ (match f.kind with | .value => "" | .reference => "ref ") ++ f.returnType ++ " => " ++ f.text ++ ";"

/-- The types that a compilation knows. -/
def exportTable (references : List Reference) (namespaces : List String) : ExportTable :=
  ⟨references.flatMap fun r => r.exports.map (r.owner, ·), namespaces⟩

/-- All that is wrong with the trees of a compilation, by place. -/
def diagnose (c : Compilation SourceTree) : Except Fault (List Diagnostic) :=
  if c.trees.isEmpty then .error (.compiler "Flow" "no syntax trees added")
  else
    let table := exportTable c.references c.namespaces
    .ok (Diagnostic.sort (c.trees.flatMap fun tree => tree.diagnostics ++ check table tree))

/-- Flow as an expression language. -/
def language : Language SourceTree where
  name := "Flow"
  marker := ⟨"/*@", "@*/"⟩
  typeName := TypeDescriptor.display
  identifierKey := id
  identifiers := fun text => .ok (freeIdentifiers text)
  fragment := fragment
  parse := fun source => .ok (.ofText source)
  diagnose := diagnose

end FlowCheck.Flow

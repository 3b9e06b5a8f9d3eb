import FlowCheck.Compilation
import FlowCheck.Diagnostic
import FlowCheck.Fault
import FlowCheck.Marker
import FlowCheck.Scope

/-! # Expression languages

What the validation of expressions needs from the language they are written in. Reading an expression, reading
a batch and compiling may each fail as a whole; what is wrong with an expression is no such failure. -/

namespace FlowCheck

/-- A variable of an expression, as the language writes it. -/
structure Parameter where
  name : String
  typeName : String
  deriving DecidableEq, Repr, Inhabited

/-- What a line of a batch is made of. -/
structure Fragment where
  marker : String
  index : Nat
  kind : ExpressionKind
  parameters : List Parameter
  returnType : String
  text : String
  deriving DecidableEq, Repr, Inhabited

/-- A language whose batches are read to trees. -/
structure Language (Tree : Type) where
  /-- The name of the language in messages. -/
  name : String
  /-- The delimiters of markers, which are comments of the language. -/
  marker : MarkerPattern
  /-- How a type is written. -/
  typeName : TypeDescriptor → String
  /-- Identifiers with one key are the same. -/
  identifierKey : String → String
  /-- The identifiers of an expression that may be variables, in the order of the text. -/
  identifiers : String → Except Fault (List String)
  /-- The line of a batch that has an expression in it. -/
  fragment : Fragment → String
  /-- Reads a batch. -/
  parse : String → Except Fault Tree
  /-- Compiles, and gives all there is to say. -/
  diagnose : Compilation Tree → Except Fault (List Diagnostic)

end FlowCheck

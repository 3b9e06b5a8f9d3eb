import FlowCheck.ExportTable
import FlowCheck.Flow.Grammar
import FlowCheck.TypeDescriptor
import FlowCheck.Workflow.Defect

/-! # Types of documents

From the text of a type in a document to its descriptor: the modules that own it and its arguments, and the
types that it extends. -/

namespace FlowCheck.Workflow

open FlowCheck.Flow (TypeExpr)

/-- How many steps are taken from a type to the one it extends; exported types may extend each other. -/
def maxBaseDepth : Nat := 32

mutual
/-- The type that is written here. What it extends is found by `base?`; a type whose base is not found has none. -/
def describe (table : ExportTable) (base? : String → Option TypeDescriptor) :
    TypeExpr → Except TypeDefect TypeDescriptor
  | ⟨path, args, _⟩ =>
    match table.lookup path with
    | none => .error (.unknown path)
    | some (owner, e) =>
      if e.arity ≠ args.length then .error (.arity e.name e.arity args.length)
      else match describeAll table base? args with
        | .error defect => .error defect
        | .ok args => .ok (.ofFullName e.name owner (e.base.bind base?) args)
/-- The types that are written here. -/
def describeAll (table : ExportTable) (base? : String → Option TypeDescriptor) :
    List TypeExpr → Except TypeDefect (List TypeDescriptor)
  | [] => .ok []
  | t :: ts =>
    match describe table base? t with
    | .error defect => .error defect
    | .ok u =>
      match describeAll table base? ts with
      | .error defect => .error defect
      | .ok us => .ok (u :: us)
end

/-- The type that a text in an export means, with so many of the types that it extends. -/
def base? (table : ExportTable) : (steps : Nat) → String → Option TypeDescriptor
  | 0, _ => none
  | steps + 1, text => (TypeExpr.ofText? text).bind fun t => (describe table (base? table steps) t).toOption

/-- The type that a text means. -/
def resolve (table : ExportTable) (text : String) : Except TypeDefect TypeDescriptor :=
  match TypeExpr.ofText? text with
  | none => .error (.malformed text)
  | some t => describe table (base? table maxBaseDepth) t

end FlowCheck.Workflow

import FlowCheck.ExportTable
import FlowCheck.Flow.Grammar
import FlowCheck.Flow.Ty

/-! # Conversions

What the exported types say about each other: which type a name means, which type one extends, which fields
it has with those of the types it extends, and which types convert to which. -/

namespace FlowCheck.Flow

/-- How many steps are taken from a type to the one it extends; exported types may extend each other. -/
def maxBaseDepth : Nat := 32

mutual
/-- The type that is written here, if every name in it means one that takes that many arguments. -/
def Ty.ofExpr? (table : ExportTable) : TypeExpr → Option Ty
  | ⟨path, args, _⟩ =>
    match table.lookup path with
    | none => none
    | some (_, e) =>
      if e.arity = args.length then (Ty.ofExprs? table args).map (.named e.name) else none
/-- The types that are written here, if all of them are types. -/
def Ty.ofExprs? (table : ExportTable) : List TypeExpr → Option (List Ty)
  | [] => some []
  | t :: ts =>
    match Ty.ofExpr? table t, Ty.ofExprs? table ts with
    | some u, some us => some (u :: us)
    | _, _ => none
end

/-- The type that a text in an export means, or no type. -/
def Ty.ofText (table : ExportTable) (text : String) : Ty :=
  ((TypeExpr.ofText? text).bind (Ty.ofExpr? table)).getD .error

/-- The type that a type extends. -/
def Ty.base? (table : ExportTable) : Ty → Option Ty
  | .named name _ => (table.lookup name).bind fun found => found.2.base.map (Ty.ofText table)
  | _ => none

/-- The target is among the first `steps` of a type and the types it extends. -/
def Ty.reaches (table : ExportTable) (target : Ty) : (steps : Nat) → Option Ty → Bool
  | 0, _ => false
  | _ + 1, none => false
  | steps + 1, some t => t = target || Ty.reaches table target steps (t.base? table)

/-- The type extends the target, directly or through others. -/
def Ty.derivesFrom (table : ExportTable) (source target : Ty) : Bool :=
  Ty.reaches table target maxBaseDepth (source.base? table)

/-- The type of a field of one of the first `steps` of a type and the types it extends. -/
def Ty.fieldWithin (table : ExportTable) (field : String) : (steps : Nat) → Option Ty → Option Ty
  | 0, _ => none
  | steps + 1, some (.named name args) =>
    match table.lookup name with
    | none => none
    | some (_, e) =>
      match e.fields.find? (·.name == field) with
      | some f => some (Ty.ofText table f.typeName)
      | none => Ty.fieldWithin table field steps ((Ty.named name args).base? table)
  | _ + 1, _ => none

/-- The type of a field of a type, or of the nearest type it extends that has one of that name. -/
def Ty.field? (table : ExportTable) (t : Ty) (field : String) : Option Ty :=
  Ty.fieldWithin table field maxBaseDepth (some t)

/-- A value of the source type can stand where one of the target type should: they are the same, a whole number
for one with a point, `null` for a type that has it, anything for `Core.Object`, a type for one that it extends.
What has no type converts to and from everything. -/
def Ty.converts (table : ExportTable) : (source target : Ty) → Bool
  | .error, _ => true
  | _, .error => true
  | .null, .null => true
  | .null, target => !target.isValueType
  | _, .null => false
  | source, target =>
    source = target || (source = .int && target = .float) || target = .object || source.derivesFrom table target

end FlowCheck.Flow

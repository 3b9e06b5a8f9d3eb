import FlowCheck.Flow.Conversion

/-! # Typing

The checker gives each expression a type and reports what is wrong with it. What has no type because of
something that is reported gives rise to no further report. -/

namespace FlowCheck.Flow

/-- A type and what was reported on the way to it. -/
structure Typed where
  type : Ty
  diagnostics : List Diagnostic
  deriving DecidableEq, Repr, Inhabited

namespace Typed

/-- A type, and nothing to report. -/
def clean (t : Ty) : Typed := ⟨t, []⟩

/-- No type, because of a problem. -/
def report (p : Problem) (loc : Location) : Typed := ⟨.error, [p.located loc]⟩

/-- The same type, with something reported before. -/
def after (ds : List Diagnostic) (t : Typed) : Typed := ⟨t.type, ds ++ t.diagnostics⟩

end Typed

mutual
/-- The type that is written here. Arguments come before the type that takes them. -/
def typeOfExpr (table : ExportTable) : TypeExpr → Typed
  | ⟨path, args, loc⟩ =>
    let found := typesOfExprs table args
    .after found.2 <| match table.lookup path with
      | none => .report (.unknownType path) loc
      | some (_, e) =>
        if e.arity ≠ args.length then .report (.wrongArity e.name e.arity) loc
        else if Ty.error ∈ found.1 then .clean .error
        else .clean (.named e.name found.1)
/-- The types that are written here, and what was reported about them. -/
def typesOfExprs (table : ExportTable) : List TypeExpr → List Ty × List Diagnostic
  | [] => ([], [])
  | t :: ts =>
    let first := typeOfExpr table t
    let others := typesOfExprs table ts
    (first.type :: others.1, first.diagnostics ++ others.2)
end

/-- Parameters and their types, the last one first; so of several parameters of one name the last counts. -/
abbrev Context := List (String × Ty)

/-- The type of a value with an operator before it. -/
def UnaryOp.result (op : UnaryOp) (t : Ty) : Option Ty :=
  match op with
  | .neg => if t.isNumeric then some t else none
  | .not => if t = .bool then some t else none

/-- The type of two numbers with an operator between them: whole only if both are. -/
def arithmetic (a b : Ty) : Option Ty :=
  if a.isNumeric && b.isNumeric then some (if a = .int ∧ b = .int then .int else .float) else none

/-- The type of two values with an operator between them. -/
def BinaryOp.result (table : ExportTable) (op : BinaryOp) (a b : Ty) : Option Ty :=
  match op with
  | .add => if a = .string ∨ b = .string then some .string else arithmetic a b
  | .sub | .mul | .div | .rem => arithmetic a b
  | .lt | .le | .gt | .ge => if a.isNumeric && b.isNumeric then some .bool else none
  | .eq | .ne =>
    if (a.isNumeric && b.isNumeric) || a.converts table b || b.converts table a then some .bool else none
  | .and | .or => if a = .bool ∧ b = .bool then some .bool else none

/-- The type of a field of a value of some type. -/
def memberType (table : ExportTable) (target : Ty) (field : String) (loc : Location) : Typed :=
  match target with
  | .error => .clean .error
  | .null => .report (.badOperand "." Ty.null.display) loc
  | .named name args =>
    match (Ty.named name args).field? table field with
    | some t => .clean t
    | none => .report (.noField (Ty.named name args).display field) loc

/-- The type of a value of some type with an operator before it. -/
def unaryType (op : UnaryOp) (operand : Ty) (loc : Location) : Typed :=
  if operand = .error then .clean .error
  else match op.result operand with
    | some t => .clean t
    | none => .report (.badOperand op.symbol.text operand.display) loc

/-- The type of two values of some types with an operator between them. -/
def binaryType (table : ExportTable) (op : BinaryOp) (left right : Ty) (loc : Location) : Typed :=
  if left = .error ∨ right = .error then .clean .error
  else match op.result table left right with
    | some t => .clean t
    | none => .report (.badOperands op.symbol.text left.display right.display) loc

/-- What is wrong with the test of a conditional, which is of some type. -/
def testProblems (table : ExportTable) (test : Expr) (type : Ty) : List Diagnostic :=
  if type.converts table .bool then
    match test with
    | .bool value loc => [(Problem.constantTest value).located loc]
    | _ => []
  else [(Problem.noConversion type.display Ty.bool.display).located test.loc]

/-- The type of a conditional whose branches are of some types: the one that the other converts to. -/
def branchType (table : ExportTable) (positive negative : Ty) (loc : Location) : Typed :=
  if positive = .error ∨ negative = .error then .clean .error
  else if positive.converts table negative then .clean negative
  else if negative.converts table positive then .clean positive
  else .report (.branchesDisagree positive.display negative.display) loc

/-- The type of an expression. -/
def typeOf (table : ExportTable) (context : Context) : Expr → Typed
  | .int .. => .clean .int
  | .float .. => .clean .float
  | .string .. => .clean .string
  | .bool .. => .clean .bool
  | .null .. => .clean .null
  | .name name loc =>
    match context.lookup name with
    | some t => .clean t
    | none => .report (.unknownName name) loc
  | .member target field loc =>
    let t := typeOf table context target
    .after t.diagnostics (memberType table t.type field loc)
  | .unary op operand loc =>
    let t := typeOf table context operand
    .after t.diagnostics (unaryType op t.type loc)
  | .binary op left right loc =>
    let a := typeOf table context left
    let b := typeOf table context right
    .after (a.diagnostics ++ b.diagnostics) (binaryType table op a.type b.type loc)
  | .conditional test positive negative loc =>
    let t := typeOf table context test
    let a := typeOf table context positive
    let b := typeOf table context negative
    .after (t.diagnostics ++ testProblems table test t.type ++ a.diagnostics ++ b.diagnostics)
      (branchType table a.type b.type loc)

/-- The parameters of an item with their types, and what was reported about these. -/
def contextOf (table : ExportTable) (ps : List Param) : Context × List Diagnostic :=
  ps.foldl (fun found p =>
    let t := typeOfExpr table p.type
    ((p.name, t.type) :: found.1, found.2 ++ t.diagnostics)) ([], [])

/-- What is wrong with a body of some type in an item that declares a type. A reference has to be of that very
type, a value has to convert to it. -/
def bodyProblems (table : ExportTable) (byRef : Bool) (body : Expr) (type declared : Ty) : List Diagnostic :=
  if byRef then
    if !body.isAssignable then [Problem.notAssignable.located body.loc]
    else if type ≠ declared ∧ type ≠ .error ∧ declared ≠ .error then
      [(Problem.noBinding type.display declared.display).located body.loc]
    else []
  else if type.converts table declared then []
  else [(Problem.noConversion type.display declared.display).located body.loc]

/-- All that is wrong with the types of an item. -/
def checkItem (table : ExportTable) (item : Item) : List Diagnostic :=
  let context := contextOf table item.params
  let declared := typeOfExpr table item.returnType
  let body := typeOf table context.1 item.body
  context.2 ++ declared.diagnostics ++ body.diagnostics ++
    bodyProblems table item.byRef item.body body.type declared.type

/-- All that is wrong with the types of a tree. -/
def check (table : ExportTable) (tree : SourceTree) : List Diagnostic := tree.items.flatMap (checkItem table)

end FlowCheck.Flow

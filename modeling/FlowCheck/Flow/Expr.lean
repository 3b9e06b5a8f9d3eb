import FlowCheck.Diagnostic
import FlowCheck.Flow.Token

/-! # Flow trees

Expressions, type names and items, each with the place that messages about it name: that of a literal or
name itself, of the operator, or of the field's name. -/

namespace FlowCheck.Flow

/-- Operators with one operand. -/
inductive UnaryOp where
  | neg | not
  deriving DecidableEq, Repr, Inhabited

/-- Operators with two operands. -/
inductive BinaryOp where
  | or | and | eq | ne | lt | le | gt | ge | add | sub | mul | div | rem
  deriving DecidableEq, Repr, Inhabited

/-- The sign of an operator. -/
def UnaryOp.symbol : UnaryOp → Symbol
  | .neg => .minus
  | .not => .bang

/-- The sign of an operator. -/
def BinaryOp.symbol : BinaryOp → Symbol
  | .or => .or
  | .and => .and
  | .eq => .equal
  | .ne => .notEqual
  | .lt => .less
  | .le => .lessEqual
  | .gt => .greater
  | .ge => .greaterEqual
  | .add => .plus
  | .sub => .minus
  | .mul => .star
  | .div => .slash
  | .rem => .percent

/-- The operators with two operands in tiers, those that bind loosest first. The operators of a tier are
taken from left to right. -/
def BinaryOp.tiers : List (List BinaryOp) :=
  [[.or], [.and], [.eq, .ne], [.lt, .le, .gt, .ge], [.add, .sub], [.mul, .div, .rem]]

/-- An expression. -/
inductive Expr where
  | int (value : Nat) (loc : Location)
  | float (value : Binary64) (loc : Location)
  | string (value : String) (loc : Location)
  | bool (value : Bool) (loc : Location)
  | null (loc : Location)
  | name (name : String) (loc : Location)
  | member (target : Expr) (field : String) (loc : Location)
  | unary (op : UnaryOp) (operand : Expr) (loc : Location)
  | binary (op : BinaryOp) (left right : Expr) (loc : Location)
  | conditional (test positive negative : Expr) (loc : Location)
  deriving DecidableEq, Repr, Inhabited

namespace Expr

/-- The place that messages about an expression name. -/
def loc : Expr → Location
  | .int _ loc | .float _ loc | .string _ loc | .bool _ loc | .null loc | .name _ loc => loc
  | .member _ _ loc | .unary _ _ loc | .binary _ _ _ loc | .conditional _ _ _ loc => loc

/-- The number of nodes on the longest path from the root to a leaf. -/
def height : Expr → Nat
  | .int .. | .float .. | .string .. | .bool .. | .null .. | .name .. => 1
  | .member target _ _ => target.height + 1
  | .unary _ operand _ => operand.height + 1
  | .binary _ left right _ => max left.height right.height + 1
  | .conditional test positive negative _ => max (max test.height positive.height) negative.height + 1

/-- A name, and a member of what can be assigned to, can be assigned to. -/
def isAssignable : Expr → Bool
  | .name .. => true
  | .member target _ _ => target.isAssignable
  | _ => false

end Expr

/-- A type as it is written: a path of identifiers and points, and type arguments. -/
inductive TypeExpr where
  | mk (path : String) (args : List TypeExpr) (loc : Location)
  deriving Repr, Inhabited

/-- A parameter of an item. -/
structure Param where
  name : String
  type : TypeExpr
  loc : Location
  deriving Repr, Inhabited

/-- An item `fn name(params) -> type => body;`, or with `ref type` for one that gives a reference. -/
structure Item where
  name : String
  params : List Param
  byRef : Bool
  returnType : TypeExpr
  body : Expr
  loc : Location
  deriving Repr, Inhabited

/-- A text as a tree: the items that are whole, and all that is wrong with its lexemes and its form. -/
structure SourceTree where
  items : List Item
  diagnostics : List Diagnostic
  deriving Repr, Inhabited

end FlowCheck.Flow

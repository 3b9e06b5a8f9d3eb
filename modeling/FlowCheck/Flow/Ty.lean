/-! # Flow types

The types that the checker gives to expressions. -/

namespace FlowCheck.Flow

/-- A type of an expression. -/
inductive Ty where
  /-- An exported type, by its full name, with its arguments. -/
  | named (name : String) (args : List Ty)
  /-- The type of `null`. -/
  | null
  /-- No type: what is wrong is reported elsewhere. -/
  | error
  deriving Repr, Inhabited

namespace Ty

mutual
/-- Equality of types is decidable. -/
def decEq : (a b : Ty) → Decidable (a = b)
  | .null, .null => isTrue rfl
  | .error, .error => isTrue rfl
  | .named m as, .named n bs =>
    match decEqAll as bs with
    | isTrue h => if g : m = n then isTrue (by rw [g, h]) else isFalse (by intro e; exact g (Ty.named.inj e).1)
    | isFalse h => isFalse (by intro e; exact h (Ty.named.inj e).2)
  | .null, .error | .null, .named .. | .error, .null | .error, .named .. | .named .., .null | .named .., .error =>
    isFalse nofun
/-- Equality of lists of types is decidable. -/
def decEqAll : (as bs : List Ty) → Decidable (as = bs)
  | [], [] => isTrue rfl
  | [], _ :: _ => isFalse nofun
  | _ :: _, [] => isFalse nofun
  | a :: as, b :: bs =>
    match decEq a b, decEqAll as bs with
    | isTrue h, isTrue g => isTrue (by rw [h, g])
    | isFalse h, _ => isFalse (by intro e; exact h (List.cons.inj e).1)
    | _, isFalse g => isFalse (by intro e; exact g (List.cons.inj e).2)
end

instance : DecidableEq Ty := decEq

mutual
/-- How a type is written. -/
def display : Ty → String
  | .named name [] => name
  | .named name (arg :: args) => name ++ "<" ++ ", ".intercalate (arg.display :: displayAll args) ++ ">"
  | .null => "<null>"
  | .error => "?"
/-- How each of some types is written. -/
def displayAll : List Ty → List String
  | [] => []
  | t :: ts => t.display :: displayAll ts
end

/-- The type that every other extends. -/
def object : Ty := .named "Core.Object" []

/-- The type of whole numbers. -/
def int : Ty := .named "Core.Int" []

/-- The type of numbers with a point. -/
def float : Ty := .named "Core.Float" []

/-- The type of truth values. -/
def bool : Ty := .named "Core.Bool" []

/-- The type of strings. -/
def string : Ty := .named "Core.String" []

/-- The types of numbers. -/
def isNumeric (t : Ty) : Bool := t = int || t = float

/-- The types without `null`. -/
def isValueType (t : Ty) : Bool := t = int || t = float || t = bool

end Ty

end FlowCheck.Flow

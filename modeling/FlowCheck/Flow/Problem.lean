import FlowCheck.Diagnostic
import FlowCheck.Text.Numeral

/-! # Problems

All that can be wrong with a Flow text, with the code and the wording of each. -/

namespace FlowCheck.Flow

/-- Something wrong with a Flow text. Types, operators and tokens are given as they are written. -/
inductive Problem where
  /-- A comment is not closed. -/
  | unclosedComment
  /-- A backslash stands before a character that it does not escape. -/
  | unknownEscape (c : Char)
  /-- A string is not closed on its line. -/
  | newlineInString
  /-- A whole number is 2^63 or more. -/
  | integerTooLarge
  /-- A character starts no token. -/
  | unexpectedCharacter (c : Char)
  /-- A symbol is missing. -/
  | expected (symbol : String)
  /-- An identifier is missing. -/
  | expectedIdentifier
  /-- No expression starts with this token. -/
  | invalidTerm (token : String)
  /-- An expression or a type is nested too deeply. -/
  | tooComplex
  /-- No linked module exports a type of this name. -/
  | unknownType (path : String)
  /-- A type has another number of arguments than it takes. -/
  | wrongArity (name : String) (arity : Nat)
  /-- A name stands for no parameter. -/
  | unknownName (name : String)
  /-- A type has no field of this name. -/
  | noField (type field : String)
  /-- An operator with one operand does not take this type. -/
  | badOperand (operator type : String)
  /-- An operator does not take this pair of types. -/
  | badOperands (operator left right : String)
  /-- A value does not convert to the type it should have. -/
  | noConversion (source target : String)
  /-- A reference has another type than it should have. -/
  | noBinding (source target : String)
  /-- A reference should name a place that can be assigned to. -/
  | notAssignable
  /-- Neither branch of a conditional converts to the type of the other. -/
  | branchesDisagree (left right : String)
  /-- The test of a conditional is a literal. -/
  | constantTest (value : Bool)
  deriving DecidableEq, Repr, Inhabited

namespace Problem

/-- The code of a problem. -/
def code : Problem → String
  | .unclosedComment => "FX1035"
  | .unknownEscape _ => "FX1009"
  | .newlineInString => "FX1010"
  | .integerTooLarge => "FX1021"
  | .unexpectedCharacter _ => "FX1056"
  | .expected _ => "FX1003"
  | .expectedIdentifier => "FX1003"
  | .invalidTerm _ => "FX1525"
  | .tooComplex => "FX8078"
  | .unknownType _ => "FX0246"
  | .wrongArity _ _ => "FX0305"
  | .unknownName _ => "FX0103"
  | .noField _ _ => "FX1061"
  | .badOperand _ _ => "FX0023"
  | .badOperands _ _ _ => "FX0019"
  | .noConversion _ _ => "FX0029"
  | .noBinding _ _ => "FX0029"
  | .notAssignable => "FX0131"
  | .branchesDisagree _ _ => "FX0173"
  | .constantTest _ => "FX8001"

/-- The wording of a problem. -/
def message : Problem → String
  | .unclosedComment => "End-of-file found, '*/' expected"
  | .unknownEscape c => "Unrecognized escape sequence '\\" ++ String.singleton c ++ "'"
  | .newlineInString => "Newline in constant"
  | .integerTooLarge => "Integral constant is too large"
  | .unexpectedCharacter c => "Unexpected character '" ++ String.singleton c ++ "'"
  | .expected symbol => "Syntax error, '" ++ symbol ++ "' expected"
  | .expectedIdentifier => "Identifier expected"
  | .invalidTerm token => "Invalid expression term '" ++ token ++ "'"
  | .tooComplex => "An expression is too long or complex to compile"
  | .unknownType path =>
    "The type or namespace name '" ++ path ++ "' could not be found (are you missing a module reference?)"
  | .wrongArity name arity =>
    "Using the generic type '" ++ name ++ "' requires " ++ Text.Numeral.text arity ++ " type argument(s)"
  | .unknownName name => "The name '" ++ name ++ "' does not exist in the current context"
  | .noField type field => "'" ++ type ++ "' does not contain a definition for '" ++ field ++ "'"
  | .badOperand operator type =>
    "Operator '" ++ operator ++ "' cannot be applied to operand of type '" ++ type ++ "'"
  | .badOperands operator left right =>
    "Operator '" ++ operator ++ "' cannot be applied to operands of type '" ++ left ++ "' and '" ++ right ++ "'"
  | .noConversion source target => "Cannot implicitly convert type '" ++ source ++ "' to '" ++ target ++ "'"
  | .noBinding source target => "Cannot bind a reference of type '" ++ source ++ "' to '" ++ target ++ "'"
  | .notAssignable => "The expression cannot be used as a reference because it is not assignable"
  | .branchesDisagree left right =>
    "Type of conditional expression cannot be determined because there is no implicit conversion between '" ++
      left ++ "' and '" ++ right ++ "'"
  | .constantTest value => "Condition is always " ++ (if value then "true" else "false")

/-- A constant test is only a warning. -/
def severity : Problem → Severity
  | .constantTest _ => .warning
  | _ => .error

/-- The problem as a diagnostic at a place. -/
def located (p : Problem) (loc : Location) : Diagnostic := ⟨p.severity, p.code, p.message, some loc⟩

end Problem

end FlowCheck.Flow

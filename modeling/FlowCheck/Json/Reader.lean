import FlowCheck.Json.Token
import FlowCheck.Json.Value

/-! # Reading JSON

A machine goes over a text once, token by token. Its state says what may come next, and which arrays and
objects are open around it; so nesting of any depth is read. -/

namespace FlowCheck.Json

/-- The members of an object. -/
abbrev Members := List (Option String × Value)

/-- An array or object that is open, with what it holds so far, the last first. -/
inductive Frame where
  | array (elements : List Value)
  /-- An object in which the value of `key` is being read. -/
  | object (members : Members) (key : Option String)
  deriving Inhabited

/-- What may come next. The open arrays and objects stand innermost first. -/
inductive State where
  /-- A value. -/
  | value (stack : List Frame)
  /-- The first element of an array, or its end. -/
  | arrayStart (stack : List Frame)
  /-- The first name of an object, or its end. -/
  | objectStart (stack : List Frame)
  /-- A name in an object, behind a comma. -/
  | name (members : Members) (stack : List Frame)
  /-- The colon behind a name. -/
  | colon (members : Members) (key : Option String) (stack : List Frame)
  /-- What follows a value: a comma or an end, or, when nothing is open, the end of the text. -/
  | after (value : Value) (stack : List Frame)
  deriving Inhabited

namespace State

/-- Goes over a token where a value must come. -/
def begin? (stack : List Frame) : Token → Option State
  | .null => some (.after .null stack)
  | .bool b => some (.after (.bool b) stack)
  | .number text => some (.after (.number text) stack)
  | .string text => some (.after (.string text) stack)
  | .leftBracket => some (.arrayStart stack)
  | .leftBrace => some (.objectStart stack)
  | _ => none

/-- Goes over a token. -/
def step? : State → Token → Option State
  | .value stack, t => begin? stack t
  | .arrayStart stack, t => if t = .rightBracket then some (.after (.array []) stack) else begin? (.array [] :: stack) t
  | .objectStart stack, .rightBrace => some (.after (.object []) stack)
  | .objectStart stack, .string key => some (.colon [] key stack)
  | .name members stack, .string key => some (.colon members key stack)
  | .colon members key stack, .colon => some (.value (.object members key :: stack))
  | .after v (.array elements :: stack), .comma => some (.value (.array (v :: elements) :: stack))
  | .after v (.array elements :: stack), .rightBracket => some (.after (.array (v :: elements).reverse) stack)
  | .after v (.object members key :: stack), .comma => some (.name ((key, v) :: members) stack)
  | .after v (.object members key :: stack), .rightBrace =>
    some (.after (.object ((key, v) :: members).reverse) stack)
  | _, _ => none

/-- Goes over a text. -/
def run? (s : State) : List Char → Option State
  | [] => some s
  | c :: rest =>
    if isBlank c then run? s rest
    else match h : token? c rest with
      | none => none
      | some (t, left) =>
        have := token?_length h
        match s.step? t with
        | none => none
        | some next => run? next left
termination_by text => text.length
decreasing_by all_goals simp only [List.length_cons] at *; omega

end State

/-- The value that a text is. -/
def read? (text : String) : Option Value :=
  match State.run? (.value []) text.toList with
  | some (.after v []) => some v
  | _ => none

end FlowCheck.Json

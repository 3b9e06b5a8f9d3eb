import FlowCheck.Json.Value

/-! # Records in JSON

How values of the program are read from JSON values. A record of fields is an object, which may have other
members besides, or an array of the fields in their order, of which those at the end may be missing. No field
may be given twice. -/

namespace FlowCheck.Json

/-- The values of one name among the members of an object. -/
def valuesOf (name : String) (members : List (Option String × Value)) : List Value :=
  (members.filter fun m => m.1 == some name).map (·.2)

/-- The values of the fields of a record, with `none` for a missing one. -/
def fields? (names : List String) : Value → Option (List (Option Value))
  | .object members =>
    if members.all (·.1.isSome) && names.all (fun name => (valuesOf name members).length ≤ 1) then
      some (names.map fun name => (valuesOf name members).head?)
    else none
  | .array elements =>
    if elements.length ≤ names.length then
      some (elements.map some ++ List.replicate (names.length - elements.length) none)
    else none
  | _ => none

/-- Reads a string. -/
def string? : Value → Option String
  | .string text => text
  | _ => none

/-- Reads an array. -/
def list? {α : Type} (decode : Value → Option α) : Value → Option (List α)
  | .array elements => elements.mapM decode
  | _ => none

/-- Reads a number below a bound that is written with digits only. -/
def natBelow? (bound : Nat) : Value → Option Nat
  | .number text => Text.Numeral.read? bound text
  | _ => none

/-- Reads one of some words: the word as a string, or as the only member of an object with the value `null`. -/
def word? {α : Type} (words : List (String × α)) : Value → Option α
  | .string (some s) => words.lookup s
  | .object [(some s, .null)] => words.lookup s
  | _ => none

/-- Reads a field that must be there. -/
def required {α : Type} (decode : Value → Option α) : Option Value → Option α
  | some v => decode v
  | none => none

/-- Reads a field that has a default. -/
def withDefault {α : Type} (absent : α) (decode : Value → Option α) : Option Value → Option α
  | some v => decode v
  | none => some absent

/-- Reads a field that may be missing or `null`. -/
def optional {α : Type} (decode : Value → Option α) : Option Value → Option (Option α)
  | some .null => some none
  | some v => (decode v).map some
  | none => some none

end FlowCheck.Json

import FlowCheck.Flow.Expr
import FlowCheck.Flow.Problem

/-! # Reading tokens

A parser reads something off the front of a list of tokens, or stops with the one diagnostic that says what
is missing there. What it leaves is a suffix of what it was given, and carries the proof, so that a loop which
reads on ends by the length of what is left. -/

namespace FlowCheck.Flow

/-- Something read off the front of `tokens`. -/
structure Parsed (α : Type) (tokens : List Token) where
  value : α
  rest : List Token
  suffix : rest <:+ tokens

namespace Parsed

/-- What is read off the front of a suffix, with more tokens before it. -/
def widen {α : Type} {few many : List Token} (h : few <:+ many) (p : Parsed α few) : Parsed α many :=
  ⟨p.value, p.rest, p.suffix.trans h⟩

end Parsed

/-- Reads an `α` off the front of a list of tokens. -/
def Parser (α : Type) := (tokens : List Token) → Except Diagnostic (Parsed α tokens)

namespace Parser

/-- Reads nothing. -/
protected def pure {α : Type} (a : α) : Parser α := fun tokens => .ok ⟨a, tokens, List.suffix_refl _⟩

/-- Reads on with a parser that depends on what was read. -/
protected def bind {α β : Type} (p : Parser α) (f : α → Parser β) : Parser β := fun tokens =>
  match p tokens with
  | .error d => .error d
  | .ok first =>
    match f first.value first.rest with
    | .error d => .error d
    | .ok second => .ok (second.widen first.suffix)

instance : Monad Parser where
  pure := Parser.pure
  bind := Parser.bind

/-- The token at the front. A list of tokens ends with the end of the file, and what is left never is empty. -/
def current (tokens : List Token) : Token := tokens.headD .atStart

/-- The token at the front, which is left there. -/
def peek : Parser Token := fun tokens => .ok ⟨current tokens, tokens, List.suffix_refl _⟩

/-- Takes the token at the front. -/
def advance : Parser Token := fun tokens => .ok ⟨current tokens, tokens.tail, List.tail_suffix tokens⟩

/-- Stops with a problem at the token at the front. -/
def fail {α : Type} (p : Problem) : Parser α := fun tokens => .error (p.located (current tokens).anchor)

/-- Takes a symbol if it is at the front. -/
def eat (s : Symbol) : Parser Bool := do
  if (← peek).kind = .symbol s then
    let _ ← advance
    pure true
  else pure false

/-- Takes a symbol. -/
def expect (s : Symbol) : Parser Unit := do
  if (← peek).kind = .symbol s then
    let _ ← advance
    pure ()
  else fail (.expected s.text)

/-- Takes an identifier. -/
def identifier : Parser String := do
  match (← peek).kind with
  | .identifier name =>
    let _ ← advance
    pure name
  | _ => fail .expectedIdentifier

/-- Goes on as long as `start?` knows the token at the front: takes it, and reads a new value with `step`. -/
def loop {α β : Type} (start? : TokenKind → Option β) (step : α → β → Token → Parser α) (value : α) : Parser α
  | [] => .ok ⟨value, [], List.suffix_refl _⟩
  | t :: ts =>
    match start? t.kind with
    | none => .ok ⟨value, t :: ts, List.suffix_refl _⟩
    | some b =>
      match step value b t ts with
      | .error d => .error d
      | .ok next =>
        have := next.suffix.length_le
        match loop start? step next.value next.rest with
        | .error d => .error d
        | .ok last => .ok (last.widen (next.suffix.trans (List.suffix_cons t ts)))
termination_by tokens => tokens.length
decreasing_by simp only [List.length_cons]; omega

/-- Knows one symbol. -/
def only (s : Symbol) (kind : TokenKind) : Option Unit := if kind = .symbol s then some () else none

/-- Reads one or more things with commas between them. -/
def commaSeparated {α : Type} (p : Parser α) : Parser (List α) := do
  let first ← p
  loop (only .comma) (fun read _ _ => do pure (read ++ [← p])) [first]

end Parser

end FlowCheck.Flow

import FlowCheck.Flow.Lexeme
import FlowCheck.Flow.Parser

/-! # The grammar of Flow

    item        = "fn" name "(" [ param { "," param } ] ")" "->" [ "ref" ] type "=>" expression ";"
    param       = name ":" type
    type        = name { "." name } [ "<" type { "," type } ">" ]
    expression  = binary [ "?" expression ":" expression ]
    binary      = unary, joined by the operators of `BinaryOp.tiers`
    unary       = ( "-" | "!" ) unary | member
    member      = primary { "." name }
    primary     = literal | name | "(" expression ")"

An expression, a pair of parentheses, a branch of a conditional, the operand of a prefix operator and a type
argument each open a level. At most `maxNesting` levels are open at a time, and no tree is higher than
`maxHeight`. The rules of expressions and types are given for the number of levels that may still be opened,
which is what their recursion follows. -/

namespace FlowCheck.Flow

open FlowCheck.Flow.Parser

/-- How many levels may be open at a time. -/
def maxNesting : Nat := 64

/-- How high the tree of an expression may be. -/
def maxHeight : Nat := 256

/-- Reads a type when `room` more levels may be opened. -/
def typeExpr : (room : Nat) → Parser TypeExpr
  | 0 => fail .tooComplex
  | room + 1 => do
    let start := (← peek).start
    let first ← identifier
    let path ← loop (only .dot) (fun path _ _ => do pure (path ++ "." ++ (← identifier))) first
    if ← eat .less then
      let args ← commaSeparated (typeExpr room)
      expect .greater
      pure ⟨path, args, start⟩
    else pure ⟨path, [], start⟩

/-- Gives a node of the tree, unless it is too high. -/
def node (e : Expr) : Parser Expr := if maxHeight < e.height then fail .tooComplex else pure e

/-- The literal or name that a token is. -/
def Expr.ofToken? (t : Token) : Option Expr :=
  match t.kind with
  | .int value => some (.int value t.start)
  | .float value => some (.float value t.start)
  | .string value => some (.string value t.start)
  | .identifier ident => some (.name ident t.start)
  | .symbol .keywordTrue => some (.bool true t.start)
  | .symbol .keywordFalse => some (.bool false t.start)
  | .symbol .keywordNull => some (.null t.start)
  | _ => none

/-- Reads a literal, a name, or what `inner` reads between parentheses. -/
def primary (inner : Parser Expr) : Parser Expr := do
  let t ← peek
  match Expr.ofToken? t with
  | some e =>
    let _ ← advance
    pure e
  | none =>
    if t.kind = .symbol .leftParen then
      let _ ← advance
      let e ← inner
      expect .rightParen
      pure e
    else fail (.invalidTerm t.kind.describe)

/-- Reads a primary expression and the members that are taken of it. -/
def member (inner : Parser Expr) : Parser Expr := do
  let target ← primary inner
  loop (only .dot) (fun target _ _ => do
    let start := (← peek).start
    let field ← identifier
    node (.member target field start)) target

/-- The operator with one operand that a token is. -/
def UnaryOp.ofKind? : TokenKind → Option UnaryOp
  | .symbol .minus => some .neg
  | .symbol .bang => some .not
  | _ => none

/-- Reads an expression with its prefix operators: the operand of one with `operand`, what stands in
parentheses with `inner`. -/
def unary (operand inner : Parser Expr) : Parser Expr := do
  let t ← peek
  match UnaryOp.ofKind? t.kind with
  | none => member inner
  | some op =>
    let _ ← advance
    let e ← operand
    node (.unary op e t.start)

/-- The operator of a tier that a token is. -/
def BinaryOp.ofKind? (tier : List BinaryOp) (kind : TokenKind) : Option BinaryOp :=
  tier.find? fun op => decide (kind = .symbol op.symbol)

/-- Reads operands joined by the operators of some tiers. -/
def binary (operand : Parser Expr) : (tiers : List (List BinaryOp)) → Parser Expr
  | [] => operand
  | tier :: tighter => do
    let left ← binary operand tighter
    loop (BinaryOp.ofKind? tier) (fun left op t => do
      let right ← binary operand tighter
      node (.binary op left right t.start)) left

/-- Reads a conditional, or just what would be its test. -/
def conditional (operand branch : Parser Expr) : Parser Expr := do
  let test ← binary operand BinaryOp.tiers
  let t ← peek
  if t.kind = .symbol .question then
    let _ ← advance
    let positive ← branch
    expect .colon
    let negative ← branch
    node (.conditional test positive negative t.start)
  else pure test

/-- The rules that depend on the number of levels that may still be opened. -/
structure Level where
  /-- Reads an expression, which opens a level. -/
  expression : Parser Expr
  /-- Reads an expression with its prefix operators. -/
  operand : Parser Expr

/-- The rules for when `room` more levels may be opened. -/
def level : (room : Nat) → Level
  | 0 => ⟨fail .tooComplex, unary (fail .tooComplex) (fail .tooComplex)⟩
  | room + 1 =>
    let below := level room
    let expression := conditional below.operand below.expression
    ⟨expression, unary below.operand expression⟩

/-- Reads an expression. -/
def expression : Parser Expr := (level maxNesting).expression

/-- Reads a parameter. -/
def param : Parser Param := do
  let start := (← peek).start
  let name ← identifier
  expect .colon
  let type ← typeExpr maxNesting
  pure ⟨name, type, start⟩

/-- Reads the parameters of an item, if there are any. -/
def params : Parser (List Param) := do
  if (← peek).kind = .symbol .rightParen then pure [] else commaSeparated param

/-- Reads an item behind its `fn`, which stands at `start`. -/
def item (start : Location) : Parser Item := do
  let name ← identifier
  expect .leftParen
  let params ← params
  expect .rightParen
  expect .arrow
  let byRef ← eat .keywordRef
  let returnType ← typeExpr maxNesting
  expect .fatArrow
  let body ← expression
  expect .semicolon
  pure ⟨name, params, byRef, returnType, body, start⟩

/-- An item can start at a token, or no more can come. -/
def startsItem (t : Token) : Bool := t.kind == .symbol .keywordFn || t.kind == .endOfFile

/-- The tokens from the next place on where an item can start. -/
def skipToItem (tokens : List Token) : List Token := tokens.dropWhile (!startsItem ·)

/-- Skipping drops tokens only. -/
theorem skipToItem_length_le (tokens : List Token) : (skipToItem tokens).length ≤ tokens.length :=
  (List.dropWhile_suffix _).length_le

/-- The items in a list of tokens, and what is wrong with its form. What cannot be read as an item is one
problem, and reading goes on at the next `fn`. -/
def itemsOf : List Token → List Item × List Diagnostic
  | [] => ([], [])
  | t :: ts =>
    if t.kind = .endOfFile then ([], [])
    else if t.kind = .symbol .keywordFn then
      match item t.start ts with
      | .ok read =>
        have := read.suffix.length_le
        let later := itemsOf read.rest
        (read.value :: later.1, later.2)
      | .error d =>
        have := skipToItem_length_le ts
        let later := itemsOf (skipToItem ts)
        (later.1, d :: later.2)
    else
      have := skipToItem_length_le ts
      let later := itemsOf (skipToItem ts)
      (later.1, (Problem.expected Symbol.keywordFn.text).located t.anchor :: later.2)
termination_by tokens => tokens.length
decreasing_by all_goals simp only [List.length_cons]; omega

/-- Reads a whole text. -/
def SourceTree.ofText (source : String) : SourceTree :=
  let text := tokenize source
  let read := itemsOf text.tokens
  ⟨read.1, text.diagnostics ++ read.2⟩

/-- Reads a text that is a single type. -/
def TypeExpr.ofText? (source : String) : Option TypeExpr :=
  let text := tokenize source
  if text.diagnostics.isEmpty then
    match typeExpr maxNesting text.tokens with
    | .ok read => if (current read.rest).kind = .endOfFile then some read.value else none
    | .error _ => none
  else none

end FlowCheck.Flow

import FlowCheck.Proofs.Flow.Reading

/-! The grammar with a counter. Here the levels that are open are counted while reading, as the next token may open
    one more or close some, and a level is opened only below the limit. The rules call each other as often as they like;
    calls behind some depth are unknown ones. Nothing of these is ever seen: the counter stays within the limit and has
    its old value behind each rule, also where a rule stops, so each rule reads what the rule of the grammar reads that
    knows how many levels may still be opened. -/

namespace FlowCheck.Flow

open FlowCheck.Flow.Parser

/-! ### Parsers that count -/

/-- What is read or why reading stops, how many levels are open then, and how many were open at most. -/
structure Counted (α : Type) (tokens : List Token) where
  outcome : Except Diagnostic (Parsed α tokens)
  opened : Nat
  peak : Nat

/-- Reads an `α` when some levels are open. -/
def Counter (α : Type) := (opened : Nat) → (tokens : List Token) → Counted α tokens

namespace Counter

variable {α β : Type}

/-- Reads without a level of its own. -/
def lift (p : Parser α) : Counter α := fun opened tokens => ⟨p tokens, opened, opened⟩

protected def bind (c : Counter α) (f : α → Counter β) : Counter β := fun opened tokens =>
  let first := c opened tokens
  match first.outcome with
  | .error d => ⟨.error d, first.opened, first.peak⟩
  | .ok read =>
    let second := f read.value first.opened read.rest
    ⟨second.outcome.map (Parsed.widen read.suffix), second.opened, max first.peak second.peak⟩

instance : Monad Counter where
  pure a := lift (pure a)
  bind := Counter.bind

/-- Opens a level, unless as many are open as may be. -/
def enter : Counter Unit := fun opened tokens =>
  if maxNesting ≤ opened then ⟨fail .tooComplex tokens, opened, opened⟩
  else ⟨.ok ⟨(), tokens, List.suffix_refl _⟩, opened + 1, opened + 1⟩

/-- Closes a level behind what is read, or where reading stops. -/
def leaving (c : Counter α) : Counter α := fun opened tokens =>
  let inner := c opened tokens
  ⟨inner.outcome, inner.opened - 1, inner.peak⟩

/-- Reads with a level of its own. -/
def nested (c : Counter α) : Counter α := do
  enter
  leaving c

/-- The loop of the grammar, round by round with the counter. -/
def loop (start? : TokenKind → Option β) (step : α → β → Token → Counter α) (value : α) : Counter α
  | opened, [] => ⟨.ok ⟨value, [], List.suffix_refl _⟩, opened, opened⟩
  | opened, t :: ts =>
    match start? t.kind with
    | none => ⟨.ok ⟨value, t :: ts, List.suffix_refl _⟩, opened, opened⟩
    | some b =>
      let first := step value b t opened ts
      match first.outcome with
      | .error d => ⟨.error d, first.opened, first.peak⟩
      | .ok next =>
        have := next.suffix.length_le
        let last := loop start? step next.value first.opened next.rest
        ⟨last.outcome.map (Parsed.widen (next.suffix.trans (List.suffix_cons t ts))), last.opened,
          max first.peak last.peak⟩
termination_by _ tokens => tokens.length
decreasing_by simp only [List.length_cons]; omega

def commaSeparated (c : Counter α) : Counter (List α) := do
  let first ← c
  loop (only .comma) (fun read _ _ => do pure (read ++ [← c])) [first]

/-! ### Rules that count -/

/-- The rules that rules inside of them call again. -/
structure Calls where
  typeExpr : Counter TypeExpr
  expression : Counter Expr
  unary : Counter Expr

section Rules

variable (calls : Calls)

def typePath : Counter TypeExpr := do
  let start := (← lift peek).start
  let first ← lift identifier
  let path ← loop (only .dot) (fun path _ _ => do pure (path ++ "." ++ (← lift identifier))) first
  if ← lift (eat .less) then
    let args ← commaSeparated calls.typeExpr
    lift (expect .greater)
    pure ⟨path, args, start⟩
  else pure ⟨path, [], start⟩

def typeExpr : Counter TypeExpr := nested (typePath calls)

def primary : Counter Expr := do
  let t ← lift peek
  match Expr.ofToken? t with
  | some e =>
    let _ ← lift advance
    pure e
  | none =>
    if t.kind = .symbol .leftParen then
      let _ ← lift advance
      let e ← calls.expression
      lift (expect .rightParen)
      pure e
    else lift (fail (.invalidTerm t.kind.describe))

def member : Counter Expr := do
  let target ← primary calls
  loop (only .dot) (fun target _ _ => do
    let start := (← lift peek).start
    let field ← lift identifier
    lift (node (.member target field start))) target

def unary : Counter Expr := do
  let t ← lift peek
  match UnaryOp.ofKind? t.kind with
  | none => member calls
  | some op =>
    let _ ← lift advance
    let e ← nested calls.unary
    lift (node (.unary op e t.start))

def binary : (tiers : List (List BinaryOp)) → Counter Expr
  | [] => unary calls
  | tier :: tighter => do
    let left ← binary tighter
    loop (BinaryOp.ofKind? tier) (fun left op t => do
      let right ← binary tighter
      lift (node (.binary op left right t.start))) left

def conditional : Counter Expr := do
  let test ← binary calls BinaryOp.tiers
  let t ← lift peek
  if t.kind = .symbol .question then
    let _ ← lift advance
    let positive ← calls.expression
    lift (expect .colon)
    let negative ← calls.expression
    lift (node (.conditional test positive negative t.start))
  else pure test

def expression : Counter Expr := nested (conditional calls)

def param : Counter Param := do
  let start := (← lift peek).start
  let name ← lift identifier
  lift (expect .colon)
  let type ← typeExpr calls
  pure ⟨name, type, start⟩

def params : Counter (List Param) := do
  if (← lift peek).kind = .symbol .rightParen then pure [] else commaSeparated (param calls)

def item (start : Location) : Counter Item := do
  let name ← lift identifier
  lift (expect .leftParen)
  let params ← params calls
  lift (expect .rightParen)
  lift (expect .arrow)
  let byRef ← lift (eat .keywordRef)
  let returnType ← typeExpr calls
  lift (expect .fatArrow)
  let body ← expression calls
  lift (expect .semicolon)
  pure ⟨name, params, byRef, returnType, body, start⟩

end Rules

/-- Rules that call each other down to some depth, and the unknown ones behind it. -/
def within (unknown : Calls) : (depth : Nat) → Calls
  | 0 => unknown
  | depth + 1 =>
    let calls := within unknown depth
    ⟨typeExpr calls, expression calls, unary calls⟩

/-- What is read of a list of tokens, how many levels are open in the end, and how many were open at most. -/
structure Swept where
  read : List Item × List Diagnostic
  opened : Nat
  peak : Nat

/-- The items in a list of tokens when some levels are open. -/
def itemsOf (calls : Calls) (opened : Nat) : List Token → Swept
  | [] => ⟨([], []), opened, opened⟩
  | t :: ts =>
    if t.kind = .endOfFile then ⟨([], []), opened, opened⟩
    else if t.kind = .symbol .keywordFn then
      let first := item calls t.start opened ts
      match first.outcome with
      | .ok read =>
        have := read.suffix.length_le
        let later := itemsOf calls first.opened read.rest
        ⟨(read.value :: later.read.1, later.read.2), later.opened, max first.peak later.peak⟩
      | .error d =>
        have := skipToItem_length_le ts
        let later := itemsOf calls first.opened (skipToItem ts)
        ⟨(later.read.1, d :: later.read.2), later.opened, max first.peak later.peak⟩
    else
      have := skipToItem_length_le ts
      let later := itemsOf calls opened (skipToItem ts)
      ⟨(later.read.1, (Problem.expected Symbol.keywordFn.text).located t.anchor :: later.read.2), later.opened, later.peak⟩
termination_by tokens => tokens.length
decreasing_by all_goals simp only [List.length_cons]; omega

/-- The rules that are read at any number of open levels. -/
inductive Rule : Type → Type where
  | typePath : Rule TypeExpr
  | typeExpr : Rule TypeExpr
  | primary : Rule Expr
  | member : Rule Expr
  | unary : Rule Expr
  | binary (tiers : List (List BinaryOp)) : Rule Expr
  | conditional : Rule Expr
  | expression : Rule Expr

/-- A rule that counts. -/
def counting (calls : Calls) : Rule α → Counter α
  | .typePath => typePath calls
  | .typeExpr => typeExpr calls
  | .primary => primary calls
  | .member => member calls
  | .unary => unary calls
  | .binary tiers => binary calls tiers
  | .conditional => conditional calls
  | .expression => expression calls

/-- A rule of the grammar for when `room` more levels may be opened; the path of a type is read on a level that the type
opened. -/
def ofGrammar (room : Nat) : Rule α → Parser α
  | .typePath => Flow.typeExpr (room + 1)
  | .typeExpr => Flow.typeExpr room
  | .primary => Flow.primary (level room).expression
  | .member => Flow.member (level room).expression
  | .unary => (level room).operand
  | .binary tiers => Flow.binary (level room).operand tiers
  | .conditional => Flow.conditional (level room).operand (level room).expression
  | .expression => (level room).expression

/-! ### What the counter does -/

/-- When so many levels are open the counting parser reads what the other one reads, no more are open behind it, and at
no time are there too many. -/
def Follows (opened : Nat) (c : Counter α) (p : Parser α) : Prop :=
  ∀ tokens, ∃ peak ≤ maxNesting, c opened tokens = ⟨p tokens, opened, peak⟩

variable {opened : Nat} {c : Counter α} {p : Parser α}

theorem follows_lift (h : opened ≤ maxNesting) (p : Parser α) : Follows opened (lift p) p :=
  fun _ => ⟨opened, h, rfl⟩

theorem follows_pure (h : opened ≤ maxNesting) (a : α) : Follows opened (pure a) (pure a) := follows_lift h (pure a)

theorem follows_bind {f : α → Counter β} {g : α → Parser β} (hc : Follows opened c p)
    (hf : ∀ a, Follows opened (f a) (g a)) : Follows opened (c >>= f) (p >>= g) := by
  intro tokens
  obtain ⟨peak, hpeak, hfirst⟩ := hc tokens
  show ∃ peak ≤ maxNesting, Counter.bind c f opened tokens = ⟨(p >>= g) tokens, opened, peak⟩
  rw [Counter.bind, hfirst, bind_apply]
  cases p tokens with
  | error d => exact ⟨peak, hpeak, rfl⟩
  | ok first =>
    obtain ⟨peak', hpeak', hsecond⟩ := hf first.value first.rest
    exact ⟨max peak peak', Nat.max_le.mpr ⟨hpeak, hpeak'⟩, by simp only [hsecond]⟩

theorem follows_ite {P : Prop} [Decidable P] {c' : Counter α} {p' : Parser α} (h : Follows opened c p)
    (h' : Follows opened c' p') : Follows opened (if P then c else c') (if P then p else p') := by
  split
  · exact h
  · exact h'

theorem follows_loop {start? : TokenKind → Option β} {step : α → β → Token → Counter α}
    {step' : α → β → Token → Parser α} (h : opened ≤ maxNesting)
    (hstep : ∀ a b t, Follows opened (step a b t) (step' a b t)) (a : α) :
    Follows opened (loop start? step a) (Parser.loop start? step' a) := by
  intro tokens
  fun_induction Parser.loop start? step' a tokens with
  | case1 a => exact ⟨opened, h, by rw [loop]⟩
  | case2 a t ts hstart => exact ⟨opened, h, by rw [loop, hstart]⟩
  | case3 a t ts b hstart d hd =>
    obtain ⟨peak, hpeak, hfirst⟩ := hstep a b t ts
    exact ⟨peak, hpeak, by simp only [loop, hstart, hfirst, hd]⟩
  | case4 a t ts b hstart next hnext _ d hd ih =>
    obtain ⟨peak, hpeak, hfirst⟩ := hstep a b t ts
    obtain ⟨peak', hpeak', hrest⟩ := ih
    refine ⟨max peak peak', Nat.max_le.mpr ⟨hpeak, hpeak'⟩, ?_⟩
    simp only [loop, hstart, hfirst, hnext, hrest, hd, Except.map]
  | case5 a t ts b hstart next hnext _ last hlast ih =>
    obtain ⟨peak, hpeak, hfirst⟩ := hstep a b t ts
    obtain ⟨peak', hpeak', hrest⟩ := ih
    refine ⟨max peak peak', Nat.max_le.mpr ⟨hpeak, hpeak'⟩, ?_⟩
    simp only [loop, hstart, hfirst, hnext, hrest, hlast, Except.map]

theorem follows_commaSeparated (h : opened ≤ maxNesting) (hc : Follows opened c p) :
    Follows opened (commaSeparated c) (Parser.commaSeparated p) :=
  follows_bind hc fun _ => follows_loop h (fun _ _ _ => follows_bind hc fun _ => follows_pure h _) _

/-- Where all levels are open none is opened. -/
theorem follows_nested_full (h : opened = maxNesting) (c : Counter α) :
    Follows opened (nested c) (fail .tooComplex) := by
  intro tokens
  refine ⟨opened, Nat.le_of_eq h, ?_⟩
  show Counter.bind enter (fun _ => leaving c) opened tokens = _
  simp only [Counter.bind, enter, if_pos (Nat.le_of_eq h.symm), fail]

theorem follows_nested (h : opened < maxNesting) (hc : Follows (opened + 1) c p) : Follows opened (nested c) p := by
  intro tokens
  obtain ⟨peak, hpeak, hinner⟩ := hc tokens
  refine ⟨max (opened + 1) peak, Nat.max_le.mpr ⟨h, hpeak⟩, ?_⟩
  show Counter.bind enter (fun _ => leaving c) opened tokens = _
  simp only [Counter.bind, enter, if_neg (Nat.not_le.mpr h), leaving, hinner]
  cases p tokens <;> rfl

/-! ### What the rules do -/

section

variable {calls : Calls} {room : Nat}

theorem follows_typePath (h : opened ≤ maxNesting) (htype : Follows opened calls.typeExpr (Flow.typeExpr room)) :
    Follows opened (typePath calls) (Flow.typeExpr (room + 1)) := by
  refine follows_bind (follows_lift h _) fun start => follows_bind (follows_lift h _) fun first => ?_
  refine follows_bind (follows_loop h (fun path _ _ => ?_) first) fun path => ?_
  · exact follows_bind (follows_lift h _) fun _ => follows_pure h _
  · refine follows_bind (follows_lift h _) fun more => follows_ite ?_ (follows_pure h _)
    exact follows_bind (follows_commaSeparated h htype) fun args =>
      follows_bind (follows_lift h _) fun _ => follows_pure h _

variable {operand inner branch : Parser Expr}

theorem follows_primary (h : opened ≤ maxNesting) (hinner : Follows opened calls.expression inner) :
    Follows opened (primary calls) (Flow.primary inner) := by
  refine follows_bind (follows_lift h _) fun t => ?_
  cases Expr.ofToken? t with
  | some e => exact follows_bind (follows_lift h _) fun _ => follows_pure h _
  | none =>
    refine follows_ite (follows_bind (follows_lift h _) fun _ => follows_bind hinner fun e => ?_) (follows_lift h _)
    exact follows_bind (follows_lift h _) fun _ => follows_pure h _

theorem follows_member (h : opened ≤ maxNesting) (hinner : Follows opened calls.expression inner) :
    Follows opened (member calls) (Flow.member inner) := by
  refine follows_bind (follows_primary h hinner) fun target => follows_loop h (fun target _ _ => ?_) target
  exact follows_bind (follows_lift h _) fun _ => follows_bind (follows_lift h _) fun _ => follows_lift h _

theorem follows_unary (h : opened ≤ maxNesting) (hoperand : Follows opened (nested calls.unary) operand)
    (hinner : Follows opened calls.expression inner) : Follows opened (unary calls) (Flow.unary operand inner) := by
  refine follows_bind (follows_lift h _) fun t => ?_
  cases UnaryOp.ofKind? t.kind with
  | none => exact follows_member h hinner
  | some op => exact follows_bind (follows_lift h _) fun _ => follows_bind hoperand fun _ => follows_lift h _

theorem follows_binary (h : opened ≤ maxNesting) (hunary : Follows opened (unary calls) operand)
    (tiers : List (List BinaryOp)) : Follows opened (binary calls tiers) (Flow.binary operand tiers) := by
  induction tiers with
  | nil => exact hunary
  | cons tier tighter ih =>
    exact follows_bind ih fun left => follows_loop h (fun _ _ _ => follows_bind ih fun _ => follows_lift h _) left

theorem follows_conditional (h : opened ≤ maxNesting) (hunary : Follows opened (unary calls) operand)
    (hbranch : Follows opened calls.expression branch) :
    Follows opened (conditional calls) (Flow.conditional operand branch) := by
  refine follows_bind (follows_binary h hunary _) fun test => follows_bind (follows_lift h _) fun t => ?_
  refine follows_ite (follows_bind (follows_lift h _) fun _ => follows_bind hbranch fun positive => ?_)
    (follows_pure h _)
  exact follows_bind (follows_lift h _) fun _ => follows_bind hbranch fun _ => follows_lift h _

end

/-- These calls, and the rule for prefix operators that makes them, read what the grammar reads when so many levels are
open and `room` more may be opened. -/
structure CallsFollow (calls : Calls) (opened room : Nat) : Prop where
  typeExpr : Follows opened calls.typeExpr (Flow.typeExpr room)
  expression : Follows opened calls.expression (level room).expression
  unary : Follows opened (unary calls) (level room).operand

/-- Calls so deep as levels may still be opened do not reach the unknown ones. -/
theorem callsFollow_within (unknown : Calls) (extra : Nat) {opened room : Nat} (h : opened + room = maxNesting) :
    CallsFollow (within unknown (room + 1 + extra)) opened room := by
  -- Each level takes one call. An operand is read behind its operator's level, but what it has in parentheses is an
  -- expression that opens its own, so the expressions come before the prefix operators.
  induction room generalizing opened extra with
  | zero =>
    have hfull : opened = maxNesting := h
    rw [show 0 + 1 + extra = extra + 1 by omega]
    have htype : Follows opened (typeExpr (within unknown extra)) (Flow.typeExpr 0) := follows_nested_full hfull _
    have hexpression : Follows opened (expression (within unknown extra)) (level 0).expression :=
      follows_nested_full hfull _
    exact ⟨htype, hexpression, follows_unary (Nat.le_of_eq hfull) (follows_nested_full hfull _) hexpression⟩
  | succ room ih =>
    have hlt : opened < maxNesting := by omega
    have hinner : CallsFollow (within unknown (room + 1 + extra)) (opened + 1) room := ih extra (by omega)
    rw [show room + 1 + 1 + extra = room + 1 + extra + 1 by omega]
    have htype : Follows opened (typeExpr (within unknown (room + 1 + extra))) (Flow.typeExpr (room + 1)) :=
      follows_nested hlt (follows_typePath hlt hinner.typeExpr)
    have hexpression : Follows opened (expression (within unknown (room + 1 + extra))) (level (room + 1)).expression :=
      follows_nested hlt (follows_conditional hlt hinner.unary hinner.expression)
    exact ⟨htype, hexpression, follows_unary (Nat.le_of_lt hlt) (follows_nested hlt hinner.unary) hexpression⟩

theorem follows_rule (unknown : Calls) {opened room : Nat} (h : opened + room = maxNesting) (rule : Rule α) :
    Follows opened (counting (within unknown (maxNesting + 1)) rule) (ofGrammar room rule) := by
  have hle : opened ≤ maxNesting := by omega
  have hcalls : CallsFollow (within unknown (maxNesting + 1)) opened room := by
    have hfollow := callsFollow_within unknown opened h
    rwa [show room + 1 + opened = maxNesting + 1 by omega] at hfollow
  have hnext : CallsFollow (within unknown (maxNesting + 2)) opened room := by
    have hfollow := callsFollow_within unknown (opened + 1) h
    rwa [show room + 1 + (opened + 1) = maxNesting + 2 by omega] at hfollow
  cases rule with
  | typePath => exact follows_typePath hle hcalls.typeExpr
  | typeExpr => exact hnext.typeExpr
  | primary => exact follows_primary hle hcalls.expression
  | member => exact follows_member hle hcalls.expression
  | unary => exact hcalls.unary
  | binary tiers => exact follows_binary hle hcalls.unary tiers
  | conditional => exact follows_conditional hle hcalls.unary hcalls.expression
  | expression => exact hnext.expression

/-! ### Items -/

section Items

variable {calls : Calls} (htype : Follows 0 (typeExpr calls) (Flow.typeExpr maxNesting))
  (hexpression : Follows 0 (expression calls) Flow.expression)

include htype

theorem follows_param : Follows 0 (param calls) Flow.param := by
  have h : 0 ≤ maxNesting := Nat.zero_le _
  refine follows_bind (follows_lift h _) fun start => follows_bind (follows_lift h _) fun name => ?_
  exact follows_bind (follows_lift h _) fun _ => follows_bind htype fun type => follows_pure h _

theorem follows_params : Follows 0 (params calls) Flow.params := by
  have h : 0 ≤ maxNesting := Nat.zero_le _
  exact follows_bind (follows_lift h _) fun _ =>
    follows_ite (follows_pure h _) (follows_commaSeparated h (follows_param htype))

include hexpression

theorem follows_item (start : Location) : Follows 0 (item calls start) (Flow.item start) := by
  have h : 0 ≤ maxNesting := Nat.zero_le _
  refine follows_bind (follows_lift h _) fun name => follows_bind (follows_lift h _) fun _ => ?_
  refine follows_bind (follows_params htype) fun params => follows_bind (follows_lift h _) fun _ => ?_
  refine follows_bind (follows_lift h _) fun _ => follows_bind (follows_lift h _) fun byRef => ?_
  refine follows_bind htype fun returnType => follows_bind (follows_lift h _) fun _ => ?_
  exact follows_bind hexpression fun body => follows_bind (follows_lift h _) fun _ => follows_pure h _

end Items

theorem follows_itemsOf {calls : Calls} (hitem : ∀ start, Follows 0 (item calls start) (Flow.item start))
    (ts : List Token) : ∃ peak ≤ maxNesting, itemsOf calls 0 ts = ⟨Flow.itemsOf ts, 0, peak⟩ := by
  fun_induction Flow.itemsOf ts with
  | case1 => exact ⟨0, Nat.zero_le _, by rw [itemsOf]⟩
  | case2 t ts hend => exact ⟨0, Nat.zero_le _, by rw [itemsOf, if_pos hend]⟩
  | case3 t ts hend hfn read hread _ later ih =>
    obtain ⟨peak, hpeak, hfirst⟩ := hitem t.start ts
    obtain ⟨peak', hpeak', hlater⟩ := ih
    refine ⟨max peak peak', Nat.max_le.mpr ⟨hpeak, hpeak'⟩, ?_⟩
    simp only [itemsOf, if_neg hend, if_pos hfn, hfirst, hread, hlater, later]
  | case4 t ts hend hfn d hd _ later ih =>
    obtain ⟨peak, hpeak, hfirst⟩ := hitem t.start ts
    obtain ⟨peak', hpeak', hlater⟩ := ih
    refine ⟨max peak peak', Nat.max_le.mpr ⟨hpeak, hpeak'⟩, ?_⟩
    simp only [itemsOf, if_neg hend, if_pos hfn, hfirst, hd, hlater, later]
  | case5 t ts hend hfn _ later ih =>
    obtain ⟨peak, hpeak, hlater⟩ := ih
    refine ⟨peak, hpeak, ?_⟩
    simp only [itemsOf, if_neg hend, if_neg hfn, hlater, later]

end Counter

end FlowCheck.Flow

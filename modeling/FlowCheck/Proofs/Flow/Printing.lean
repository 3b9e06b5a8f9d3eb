import FlowCheck.Flow.Grammar
import FlowCheck.Proofs.Flow.TypeName
import FlowCheck.Proofs.Text

/-! Expressions as they are written. A written expression has the parentheses of its text, required or not; printed
    with blanks between its words it is taken apart into just these words. -/

namespace FlowCheck.Flow

open FlowCheck.Text

/-- How tightly an operator binds among those with two operands. -/
def BinaryOp.tier : BinaryOp → Nat
  | .or => 0
  | .and => 1
  | .eq | .ne => 2
  | .lt | .le | .gt | .ge => 3
  | .add | .sub => 4
  | .mul | .div | .rem => 5

theorem BinaryOp.tier_lt (op : BinaryOp) : op.tier < 6 := by
  cases op <;> decide

def UnaryOp.text : UnaryOp → String
  | .neg => "-"
  | .not => "!"

def BinaryOp.text : BinaryOp → String
  | .or => "||"
  | .and => "&&"
  | .eq => "=="
  | .ne => "!="
  | .lt => "<"
  | .le => "<="
  | .gt => ">"
  | .ge => ">="
  | .add => "+"
  | .sub => "-"
  | .mul => "*"
  | .div => "/"
  | .rem => "%"

/-- The text is one word, with this token. -/
def Spells (text : List Char) (kind : TokenKind) : Prop :=
  ∃ c rest, text = c :: rest ∧ Lexeme.next c rest = (⟨text, some kind, []⟩, [])

instance (text : List Char) (kind : TokenKind) : Decidable (Spells text kind) :=
  match text with
  | [] => .isFalse fun ⟨_, _, h, _⟩ => by cases h
  | c :: rest => decidable_of_iff (Lexeme.next c rest = (⟨c :: rest, some kind, []⟩, []))
      ⟨fun h => ⟨c, rest, rfl, h⟩, fun ⟨_, _, h, hnext⟩ => by cases h; exact hnext⟩

/-- An expression with its parentheses, and with the texts of the numbers that have a point. -/
inductive Written where
  | int (value : Nat)
  | float (text : List Char) (value : Binary64)
  | string (value : String)
  | bool (value : Bool)
  | null
  | name (ident : String)
  | member (target : Written) (field : String)
  | unary (op : UnaryOp) (operand : Written)
  | binary (op : BinaryOp) (left right : Written)
  | conditional (test positive negative : Written)
  | parens (inner : Written)
  deriving DecidableEq, Repr, Inhabited

namespace Written

/-- What is written, without the parentheses. -/
def tree : Written → Expr
  | .int value => .int value default
  | .float _ value => .float value default
  | .string value => .string value default
  | .bool value => .bool value default
  | .null => .null default
  | .name ident => .name ident default
  | .member target field => .member target.tree field default
  | .unary op operand => .unary op operand.tree default
  | .binary op left right => .binary op left.tree right.tree default
  | .conditional test positive negative => .conditional test.tree positive.tree negative.tree default
  | .parens inner => inner.tree

/-- How tightly it binds: a conditional least of all, then the operators of the tiers, then those with one operand. -/
def rank : Written → Nat
  | .conditional .. => 0
  | .binary op .. => op.tier + 1
  | .unary .. => 7
  | _ => 8

/-- Literals and names can be written so, and parentheses stand wherever an operator would else take only a part of
its operand. The operators of a tier are taken from left to right. -/
def Proper : Written → Prop
  | .int value => value < intLimit
  | .float text value => Spells text (.float value)
  | .string _ | .bool _ | .null => True
  | .name ident => Named ident
  | .member target field => target.Proper ∧ Named field ∧ 8 ≤ target.rank
  | .unary _ operand => operand.Proper ∧ 7 ≤ operand.rank
  | .binary op left right => left.Proper ∧ right.Proper ∧ op.tier + 1 ≤ left.rank ∧ op.tier + 2 ≤ right.rank
  | .conditional test positive negative => test.Proper ∧ positive.Proper ∧ negative.Proper ∧ 1 ≤ test.rank
  | .parens inner => inner.Proper

/-- How many levels are opened in it: by parentheses, by prefix operators and by the branches of conditionals. -/
def depth : Written → Nat
  | .member target _ => target.depth
  | .unary _ operand => operand.depth + 1
  | .binary _ left right => max left.depth right.depth
  | .conditional test positive negative => max test.depth (max positive.depth negative.depth + 1)
  | .parens inner => inner.depth + 1
  | _ => 0

/-- How many levels it opens, the expression itself being one. -/
def levels (w : Written) : Nat := w.depth + 1

/-! ### Words -/

/-- A character of a string as it is written. -/
def escape (c : Char) : List Char :=
  match c with
  | '\n' => ['\\', 'n']
  | '\t' => ['\\', 't']
  | '\r' => ['\\', 'r']
  | '"' => ['\\', '"']
  | '\\' => ['\\', '\\']
  | _ => [c]

/-- A sign or keyword, with its token. -/
def sign (text : String) (s : Symbol) : List Char × TokenKind := (text.toList, .symbol s)

/-- The words it is written with, each with its token. -/
def pieces : Written → List (List Char × TokenKind)
  | .int value => [(Numeral.digits value, .int value)]
  | .float text value => [(text, .float value)]
  | .string value => [('"' :: (value.toList.flatMap escape ++ ['"']), .string value)]
  | .bool value => [if value then sign "true" .keywordTrue else sign "false" .keywordFalse]
  | .null => [sign "null" .keywordNull]
  | .name ident => [(ident.toList, .identifier ident)]
  | .member target field => target.pieces ++ [sign "." .dot, (field.toList, .identifier field)]
  | .unary op operand => sign op.text op.symbol :: operand.pieces
  | .binary op left right => left.pieces ++ sign op.text op.symbol :: right.pieces
  | .conditional test positive negative =>
    test.pieces ++ sign "?" .question :: (positive.pieces ++ sign ":" .colon :: negative.pieces)
  | .parens inner => sign "(" .leftParen :: (inner.pieces ++ [sign ")" .rightParen])

/-- The tokens of its words. -/
def words (w : Written) : List TokenKind := w.pieces.map (·.2)

/-- Its words with blanks between them. -/
def text (w : Written) : List Char := [' '].intercalate (w.pieces.map (·.1))

end Written

/-! ### Single words -/

namespace Spells

variable {text : List Char} {kind : TokenKind}

theorem content (h : Spells text kind) : content text = ⟨[kind], []⟩ := by
  obtain ⟨c, rest, rfl, hnext⟩ := h
  rw [content_cons, hnext, content_nil]
  rfl

theorem endsInComment (h : Spells text kind) : endsInComment text = false := by
  obtain ⟨c, rest, rfl, hnext⟩ := h
  rw [Flow.endsInComment, Lexeme.all_cons, hnext, Lexeme.all_nil]
  rw [List.getLast?_singleton, Option.any_some, Bool.eq_false_iff]
  intro hcomment
  obtain ⟨more, hmore⟩ := List.isPrefixOf_iff_prefix.mp hcomment
  obtain ⟨rfl, rfl⟩ := List.cons.inj hmore
  have htoken := congrArg (fun scanned => scanned.1.token) hnext
  cases htoken

theorem symbol (s : Symbol) : Spells s.text.toList (.symbol s) := by
  cases s <;> exact ⟨_, _, rfl, rfl⟩

theorem identifier {name : String} (h : Named name) : Spells name.toList (.identifier name) := by
  obtain ⟨c, rest, hname, -, -, -, -, hstart, hrest⟩ := h.start
  have hword : wordToken (c :: rest) = .identifier name := by
    rw [wordToken, ← hname, String.ofList_toList, h.word]
  refine ⟨c, rest, hname, ?_⟩
  rw [Lexeme.next_name hstart, List.takeWhile_eq_self_iff.mpr hrest, List.dropWhile_eq_nil_iff.mpr hrest, hword, hname]

theorem named {name : String} (h : Spells name.toList (.identifier name)) : Named name := by
  obtain ⟨c, rest, -, hnext⟩ := h
  exact (Lexeme.next_kind (congrArg (·.1.token) hnext)).2.1 name rfl

theorem digits_cons {digits : List Char} (h : Numeral.isDigits digits = true) :
    ∃ c rest, digits = c :: rest ∧ isDigit c = true ∧ ∀ d ∈ rest, isDigit d = true := by
  simp only [Numeral.isDigits, Bool.and_eq_true, Bool.not_eq_true', List.isEmpty_eq_false_iff_exists_mem] at h
  obtain ⟨⟨_, hmem⟩, hall⟩ := h
  obtain ⟨c, rest, rfl⟩ := List.exists_cons_of_ne_nil (List.ne_nil_of_mem hmem)
  have hdigits := List.all_eq_true.mp hall
  exact ⟨c, rest, rfl, hdigits c (.head _), fun d hd => hdigits d (.tail _ hd)⟩

theorem whole {digits : List Char} (h : Numeral.isDigits digits = true) (hlimit : Numeral.value digits < intLimit) :
    Spells digits (.int (Numeral.value digits)) := by
  obtain ⟨c, rest, rfl, hc, hrest⟩ := digits_cons h
  refine ⟨c, rest, rfl, ?_⟩
  rw [Lexeme.next_digit hc, List.takeWhile_eq_self_iff.mpr hrest, List.dropWhile_eq_nil_iff.mpr hrest, Lexeme.number,
    Lexeme.int, if_pos hlimit]
  simp

theorem int {value : Nat} (h : value < intLimit) : Spells (Numeral.digits value) (.int value) := by
  obtain ⟨hdigits, hvalue⟩ := Numeral.digits_spec value
  have hwhole := whole hdigits (hvalue.symm ▸ h)
  rwa [hvalue] at hwhole

theorem float {whole fraction : List Char} (hwhole : Numeral.isDigits whole = true)
    (hfraction : Numeral.isDigits fraction = true) :
    Spells (whole ++ '.' :: fraction) (.float (.ofDigits whole fraction)) := by
  obtain ⟨c, rest, rfl, hc, hrest⟩ := digits_cons hwhole
  obtain ⟨d, more, rfl, hd, hmore⟩ := digits_cons hfraction
  refine ⟨c, rest ++ '.' :: d :: more, rfl, ?_⟩
  have htake : (rest ++ '.' :: d :: more).takeWhile isDigit = rest := by
    rw [List.takeWhile_append_of_pos hrest, List.takeWhile_cons_of_neg (by decide), List.append_nil]
  have hdrop : (rest ++ '.' :: d :: more).dropWhile isDigit = '.' :: d :: more := by
    rw [List.dropWhile_append_of_pos hrest, List.dropWhile_cons_of_neg (by decide)]
  have hall : ∀ e ∈ d :: more, isDigit e = true := List.forall_mem_cons.mpr ⟨hd, hmore⟩
  rw [Lexeme.next_digit hc, htake, hdrop]
  simp only [Lexeme.number, hd, ↓reduceIte, List.takeWhile_eq_self_iff.mpr hall, List.dropWhile_eq_nil_iff.mpr hall]

theorem scan_escape (c : Char) (more : List Char) :
    Scan.string (Written.escape c ++ more) = (Scan.string more).after (Written.escape c) [c] [] := by
  unfold Written.escape
  split
  case h_6 hn _ _ hquote hslash => exact Scan.string_cons ⟨hslash, hquote, hn⟩ more
  all_goals simp only [List.cons_append, List.nil_append, Scan.string, Scan.escaped?]

theorem string (value : String) : Spells ('"' :: (value.toList.flatMap Written.escape ++ ['"'])) (.string value) := by
  have hscan (text : List Char) : Scan.string (text.flatMap Written.escape ++ ['"']) =
      ⟨text.flatMap Written.escape ++ ['"'], text, [], []⟩ := by
    induction text with
    | nil => rfl
    | cons c text ih =>
      rw [List.flatMap_cons, List.append_assoc, scan_escape, ih]
      simp [Scan.after]
  refine ⟨'"', _, rfl, ?_⟩
  rw [Lexeme.next_string, hscan]
  simp [String.ofList_toList]

end Spells

instance : DecidablePred Named := fun name =>
  decidable_of_iff (Spells name.toList (.identifier name)) ⟨Spells.named, Spells.identifier⟩

/-! ### Texts -/

/-- Words with blanks between them say their tokens, alone and before whatever separates. -/
theorem content_spaced {pieces : List (List Char × TokenKind)} (h : ∀ p ∈ pieces, Spells p.1 p.2) (hne : pieces ≠ []) :
    content ([' '].intercalate (pieces.map (·.1))) = ⟨pieces.map (·.2), []⟩ ∧ ∀ d, separates d = true → ∀ more,
      content ([' '].intercalate (pieces.map (·.1)) ++ d :: more) = ⟨pieces.map (·.2), []⟩ ++ content (d :: more) := by
  induction pieces with
  | nil => exact absurd rfl hne
  | cons p pieces ih =>
    obtain ⟨hp, hpieces⟩ := List.forall_mem_cons.mp h
    have hword (d : Char) (hd : separates d = true) (more : List Char) :
        content (p.1 ++ d :: more) = ⟨[p.2], []⟩ ++ content (d :: more) := by
      rw [content_append hd (congrArg Content.problems hp.content) hp.endsInComment, hp.content]
    cases pieces with
    | nil => exact ⟨by simpa using hp.content, fun d hd more => by simpa using hword d hd more⟩
    | cons q pieces =>
      obtain ⟨halone, hbefore⟩ := ih hpieces (List.cons_ne_nil _ _)
      have hjoin : [' '].intercalate ((p :: q :: pieces).map (·.1)) =
          p.1 ++ ' ' :: [' '].intercalate ((q :: pieces).map (·.1)) := by
        rw [List.map_cons, List.map_cons, List.intercalate_cons_cons]
        simp
      refine ⟨?_, fun d hd more => ?_⟩
      · rw [hjoin, hword ' ' (by decide), content_space, halone]
        rfl
      · rw [hjoin, List.append_assoc, List.cons_append, hword ' ' (by decide), content_space, hbefore d hd,
          ← Content.append_assoc]
        rfl

namespace Written

variable {w : Written}

theorem spells_sign {text : String} {s : Symbol} (h : text = s.text) : Spells (sign text s).1 (sign text s).2 := by
  rw [h]
  exact .symbol s

theorem spells_pieces (h : w.Proper) : ∀ p ∈ w.pieces, Spells p.1 p.2 := by
  induction w with
  | int => simpa [pieces] using Spells.int h
  | float => exact List.forall_mem_singleton.mpr h
  | string value => simpa [pieces] using Spells.string value
  | bool value => cases value <;> exact List.forall_mem_singleton.mpr (spells_sign rfl)
  | null => exact List.forall_mem_singleton.mpr (spells_sign rfl)
  | name => simpa [pieces] using Spells.identifier h
  | member target field ih =>
    rw [pieces, List.forall_mem_append, List.forall_mem_cons, List.forall_mem_singleton]
    exact ⟨ih h.1, spells_sign rfl, .identifier h.2.1⟩
  | unary op operand ih =>
    rw [pieces, List.forall_mem_cons]
    exact ⟨spells_sign (by cases op <;> rfl), ih h.1⟩
  | binary op left right hleft hright =>
    rw [pieces, List.forall_mem_append, List.forall_mem_cons]
    exact ⟨hleft h.1, spells_sign (by cases op <;> rfl), hright h.2.1⟩
  | conditional test positive negative htest hpositive hnegative =>
    rw [pieces, List.forall_mem_append, List.forall_mem_cons, List.forall_mem_append, List.forall_mem_cons]
    exact ⟨htest h.1, spells_sign rfl, hpositive h.2.1, spells_sign rfl, hnegative h.2.2.1⟩
  | parens inner ih =>
    rw [pieces, List.forall_mem_cons, List.forall_mem_append, List.forall_mem_singleton]
    exact ⟨spells_sign rfl, ih h, spells_sign rfl⟩

instance decidableProper : (w : Written) → Decidable w.Proper
  | .int value => inferInstanceAs (Decidable (value < intLimit))
  | .float text value => inferInstanceAs (Decidable (Spells text (.float value)))
  | .string _ | .bool _ | .null => .isTrue trivial
  | .name ident => inferInstanceAs (Decidable (Named ident))
  | .member target field =>
    have := decidableProper target
    inferInstanceAs (Decidable (target.Proper ∧ Named field ∧ 8 ≤ target.rank))
  | .unary _ operand =>
    have := decidableProper operand
    inferInstanceAs (Decidable (operand.Proper ∧ 7 ≤ operand.rank))
  | .binary op left right =>
    have := decidableProper left
    have := decidableProper right
    inferInstanceAs (Decidable (left.Proper ∧ right.Proper ∧ op.tier + 1 ≤ left.rank ∧ op.tier + 2 ≤ right.rank))
  | .conditional test positive negative =>
    have := decidableProper test
    have := decidableProper positive
    have := decidableProper negative
    inferInstanceAs (Decidable (test.Proper ∧ positive.Proper ∧ negative.Proper ∧ 1 ≤ test.rank))
  | .parens inner => decidableProper inner

theorem pieces_ne_nil (w : Written) : w.pieces ≠ [] := by
  cases w <;> simp [pieces]

/-- What is printed says its words. -/
theorem content_text (h : w.Proper) : content w.text = ⟨w.words, []⟩ ∧ ∀ d, separates d = true → ∀ more,
    content (w.text ++ d :: more) = ⟨w.words, []⟩ ++ content (d :: more) :=
  content_spaced (spells_pieces h) w.pieces_ne_nil

end Written

end FlowCheck.Flow

import FlowCheck.Text.Numeral

/-! # JSON tokens

A JSON text as punctuation, words, numbers and strings, the blanks between them left out. A text that has
anything else in it has no tokens. -/

namespace FlowCheck.Json

/-- A token of a JSON text. -/
inductive Token where
  | leftBracket | rightBracket | leftBrace | rightBrace | comma | colon
  | null
  | bool (value : Bool)
  | number (text : List Char)
  /-- A string, or `none` for one that names half of a surrogate pair. -/
  | string (text : Option String)
  deriving DecidableEq, Repr, Inhabited

/-- The blanks of JSON. -/
def isBlank (c : Char) : Bool := c == ' ' || c == '\t' || c == '\n' || c == '\r'

/-! ### Strings -/

/-- What stands in a string: a character, or a UTF-16 code unit given by an escape. -/
inductive Piece where
  | char (c : Char)
  | unit (n : Nat)
  deriving DecidableEq, Repr, Inhabited

/-- The number of a hexadecimal digit of either case. -/
def hexValue? (c : Char) : Option Nat :=
  if '0' ≤ c && c ≤ '9' then some (c.toNat - 48)
  else if 'a' ≤ c && c ≤ 'f' then some (c.toNat - 87)
  else if 'A' ≤ c && c ≤ 'F' then some (c.toNat - 55)
  else none

/-- The number of four hexadecimal digits. -/
def hexQuad? (a b c d : Char) : Option Nat :=
  match hexValue? a, hexValue? b, hexValue? c, hexValue? d with
  | some a, some b, some c, some d => some (4096 * a + 256 * b + 16 * c + d)
  | _, _, _, _ => none

/-- What a character means behind a backslash. -/
def escaped? : Char → Option Char
  | '"' => some '"'
  | '\\' => some '\\'
  | '/' => some '/'
  | 'b' => some '\x08'
  | 'f' => some '\x0c'
  | 'n' => some '\n'
  | 'r' => some '\r'
  | 't' => some '\t'
  | _ => none

/-- Reads a string behind its opening quote: its pieces, and what is left behind the closing one. -/
def scanString? : List Char → Option (List Piece × List Char)
  | [] => none
  | '\\' :: 'u' :: a :: b :: c :: d :: rest =>
    match hexQuad? a b c d, scanString? rest with
    | some n, some (ps, left) => some (.unit n :: ps, left)
    | _, _ => none
  | '\\' :: c :: rest =>
    match escaped? c, scanString? rest with
    | some e, some (ps, left) => some (.char e :: ps, left)
    | _, _ => none
  | c :: rest =>
    if c = '"' then some ([], rest)
    else if c = '\\' ∨ c.toNat < 32 then none
    else match scanString? rest with
      | some (ps, left) => some (.char c :: ps, left)
      | none => none

/-- A code unit is the first half of a surrogate pair. -/
def isHighSurrogate (n : Nat) : Bool := 0xD800 ≤ n && n < 0xDC00

/-- A code unit is the second half of a surrogate pair. -/
def isLowSurrogate (n : Nat) : Bool := 0xDC00 ≤ n && n < 0xE000

/-- The text of some pieces. A surrogate pair makes one character; half of one makes none. -/
def textOf? : List Piece → Option (List Char)
  | [] => some []
  | .char c :: ps => (textOf? ps).map (c :: ·)
  | .unit high :: .unit low :: ps =>
    if isHighSurrogate high then
      if isLowSurrogate low then
        (textOf? ps).map (Char.ofNat (0x10000 + 1024 * (high - 0xD800) + (low - 0xDC00)) :: ·)
      else none
    else if isLowSurrogate high then none
    else (textOf? (.unit low :: ps)).map (Char.ofNat high :: ·)
  | .unit n :: ps => if isHighSurrogate n || isLowSurrogate n then none else (textOf? ps).map (Char.ofNat n :: ·)

/-! ### Numbers -/

/-- Reads a row of at least one digit. -/
def scanDigits? (text : List Char) : Option (List Char × List Char) :=
  match text.takeWhile Text.isDigit with
  | [] => none
  | ds => some (ds, text.dropWhile Text.isDigit)

/-- Reads the whole part of a number: a zero, or digits of which the first is none. -/
def scanWhole? : List Char → Option (List Char × List Char)
  | '0' :: rest => some (['0'], rest)
  | text => scanDigits? text

/-- Reads the part of a number behind the point, if there is a point. -/
def scanFraction? : List Char → Option (List Char × List Char)
  | '.' :: rest => (scanDigits? rest).map fun r => ('.' :: r.1, r.2)
  | text => some ([], text)

/-- Reads the exponent of a number, if there is one. -/
def scanExponent? : List Char → Option (List Char × List Char)
  | e :: rest =>
    if e = 'e' ∨ e = 'E' then
      match rest with
      | s :: more =>
        if s = '+' ∨ s = '-' then (scanDigits? more).map fun r => (e :: s :: r.1, r.2)
        else (scanDigits? rest).map fun r => (e :: r.1, r.2)
      | [] => none
    else some ([], e :: rest)
  | [] => some ([], [])

/-- Reads a number without its sign. -/
def scanUnsigned? (text : List Char) : Option (List Char × List Char) :=
  (scanWhole? text).bind fun whole =>
    (scanFraction? whole.2).bind fun fraction =>
      (scanExponent? fraction.2).map fun exponent => (whole.1 ++ fraction.1 ++ exponent.1, exponent.2)

/-- Reads a number. -/
def scanNumber? : List Char → Option (List Char × List Char)
  | '-' :: rest => (scanUnsigned? rest).map fun r => ('-' :: r.1, r.2)
  | text => scanUnsigned? text

/-! ### Tokens -/

/-- The tokens of one character. -/
def sign? : Char → Option Token
  | '[' => some .leftBracket
  | ']' => some .rightBracket
  | '{' => some .leftBrace
  | '}' => some .rightBrace
  | ',' => some .comma
  | ':' => some .colon
  | _ => none

/-- The tokens that are words. -/
def words : List (List Char × Token) :=
  [(['n', 'u', 'l', 'l'], .null), (['t', 'r', 'u', 'e'], .bool true), (['f', 'a', 'l', 's', 'e'], .bool false)]

/-- Reads a word. -/
def scanWord? (text : List Char) : Option (Token × List Char) :=
  words.findSome? fun w => if w.1.isPrefixOf text then some (w.2, text.drop w.1.length) else none

/-- The first token of the text `c :: rest`, which does not start with a blank, and what is left. -/
def token? (c : Char) (rest : List Char) : Option (Token × List Char) :=
  if c = '"' then (scanString? rest).map fun r => (.string ((textOf? r.1).map String.ofList), r.2)
  else match sign? c with
    | some t => some (t, rest)
    | none =>
      if c = '-' || Text.isDigit c then (scanNumber? (c :: rest)).map fun r => (.number r.1, r.2)
      else scanWord? (c :: rest)

/-! ### What is left -/

/-- Less is left behind a string. -/
theorem scanString?_length {text : List Char} {ps : List Piece} {left : List Char}
    (h : scanString? text = some (ps, left)) : left.length < text.length := by
  fun_induction scanString? text generalizing ps left <;> simp_all <;> omega

/-- Less is left behind a row of digits. -/
theorem scanDigits?_length {text ds left : List Char} (h : scanDigits? text = some (ds, left)) :
    left.length < text.length := by
  unfold scanDigits? at h
  split at h
  · cases h
  · next hne =>
    cases h
    have join := congrArg List.length (List.takeWhile_append_dropWhile (p := Text.isDigit) (l := text))
    have pos := List.length_pos_iff.mpr hne
    simp only [List.length_append] at join
    omega

theorem scanWhole?_length {text ds left : List Char} (h : scanWhole? text = some (ds, left)) :
    left.length < text.length := by
  unfold scanWhole? at h
  split at h
  · cases h; simp
  · exact scanDigits?_length h

theorem scanFraction?_length {text ds left : List Char} (h : scanFraction? text = some (ds, left)) :
    left.length ≤ text.length := by
  unfold scanFraction? at h
  split at h
  · obtain ⟨⟨_, _⟩, hr, e⟩ := Option.map_eq_some_iff.mp h
    have := scanDigits?_length hr
    cases e
    simp only [List.length_cons]
    omega
  · cases h; exact Nat.le_refl _

theorem scanExponent?_length {text ds left : List Char} (h : scanExponent? text = some (ds, left)) :
    left.length ≤ text.length := by
  unfold scanExponent? at h
  split at h
  · split at h
    · split at h
      · split at h
        · obtain ⟨⟨_, _⟩, hr, e⟩ := Option.map_eq_some_iff.mp h
          have := scanDigits?_length hr
          cases e
          simp only [List.length_cons]
          omega
        · obtain ⟨⟨_, _⟩, hr, e⟩ := Option.map_eq_some_iff.mp h
          have := scanDigits?_length hr
          cases e
          simp only [List.length_cons] at *
          omega
      · cases h
    · cases h; exact Nat.le_refl _
  · cases h; exact Nat.le_refl _

theorem scanUnsigned?_length {text ds left : List Char} (h : scanUnsigned? text = some (ds, left)) :
    left.length < text.length := by
  obtain ⟨⟨_, _⟩, hw, h⟩ := Option.bind_eq_some_iff.mp h
  obtain ⟨⟨_, _⟩, hf, h⟩ := Option.bind_eq_some_iff.mp h
  obtain ⟨⟨_, _⟩, he, e⟩ := Option.map_eq_some_iff.mp h
  have := scanWhole?_length hw
  have := scanFraction?_length hf
  have := scanExponent?_length he
  cases e
  dsimp only at *
  omega

/-- Less is left behind a number. -/
theorem scanNumber?_length {text ds left : List Char} (h : scanNumber? text = some (ds, left)) :
    left.length < text.length := by
  unfold scanNumber? at h
  split at h
  · obtain ⟨⟨_, _⟩, hr, e⟩ := Option.map_eq_some_iff.mp h
    have := scanUnsigned?_length hr
    cases e
    simp only [List.length_cons]
    omega
  · exact scanUnsigned?_length h

/-- Less is left behind a word. -/
theorem scanWord?_length {c : Char} {rest : List Char} {t : Token} {left : List Char}
    (h : scanWord? (c :: rest) = some (t, left)) : left.length < (c :: rest).length := by
  obtain ⟨w, hw, e⟩ := List.exists_of_findSome?_eq_some h
  split at e
  · cases e
    have : 0 < w.1.length := by
      simp only [words, List.mem_cons, List.not_mem_nil, or_false] at hw
      rcases hw with rfl | rfl | rfl <;> simp
    simp only [List.length_drop, List.length_cons]
    omega
  · cases e

/-- Less is left behind a token. -/
theorem token?_length {c : Char} {rest : List Char} {t : Token} {left : List Char}
    (h : token? c rest = some (t, left)) : left.length < (c :: rest).length := by
  unfold token? at h
  split at h
  · obtain ⟨⟨_, _⟩, hr, e⟩ := Option.map_eq_some_iff.mp h
    have := scanString?_length hr
    cases e
    simp only [List.length_cons]
    omega
  · split at h
    · cases h; simp
    · split at h
      · obtain ⟨⟨_, _⟩, hr, e⟩ := Option.map_eq_some_iff.mp h
        have := scanNumber?_length hr
        cases e
        exact this
      · exact scanWord?_length h

end FlowCheck.Json

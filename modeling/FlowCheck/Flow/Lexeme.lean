import FlowCheck.Flow.Problem
import FlowCheck.Flow.Token
import FlowCheck.Text.Blank

/-! # Lexemes

A Flow text falls into lexemes: tokens, blanks, comments and stray characters, in the order of the text and
without gaps, so that the texts of the lexemes join up to the text again. `Lexeme.next` takes one lexeme off
the front of a text and `Lexeme.all` takes the whole text apart; no text is refused, what is wrong with a
lexeme goes with it as problems. `tokenize` then gives every lexeme its place. -/

namespace FlowCheck.Flow

/-- A piece of a Flow text: the token it makes, if it makes one, and what is wrong with it. -/
structure Lexeme where
  text : List Char
  token : Option TokenKind
  problems : List Problem
  deriving DecidableEq, Repr, Inhabited

/-- What a scan over the front of a text gives: the characters it goes over, the characters they stand for,
what is wrong with them, and what is left. -/
structure Scan where
  taken : List Char
  value : List Char
  problems : List Problem
  rest : List Char
  deriving DecidableEq, Repr, Inhabited

namespace Scan

/-- A scan that goes over some more characters first. -/
def after (taken value : List Char) (problems : List Problem) (s : Scan) : Scan :=
  ⟨taken ++ s.taken, value ++ s.value, problems ++ s.problems, s.rest⟩

/-- A comment behind its opening `/*`, up to and with the first `*/`. -/
def comment : List Char → Scan
  | [] => ⟨[], [], [.unclosedComment], []⟩
  | '*' :: '/' :: rest => ⟨['*', '/'], [], [], rest⟩
  | c :: rest => (comment rest).after [c] [] []

/-- The character that an escape stands for. -/
def escaped? : Char → Option Char
  | 'n' => some '\n'
  | 't' => some '\t'
  | 'r' => some '\r'
  | '"' => some '"'
  | '\\' => some '\\'
  | _ => none

/-- A string behind its opening quote, up to and with the closing one. It ends before a line break that is
not behind a backslash. An unknown escape stands for nothing. -/
def string : List Char → Scan
  | [] => ⟨[], [], [.newlineInString], []⟩
  | ['\\'] => ⟨['\\'], [], [.newlineInString], []⟩
  | '\\' :: c :: rest =>
    match escaped? c with
    | some e => (string rest).after ['\\', c] [e] []
    | none => (string rest).after ['\\', c] [] [.unknownEscape c]
  | c :: rest =>
    if c = '"' then ⟨[c], [], [], rest⟩
    else if c = '\n' then ⟨[], [], [.newlineInString], c :: rest⟩
    else (string rest).after [c] [c] []

end Scan

/-- Whole numbers are below this bound. -/
def intLimit : Nat := Nat.pow 2 63

/-- The keywords. -/
def keyword? : String → Option Symbol
  | "fn" => some .keywordFn
  | "ref" => some .keywordRef
  | "true" => some .keywordTrue
  | "false" => some .keywordFalse
  | "null" => some .keywordNull
  | _ => none

/-- The token of a name. -/
def wordToken (name : List Char) : TokenKind :=
  match keyword? (String.ofList name) with
  | some s => .symbol s
  | none => .identifier (String.ofList name)

/-- The signs of one character. -/
def sign? : Char → Option Symbol
  | '(' => some .leftParen
  | ')' => some .rightParen
  | ',' => some .comma
  | ':' => some .colon
  | ';' => some .semicolon
  | '.' => some .dot
  | '?' => some .question
  | '<' => some .less
  | '>' => some .greater
  | '+' => some .plus
  | '-' => some .minus
  | '*' => some .star
  | '/' => some .slash
  | '%' => some .percent
  | '!' => some .bang
  | _ => none

/-- The signs of two characters. -/
def sign₂? : Char → Char → Option Symbol
  | '-', '>' => some .arrow
  | '<', '=' => some .lessEqual
  | '>', '=' => some .greaterEqual
  | '!', '=' => some .notEqual
  | '=', '=' => some .equal
  | '=', '>' => some .fatArrow
  | '&', '&' => some .and
  | '|', '|' => some .or
  | _, _ => none

namespace Lexeme

/-- A whole number. One that is too large counts as zero. -/
def int (digits : List Char) : Lexeme :=
  if Text.Numeral.value digits < intLimit then ⟨digits, some (.int (Text.Numeral.value digits)), []⟩
  else ⟨digits, some (.int 0), [.integerTooLarge]⟩

/-- A number that starts with these digits. A point goes on with it only before a digit. -/
def number (whole : List Char) : List Char → Lexeme × List Char
  | '.' :: d :: more =>
    if Text.isDigit d then
      let fraction := (d :: more).takeWhile Text.isDigit
      (⟨whole ++ '.' :: fraction, some (.float (.ofDigits whole fraction)), []⟩, (d :: more).dropWhile Text.isDigit)
    else (int whole, '.' :: d :: more)
  | rest => (int whole, rest)

/-- A sign of one character. Any other character is stray. -/
def single (c : Char) : Lexeme :=
  match sign? c with
  | some s => ⟨[c], some (.symbol s), []⟩
  | none => ⟨[c], none, [.unexpectedCharacter c]⟩

/-- A sign that starts with this character: the longest there is. -/
def sign (c : Char) : List Char → Lexeme × List Char
  | [] => (single c, [])
  | d :: more =>
    match sign₂? c d with
    | some s => (⟨[c, d], some (.symbol s), []⟩, more)
    | none => (single c, d :: more)

/-- The first lexeme of the text `c :: rest`, and what is left. -/
def next (c : Char) (rest : List Char) : Lexeme × List Char :=
  if Text.isBlank c then (⟨c :: rest.takeWhile Text.isBlank, none, []⟩, rest.dropWhile Text.isBlank)
  else if c = '/' ∧ rest.head? = some '/' then
    (⟨c :: rest.takeWhile (· != '\n'), none, []⟩, rest.dropWhile (· != '\n'))
  else if c = '/' ∧ rest.head? = some '*' then
    let s := Scan.comment rest.tail
    (⟨c :: '*' :: s.taken, none, s.problems⟩, s.rest)
  else if c = '"' then
    let s := Scan.string rest
    (⟨c :: s.taken, some (.string (String.ofList s.value)), s.problems⟩, s.rest)
  else if Text.isDigit c then
    number (c :: rest.takeWhile Text.isDigit) (rest.dropWhile Text.isDigit)
  else if Text.startsName c then
    (⟨c :: rest.takeWhile Text.continuesName, some (wordToken (c :: rest.takeWhile Text.continuesName)), []⟩,
      rest.dropWhile Text.continuesName)
  else sign c rest

end Lexeme

theorem Scan.after_join {t v : List Char} {p : List Problem} {s : Scan} {rest : List Char}
    (h : s.taken ++ s.rest = rest) : (s.after t v p).taken ++ (s.after t v p).rest = t ++ rest := by
  simp [Scan.after, ← h]

/-- A comment and what is left join up to the text. -/
theorem Scan.comment_join (text : List Char) : (comment text).taken ++ (comment text).rest = text := by
  fun_induction comment text with
  | case1 => rfl
  | case2 => rfl
  | case3 c rest _ ih => simpa using after_join (t := [c]) ih

/-- A string and what is left join up to the text. -/
theorem Scan.string_join (text : List Char) : (string text).taken ++ (string text).rest = text := by
  fun_induction string text with
  | case1 => rfl
  | case2 => rfl
  | case3 c rest e _ ih => simpa using after_join (t := ['\\', c]) ih
  | case4 c rest _ ih => simpa using after_join (t := ['\\', c]) ih
  | case5 => simp
  | case6 => simp
  | case7 c rest _ _ _ _ ih => simpa using after_join (t := [c]) ih

namespace Lexeme

@[simp] theorem text_int (digits : List Char) : (int digits).text = digits := by
  unfold int; split <;> rfl

@[simp] theorem text_single (c : Char) : (single c).text = [c] := by
  unfold single; split <;> rfl

theorem number_join (whole rest : List Char) :
    (number whole rest).1.text ++ (number whole rest).2 = whole ++ rest := by
  unfold number
  split
  · split <;> simp [List.takeWhile_append_dropWhile]
  · simp

theorem sign_join (c : Char) (rest : List Char) : (sign c rest).1.text ++ (sign c rest).2 = c :: rest := by
  unfold sign
  split
  · simp
  · split <;> simp

/-- The first lexeme and what is left join up to the text. -/
theorem next_join (c : Char) (rest : List Char) : (next c rest).1.text ++ (next c rest).2 = c :: rest := by
  unfold next
  split
  · simp [List.takeWhile_append_dropWhile]
  · split
    · simp [List.takeWhile_append_dropWhile]
    · split
      · next h =>
        obtain ⟨tail, rfl⟩ : ∃ tail, rest = '*' :: tail := by
          cases rest with
          | nil => simp at h
          | cons d tail => simp at h; exact ⟨tail, by rw [h.2]⟩
        simp [Scan.comment_join]
      · split
        · simp [Scan.string_join]
        · split
          · simp [number_join, List.takeWhile_append_dropWhile]
          · split
            · simp [List.takeWhile_append_dropWhile]
            · exact sign_join c rest

theorem number_text_ne_nil {whole : List Char} (rest : List Char) (h : whole ≠ []) :
    (number whole rest).1.text ≠ [] := by
  unfold number
  split
  · split <;> simp [h]
  · simpa using h

theorem sign_text_ne_nil (c : Char) (rest : List Char) : (sign c rest).1.text ≠ [] := by
  unfold sign
  split
  · simp
  · split <;> simp

/-- A lexeme has characters. -/
theorem next_text_ne_nil (c : Char) (rest : List Char) : (next c rest).1.text ≠ [] := by
  unfold next
  split
  · simp
  · split
    · simp
    · split
      · simp
      · split
        · simp
        · split
          · exact number_text_ne_nil _ (by simp)
          · split
            · simp
            · exact sign_text_ne_nil c rest

/-- Less is left of a text when a lexeme is taken off. -/
theorem next_rest_lt (c : Char) (rest : List Char) : (next c rest).2.length < (c :: rest).length := by
  have join := congrArg List.length (next_join c rest)
  have pos := List.length_pos_iff.mpr (next_text_ne_nil c rest)
  simp only [List.length_append] at join
  omega

/-- The lexemes of a text. -/
def all : List Char → List Lexeme
  | [] => []
  | c :: rest => (next c rest).1 :: all (next c rest).2
termination_by text => text.length
decreasing_by exact next_rest_lt c rest

/-- The lexemes of a text join up to the text. -/
theorem flatMap_text_all (text : List Char) : (all text).flatMap Lexeme.text = text := by
  fun_induction all text with
  | case1 => rfl
  | case2 c rest ih => simp [ih, next_join]

/-- Where a problem noticed at a token belongs: at the token, or, when it starts on a later line than the token
before it ended on, at the end of that token. -/
def anchor (last : Option Location) (start : Location) : Location :=
  match last with
  | some stop => if stop.line < start.line then stop else start
  | none => start

/-- The tokens of some lexemes, the first of which stands at `start`. The token before them ended at `last`. -/
def tokens (start : Location) (last : Option Location) : List Lexeme → List Token
  | [] => [⟨.endOfFile, start, start, anchor last start⟩]
  | l :: ls =>
    let stop := start.advance l.text
    match l.token with
    | none => tokens stop last ls
    | some kind => ⟨kind, start, stop, anchor last start⟩ :: tokens stop (some stop) ls

/-- The problems of some lexemes, the first of which stands at `start`. Each is reported where its lexeme starts. -/
def diagnostics (start : Location) : List Lexeme → List Diagnostic
  | [] => []
  | l :: ls => l.problems.map (·.located start) ++ diagnostics (start.advance l.text) ls

end Lexeme

/-- A text taken apart: its tokens, with the end of the file as the last, and what is wrong with its lexemes. -/
structure TokenizedText where
  tokens : List Token
  diagnostics : List Diagnostic
  deriving DecidableEq, Repr, Inhabited

/-- The tokens of a text. -/
def tokenize (source : String) : TokenizedText :=
  let lexemes := Lexeme.all source.toList
  ⟨Lexeme.tokens .start none lexemes, Lexeme.diagnostics .start lexemes⟩

/-- The identifiers in a text that are not the name of a member, which is one that follows a point: each time
they occur, in the order of the text. -/
def freeIdentifiers (source : String) : List String := go false (tokenize source).tokens
where
  /-- The free identifiers of some tokens; `member` says that a point stands before them. -/
  go (member : Bool) : List Token → List String
    | [] => []
    | t :: ts =>
      match t.kind with
      | .identifier name => if member then go false ts else name :: go false ts
      | .symbol .dot => go true ts
      | _ => go false ts

end FlowCheck.Flow

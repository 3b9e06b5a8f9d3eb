import FlowCheck.Proofs.Flow.Comments
import FlowCheck.Proofs.Flow.Printing

/-! Words as they are written. Words that are written in order, with blanks and comments around them and a blank behind
    each but the last, are taken apart into just their tokens. -/

namespace FlowCheck.Flow

open FlowCheck.Text

/-! ### Names -/

/-- The text starts like a name, goes on like one and is no keyword. -/
structure IsName (name : String) : Prop where
  start : ∃ c rest, name.toList = c :: rest ∧ startsName c = true ∧ ∀ d ∈ rest, continuesName d = true
  word : keyword? name = none

theorem IsName.named {name : String} (h : IsName name) : Named name := by
  obtain ⟨c, rest, hname, hstart, hrest⟩ := h.start
  have hne {d : Char} (hd : startsName d = false) : c ≠ d := by
    rintro rfl
    exact Bool.false_ne_true (hd.symm.trans hstart)
  exact ⟨⟨c, rest, hname, isBlank_of_startsName hstart, hne rfl, hne rfl, isDigit_of_startsName hstart, hstart, hrest⟩,
    h.word⟩

/-! ### Words -/

/-- A word. A number has digits, on both sides of its point if it has one; zeros may stand in front. -/
inductive Word where
  | identifier (name : String) (hname : IsName name)
  | int (digits : List Char) (hdigits : Numeral.isDigits digits = true) (hlimit : Numeral.value digits < intLimit)
  | float (whole fraction : List Char) (hwhole : Numeral.isDigits whole = true)
      (hfraction : Numeral.isDigits fraction = true)
  | string (value : String)
  | symbol (s : Symbol)

namespace Word

/-- How it is written. -/
def text : Word → List Char
  | .identifier name .. => name.toList
  | .int digits .. => digits
  | .float whole fraction .. => whole ++ '.' :: fraction
  | .string value => '"' :: (value.toList.flatMap Written.escape ++ ['"'])
  | .symbol s => s.text.toList

/-- The token that it stands for. -/
def kind : Word → TokenKind
  | .identifier name .. => .identifier name
  | .int digits .. => .int (Numeral.value digits)
  | .float whole fraction .. => .float (.ofDigits whole fraction)
  | .string value => .string value
  | .symbol s => .symbol s

theorem spells (w : Word) : Spells w.text w.kind := by
  cases w with
  | identifier name hname => exact .identifier hname.named
  | int digits hdigits hlimit => exact .whole hdigits hlimit
  | float whole fraction hwhole hfraction => exact .float hwhole hfraction
  | string value => exact .string value
  | symbol s => exact .symbol s

/-- A word before a blank says its token. -/
theorem content (w : Word) {c : Char} (hc : isBlank c = true) (text : List Char) :
    content (w.text ++ c :: text) = ⟨[w.kind], []⟩ ++ content text := by
  have hcontent := w.spells.content
  rw [content_append (separates_of_blank hc) (congrArg Content.problems hcontent) w.spells.endsInComment, hcontent,
    content_cons_blank hc]

end Word

/-! ### Texts of words -/

/-- The text has these words in it, in this order. Blanks and comments stand around them, and a blank stands behind each
word but the last. -/
inductive Writes : List Word → List Char → Prop where
  | nil : Writes [] []
  | blank {ws c text} : isBlank c = true → Writes ws text → Writes ws (c :: text)
  | comment {ws comment text} : Comment comment text [] → Writes ws text → Writes ws (comment ++ text)
  | last (w : Word) : Writes [w] w.text
  | word (w : Word) {ws c text} : isBlank c = true → Writes ws text → Writes (w :: ws) (w.text ++ c :: text)

theorem Writes.content {ws : List Word} {text : List Char} (h : Writes ws text) :
    content text = ⟨ws.map Word.kind, []⟩ := by
  induction h with
  | nil => exact content_nil
  | blank hc _ ih => rw [content_cons_blank hc, ih]
  | comment hcomment _ ih =>
    rw [hcomment.content, ih]
    rfl
  | last w => exact w.spells.content
  | word w hc _ ih =>
    rw [w.content hc, ih]
    rfl

/-- Words can be written, with spaces between them for one, and however they are written, the tokens of the text are
those of the words and nothing is wrong with it. -/
theorem tokenize_writes (ws : List Word) :
    (∃ source : String, Writes ws source.toList) ∧ ∀ source : String, Writes ws source.toList →
      (tokenize source).tokens.map (·.kind) = ws.map Word.kind ++ [.endOfFile] ∧
        (tokenize source).diagnostics = [] := by
  constructor
  · have hspaces : Writes ws (ws.flatMap fun w => w.text ++ [' ']) := by
      induction ws with
      | nil => exact .nil
      | cons w ws ih =>
        rw [List.flatMap_cons, List.append_assoc]
        exact .word w rfl ih
    exact ⟨.ofList _, by rwa [String.toList_ofList]⟩
  · intro source h
    obtain ⟨tokens, last, htokens, hlast, hkinds⟩ := tokenize_tokens source
    have hcontent := h.content
    refine ⟨?_, tokenize_diagnostics.mpr (congrArg Content.problems hcontent)⟩
    rw [htokens, List.map_append, hkinds, hcontent, List.map_singleton, hlast]

/-- A slash before a comment, a name that starts like a keyword, and two signs that are one without the blank. -/
theorem tokenize_writes_neighbours :
    let name : Word := .identifier "fn1" ⟨⟨'f', ['n', '1'], rfl, rfl, List.all_eq_true.mp rfl⟩, rfl⟩
    let ws : List Word := [.symbol .slash, name, .string "\"", .symbol .minus, .symbol .greater]
    Writes ws "/ /***/fn1\t\"\\\"\" - >".toList ∧
      (tokenize "/ /***/fn1\t\"\\\"\" - >").tokens.map (·.kind) = ws.map Word.kind ++ [.endOfFile] := by
  intro name ws
  have hspace : isBlank ' ' = true := rfl
  have htab : isBlank '\t' = true := rfl
  have hbody : ¬['*', '/'] <:+: ['*'] := by decide
  have hsigns : Writes [.symbol .minus, .symbol .greater] "- >".toList := .word _ hspace (.last _)
  have hname : Writes [name, .string "\"", .symbol .minus, .symbol .greater] "fn1\t\"\\\"\" - >".toList :=
    .word _ htab (.word _ hspace hsigns)
  have h : Writes ws "/ /***/fn1\t\"\\\"\" - >".toList := .word (.symbol .slash) hspace (.comment (.closed hbody) hname)
  exact ⟨h, ((tokenize_writes ws).2 _ h).1⟩

end FlowCheck.Flow

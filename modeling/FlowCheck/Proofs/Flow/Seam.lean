import Mathlib.Data.List.TakeWhile
import FlowCheck.Flow.Lexeme
import FlowCheck.Proofs.Flow.Stage

/-! Lexemes across a seam. A text is taken apart from the front, and a lexeme looks at most two characters
    ahead. So a text that is followed by a character which goes on with none of its lexemes falls into the same
    lexemes as alone, up to the last one: a comment or a string may be open at the end of the text. -/

namespace FlowCheck.Flow

open FlowCheck.Text

/-- No lexeme goes on with this character, unless it is a blank, a comment or a string. -/
def separates (d : Char) : Bool :=
  !isDigit d && !continuesName d && !(['.', '/', '*', '=', '>', '&', '|'].contains d)

theorem separates_iff {d : Char} : separates d = true ↔ isDigit d = false ∧ continuesName d = false ∧
    d ≠ '.' ∧ d ≠ '/' ∧ d ≠ '*' ∧ d ≠ '=' ∧ d ≠ '>' ∧ d ≠ '&' ∧ d ≠ '|' := by
  simp [separates, and_assoc]

/-! ### Characters -/

/-- The code points of the blanks. -/
def blankCodes : List Nat :=
  [0x09, 0x0A, 0x0B, 0x0C, 0x0D, 0x20, 0x85, 0xA0, 0x1680, 0x2000, 0x2001, 0x2002, 0x2003, 0x2004, 0x2005, 0x2006,
   0x2007, 0x2008, 0x2009, 0x200A, 0x2028, 0x2029, 0x202F, 0x205F, 0x3000]

theorem isBlank_iff {c : Char} : isBlank c = true ↔ c.toNat ∈ blankCodes := by
  simp only [isBlank, Bool.or_eq_true, Bool.and_eq_true, decide_eq_true_eq, beq_iff_eq, blankCodes, List.mem_cons,
    List.not_mem_nil, or_false]
  omega

/-- No lexeme goes on with a blank. -/
theorem separates_of_blank {c : Char} (h : isBlank c = true) : separates c = true := by
  have hall : ∀ code ∈ blankCodes, separates (Char.ofNat code) = true := by decide +kernel
  have hcode := hall c.toNat (isBlank_iff.mp h)
  rwa [Char.ofNat_toNat] at hcode

theorem isBlank_of_isDigit {c : Char} (h : isDigit c = true) : isBlank c = false := by
  refine Bool.eq_false_iff.mpr fun hblank => ?_
  exact Bool.false_ne_true ((separates_iff.mp (separates_of_blank hblank)).1.symm.trans h)

theorem isBlank_of_startsName {c : Char} (h : startsName c = true) : isBlank c = false := by
  refine Bool.eq_false_iff.mpr fun hblank => ?_
  obtain ⟨-, hcontinues, -⟩ := separates_iff.mp (separates_of_blank hblank)
  simp only [startsName, continuesName, Bool.or_eq_true, Bool.or_eq_false_iff] at h hcontinues
  simp [hcontinues] at h

theorem isDigit_of_startsName {c : Char} (h : startsName c = true) : isDigit c = false := by
  refine Bool.eq_false_iff.mpr fun hdigit => ?_
  have hall : ∀ code < 58, 48 ≤ code → startsName (Char.ofNat code) = false := by decide
  simp only [isDigit, Bool.and_eq_true, decide_eq_true_eq, Char.le_def, UInt32.le_iff_toNat_le] at hdigit
  have hcode := hall c.toNat (Nat.lt_succ_of_le hdigit.2) hdigit.1
  rw [Char.ofNat_toNat] at hcode
  exact Bool.false_ne_true (hcode.symm.trans h)

/-! ### Runs of characters -/

section Runs

variable {p : Char → Bool} {text : List Char} {d : Char}

theorem takeWhile_append_of_rest (h : text.dropWhile p ≠ []) (more : List Char) :
    (text ++ more).takeWhile p = text.takeWhile p ∧ (text ++ more).dropWhile p = text.dropWhile p ++ more := by
  induction text with
  | nil => exact absurd rfl h
  | cons c text ih =>
    simp only [List.dropWhile_cons] at h
    by_cases hc : p c = true
    · simp only [hc, ↓reduceIte] at h
      simp only [List.cons_append, List.takeWhile_cons, List.dropWhile_cons, hc, ↓reduceIte, ih h, and_self]
    · simp [hc]

theorem takeWhile_append_of_neg (h : p d = false) (text more : List Char) :
    (text ++ d :: more).takeWhile p = text.takeWhile p ∧
      (text ++ d :: more).dropWhile p = text.dropWhile p ++ d :: more := by
  induction text with
  | nil => simp [h]
  | cons c text ih =>
    by_cases hc : p c = true
    · simp only [List.cons_append, List.takeWhile_cons, List.dropWhile_cons, hc, ↓reduceIte, ih, and_self]
    · simp [hc]

end Runs

/-! ### Comments and strings -/

namespace Scan

/-- A scan with more text behind it. -/
def before (s : Scan) (more : List Char) : Scan := ⟨s.taken, s.value, s.problems, s.rest ++ more⟩

theorem before_after (s : Scan) (t v : List Char) (p : List Problem) (more : List Char) :
    (s.after t v p).before more = (s.before more).after t v p := rfl

/-- A comment that is open at the end of the text goes on behind it. -/
def OpenComment (text : List Char) : Prop := comment text = ⟨text, [], [.unclosedComment], []⟩

theorem comment_cons {c : Char} {rest : List Char} (h : ¬(c = '*' ∧ rest.head? = some '/')) :
    comment (c :: rest) = (comment rest).after [c] [] [] := by
  rw [comment]
  rintro rest' rfl rfl
  exact h ⟨rfl, rfl⟩

theorem comment_cases (text : List Char) : (comment text).problems = [] ∨ OpenComment text := by
  unfold OpenComment
  fun_induction comment text with
  | case1 => exact .inr rfl
  | case2 => exact .inl rfl
  | case3 c rest _ ih =>
    rcases ih with h | h
    · exact .inl h
    · exact .inr (by rw [h]; rfl)

/-- A comment that is closed does not see what stands behind it. -/
theorem comment_append_of_closed {text : List Char} (h : (comment text).problems = []) (more : List Char) :
    comment (text ++ more) = (comment text).before more := by
  fun_induction comment text with
  | case1 => cases h
  | case2 => simp only [List.cons_append, comment, before]
  | case3 c rest hc ih =>
    rw [List.cons_append, comment_cons, ih h, before_after]
    rintro ⟨rfl, hr⟩
    cases rest with
    | nil => cases h
    | cons d rest => exact hc rest rfl (by simpa using hr)

/-- A comment that is open at the end of a text goes on behind it. -/
theorem comment_append_of_open {text more : List Char} (h : OpenComment text) (hmore : more.head? ≠ some '/') :
    comment (text ++ more) = (comment more).after text [] [] := by
  unfold OpenComment at h
  fun_induction comment text with
  | case1 => rfl
  | case2 => cases h
  | case3 c rest hc ih =>
    have hrest : comment rest = ⟨rest, [], [.unclosedComment], []⟩ := by
      have hjoin := comment_join rest
      cases hs : comment rest
      simp_all [after]
    rw [List.cons_append, comment_cons, ih hrest]
    · rfl
    · rintro ⟨rfl, hr⟩
      cases rest with
      | nil => exact hmore hr
      | cons d rest => exact hc rest rfl (by simpa using hr)

theorem infix_of_head {c : Char} {text : List Char} (h : c = '*' ∧ text.head? = some '/') :
    ['*', '/'] <:+: c :: text := by
  obtain ⟨rfl, hhead⟩ := h
  obtain ⟨more, rfl⟩ := List.head?_eq_some_iff.mp hhead
  exact ⟨[], more, rfl⟩

/-- A comment ends with the first `*/`. -/
theorem comment_closed {body : List Char} (h : ¬['*', '/'] <:+: body) (behind : List Char) :
    comment (body ++ '*' :: '/' :: behind) = ⟨body ++ ['*', '/'], [], [], behind⟩ := by
  induction body with
  | nil => rfl
  | cons c body ih =>
    have hrest : ¬['*', '/'] <:+: body := fun hin => h (hin.trans (List.suffix_cons c body).isInfix)
    rw [List.cons_append, comment_cons, ih hrest]
    · rfl
    · rintro ⟨rfl, hhead⟩
      cases body with
      | nil => cases hhead
      | cons d body => exact h (infix_of_head ⟨rfl, hhead⟩)

theorem openComment_of {text : List Char} (h : ¬['*', '/'] <:+: text) : OpenComment text := by
  unfold OpenComment
  induction text with
  | nil => rfl
  | cons c text ih =>
    rw [comment_cons fun hhead => h (infix_of_head hhead),
      ih fun hin => h (hin.trans (List.suffix_cons c text).isInfix)]
    rfl

/-- Either there is a first `*/`, or there is none. -/
theorem first_end (text : List Char) : ¬['*', '/'] <:+: text ∨
    ∃ body behind, text = body ++ '*' :: '/' :: behind ∧ ¬['*', '/'] <:+: body := by
  induction text with
  | nil => exact .inl (by simp)
  | cons c text ih =>
    by_cases hstart : ['*', '/'] <+: c :: text
    · obtain ⟨behind, hbehind⟩ := hstart
      exact .inr ⟨[], behind, hbehind.symm, by simp⟩
    · rcases ih with hnone | ⟨body, behind, rfl, hbody⟩
      · exact .inl fun hin => (List.infix_cons_iff.mp hin).elim hstart hnone
      · refine .inr ⟨c :: body, behind, rfl, fun hin => (List.infix_cons_iff.mp hin).elim (fun hbegin => ?_) hbody⟩
        exact hstart (hbegin.trans (List.prefix_append (c :: body) ('*' :: '/' :: behind)))

/-- A string that the end of the text leaves open. -/
def OpenString (text : List Char) : Prop :=
  (string text).rest = [] ∧ .newlineInString ∈ (string text).problems

theorem string_escape {c e : Char} (h : escaped? c = some e) (rest : List Char) :
    string ('\\' :: c :: rest) = (string rest).after ['\\', c] [e] [] := by
  simp only [string, h]

theorem string_unknown {c : Char} (h : escaped? c = none) (rest : List Char) :
    string ('\\' :: c :: rest) = (string rest).after ['\\', c] [] [.unknownEscape c] := by
  simp only [string, h]

theorem string_quote (rest : List Char) : string ('"' :: rest) = ⟨['"'], [], [], rest⟩ := by simp [string]

theorem string_newline (rest : List Char) : string ('\n' :: rest) = ⟨[], [], [.newlineInString], '\n' :: rest⟩ := by
  simp [string]

theorem string_cons {c : Char} (hc : c ≠ '\\' ∧ c ≠ '"' ∧ c ≠ '\n') (rest : List Char) :
    string (c :: rest) = (string rest).after [c] [c] [] := by
  rw [string]
  · simp only [hc.2.1, hc.2.2, ↓reduceIte]
  · exact fun h => absurd h hc.1
  · exact fun _ _ h => absurd h hc.1

theorem ne_backslash {c : Char} {rest : List Char} (hend : c = '\\' → rest = [] → False)
    (hescape : ∀ d more, c = '\\' → rest = d :: more → False) : c ≠ '\\' := by
  intro hc
  cases rest with
  | nil => exact hend hc rfl
  | cons d rest => exact hescape d rest hc rfl

/-- A string that is closed does not see what stands behind it. -/
theorem string_append_of_closed {text : List Char} (h : ¬OpenString text) (more : List Char) :
    string (text ++ more) = (string text).before more := by
  unfold OpenString at h
  fun_induction string text with
  | case1 => exact absurd ⟨rfl, List.mem_singleton_self _⟩ h
  | case2 => exact absurd ⟨rfl, List.mem_singleton_self _⟩ h
  | case3 c rest e he ih =>
    rw [List.cons_append, List.cons_append, string_escape he, ih h, before_after]
  | case4 c rest he ih =>
    rw [List.cons_append, List.cons_append, string_unknown he, ih fun h' => h ⟨h'.1, .tail _ h'.2⟩, before_after]
  | case5 rest => rw [List.cons_append, string_quote, before]
  | case6 rest => rw [List.cons_append, string_newline, before, List.cons_append]
  | case7 c rest hend hescape hquote hnewline ih =>
    rw [List.cons_append, string_cons ⟨ne_backslash hend hescape, hquote, hnewline⟩, ih h, before_after]

theorem getLast?_of_cons {α : Type} {a b : α} {text : List α} (h : text.getLast? = some b) :
    (a :: text).getLast? = some b := by
  rw [List.getLast?_cons, h, Option.getD_some]

/-- A line break ends a string, if no escape goes on with it. -/
theorem string_append_newline {text : List Char} (hflat : '\n' ∉ text) (hlast : text.getLast? ≠ some '\\')
    (more : List Char) : string (text ++ '\n' :: more) = (string text).before ('\n' :: more) := by
  fun_induction string text with
  | case1 => simp [string, before]
  | case2 => exact absurd rfl hlast
  | case3 c rest e he ih =>
    rw [List.cons_append, List.cons_append, string_escape he, ih (fun h => hflat (.tail _ (.tail _ h))) fun h =>
      hlast (getLast?_of_cons (getLast?_of_cons h)), before_after]
  | case4 c rest he ih =>
    rw [List.cons_append, List.cons_append, string_unknown he, ih (fun h => hflat (.tail _ (.tail _ h))) fun h =>
      hlast (getLast?_of_cons (getLast?_of_cons h)), before_after]
  | case5 rest => rw [List.cons_append, string_quote, before]
  | case6 rest => exact absurd (List.mem_cons_self ..) hflat
  | case7 c rest hend hescape hquote hnewline ih =>
    rw [List.cons_append, string_cons ⟨ne_backslash hend hescape, hquote, hnewline⟩,
      ih (fun h => hflat (.tail _ h)) fun h => hlast (getLast?_of_cons h), before_after]

theorem string_problems {text : List Char} {p : Problem} (h : p ∈ (string text).problems) :
    p.ofForm = true ∧ p ≠ .unclosedComment := by
  fun_induction string text with
  | case1 | case2 | case6 => rw [List.mem_singleton.mp h]; exact ⟨rfl, by simp⟩
  | case3 _ _ _ _ ih | case7 _ _ _ _ _ _ ih => exact ih h
  | case4 c _ _ ih =>
    rcases List.mem_cons.mp h with rfl | h
    · exact ⟨rfl, by simp⟩
    · exact ih h
  | case5 => cases h

/-- A string that is open stays open before a semicolon. -/
theorem openString_semicolon {text : List Char} (h : OpenString text) :
    .newlineInString ∈ (string (text ++ [';'])).problems := by
  unfold OpenString at h
  fun_induction string text with
  | case1 => exact List.mem_singleton_self _
  | case2 => exact .tail _ (List.mem_singleton_self _)
  | case3 c rest e he ih =>
    rw [List.cons_append, List.cons_append, string_escape he]
    exact ih h
  | case4 c rest he ih =>
    rw [List.cons_append, List.cons_append, string_unknown he]
    refine .tail _ (ih ⟨h.1, ?_⟩)
    simpa [after] using h.2
  | case5 rest => cases h.2
  | case6 rest => cases h.1
  | case7 c rest hend hescape hquote hnewline ih =>
    rw [List.cons_append, string_cons ⟨ne_backslash hend hescape, hquote, hnewline⟩]
    exact ih h

end Scan

/-! ### One lexeme -/

namespace Lexeme

/-- A text that is one lexeme, to which more could be added behind the text. -/
inductive Open : List Char → Prop where
  | blank {text} : (∀ c ∈ text, isBlank c = true) → Open text
  | line {text} : '\n' ∉ text → Open ('/' :: '/' :: text)
  | comment {text} : Scan.OpenComment text → Open ('/' :: '*' :: text)
  | string {text} : Scan.OpenString text → Open ('"' :: text)

section Next

variable {c d : Char} {rest more : List Char}

theorem number_of_ne_dot {whole text : List Char} (h : text.head? ≠ some '.') :
    number whole text = (int whole, text) := by
  unfold number
  split
  · exact absurd rfl h
  · rfl

theorem number_append (hd : separates d = true) (whole : List Char) :
    number whole (rest ++ d :: more) = ((number whole rest).1, (number whole rest).2 ++ d :: more) := by
  obtain ⟨hdigit, -, hdot, -⟩ := separates_iff.mp hd
  by_cases hrest : rest.head? = some '.'
  · obtain ⟨text, rfl⟩ := List.head?_eq_some_iff.mp hrest
    cases text with
    | nil => simp [number, hdigit]
    | cons e text =>
      obtain ⟨htake, hdrop⟩ := takeWhile_append_of_neg hdigit (e :: text) more
      simp only [List.cons_append] at htake hdrop
      simp only [number, List.cons_append, htake, hdrop]
      split <;> rfl
  · have hmore : (rest ++ d :: more).head? ≠ some '.' := by
      cases rest with
      | nil => simpa using hdot
      | cons => simpa using hrest
    rw [number_of_ne_dot hrest, number_of_ne_dot hmore]

theorem sign_append (hd : separates d = true) :
    sign c (rest ++ d :: more) = ((sign c rest).1, (sign c rest).2 ++ d :: more) := by
  obtain ⟨-, -, -, -, -, h⟩ := separates_iff.mp hd
  cases rest with
  | nil =>
    have hnone : sign₂? c d = none := by
      unfold sign₂?
      split <;> simp_all
    simp only [List.nil_append, sign, hnone]
  | cons e rest =>
    simp only [List.cons_append, sign]
    split <;> simp only [List.cons_append]

/-- A lexeme does not see a character that separates, unless it could go on behind the text. -/
theorem next_append (hd : separates d = true) (c : Char) (rest more : List Char) :
    next c (rest ++ d :: more) = ((next c rest).1, (next c rest).2 ++ d :: more) ∨ Open (c :: rest) := by
  obtain ⟨hdigit, hname, -, hslash, hstar, -⟩ := separates_iff.mp hd
  have hhead : ∀ e, e ≠ d → ((rest ++ d :: more).head? = some e ↔ rest.head? = some e) := by
    intro e he
    cases rest with
    | nil => simp [he.symm]
    | cons => simp
  by_cases hblank : isBlank c = true
  · by_cases hend : rest.dropWhile isBlank = []
    · refine .inr (.blank ?_)
      simpa [List.dropWhile_eq_nil_iff, hblank] using hend
    · obtain ⟨htake, hdrop⟩ := takeWhile_append_of_rest hend (d :: more)
      exact .inl (by simp only [next, hblank, ↓reduceIte, htake, hdrop])
  by_cases hline : c = '/' ∧ rest.head? = some '/'
  · obtain ⟨rfl, hrest⟩ := hline
    by_cases hend : rest.dropWhile (· != '\n') = []
    · obtain ⟨text, rfl⟩ := List.head?_eq_some_iff.mp hrest
      refine .inr (.line fun h => ?_)
      simpa using List.dropWhile_eq_nil_iff.mp hend '\n' (.tail _ h)
    · obtain ⟨htake, hdrop⟩ := takeWhile_append_of_rest hend (d :: more)
      refine .inl ?_
      simp only [next, hblank, (hhead _ hslash.symm).mpr hrest, hrest, and_self, ↓reduceIte, htake, hdrop,
        Bool.false_eq_true]
  by_cases hcomment : c = '/' ∧ rest.head? = some '*'
  · obtain ⟨rfl, hrest⟩ := hcomment
    obtain ⟨text, rfl⟩ := List.head?_eq_some_iff.mp hrest
    rcases Scan.comment_cases text with hclosed | hopen
    · refine .inl ?_
      simp [next, hblank, Scan.comment_append_of_closed hclosed, Scan.before]
    · exact .inr (.comment hopen)
  by_cases hstring : c = '"'
  · subst hstring
    by_cases hopen : Scan.OpenString rest
    · exact .inr (.string hopen)
    · refine .inl ?_
      simp [next, hblank, Scan.string_append_of_closed hopen, Scan.before]
  refine .inl ?_
  simp only [next, hhead '/' hslash.symm, hhead '*' hstar.symm, hblank, hline, hcomment, hstring, ↓reduceIte,
    Bool.false_eq_true]
  split
  · obtain ⟨htake, hdrop⟩ := takeWhile_append_of_neg hdigit rest more
    rw [htake, hdrop, number_append hd]
  · split
    · obtain ⟨htake, hdrop⟩ := takeWhile_append_of_neg hname rest more
      rw [htake, hdrop]
    · exact sign_append hd

end Next

theorem next_blank {c : Char} (h : isBlank c = true) (text : List Char) :
    next c text = (⟨c :: text.takeWhile isBlank, none, []⟩, text.dropWhile isBlank) := by
  simp only [next, h, ↓reduceIte]

theorem next_line (text : List Char) : next '/' ('/' :: text) =
    (⟨'/' :: '/' :: text.takeWhile (· != '\n'), none, []⟩, text.dropWhile (· != '\n')) := rfl

theorem next_comment (text : List Char) : next '/' ('*' :: text) =
    (⟨'/' :: '*' :: (Scan.comment text).taken, none, (Scan.comment text).problems⟩, (Scan.comment text).rest) := rfl

theorem next_string (text : List Char) : next '"' text =
    (⟨'"' :: (Scan.string text).taken, some (.string (String.ofList (Scan.string text).value)),
      (Scan.string text).problems⟩, (Scan.string text).rest) := rfl

theorem next_digit {c : Char} (h : isDigit c = true) (text : List Char) :
    next c text = number (c :: text.takeWhile isDigit) (text.dropWhile isDigit) := by
  have hne {d : Char} (hd : isDigit d = false) : c ≠ d := by
    rintro rfl
    exact Bool.false_ne_true (hd.symm.trans h)
  have hslash : c ≠ '/' := hne rfl
  have hquote : c ≠ '"' := hne rfl
  simp only [next, isBlank_of_isDigit h, hslash, hquote, h, false_and, ↓reduceIte, Bool.false_eq_true]

theorem next_name {c : Char} (h : startsName c = true) (text : List Char) : next c text =
    (⟨c :: text.takeWhile continuesName, some (wordToken (c :: text.takeWhile continuesName)), []⟩,
      text.dropWhile continuesName) := by
  have hne {d : Char} (hd : startsName d = false) : c ≠ d := by
    rintro rfl
    exact Bool.false_ne_true (hd.symm.trans h)
  have hslash : c ≠ '/' := hne rfl
  have hquote : c ≠ '"' := hne rfl
  simp only [next, isBlank_of_startsName h, isDigit_of_startsName h, hslash, hquote, h, false_and, ↓reduceIte,
    Bool.false_eq_true]

theorem all_cons (c : Char) (rest : List Char) : all (c :: rest) = (next c rest).1 :: all (next c rest).2 := by
  rw [all]

theorem all_nil : all [] = [] := by rw [all]

/-- A comment up to the end of the text. -/
theorem all_line {text : List Char} (h : '\n' ∉ text) :
    all ('/' :: '/' :: text) = [⟨'/' :: '/' :: text, none, []⟩] := by
  have hline : ∀ b ∈ text, (b != '\n') = true := fun b hb => bne_iff_ne.mpr fun e => h (e ▸ hb)
  rw [all_cons, next_line, List.takeWhile_eq_self_iff.mpr hline, List.dropWhile_eq_nil_iff.mpr hline, all_nil]

theorem next_suffix (c : Char) (rest : List Char) : (next c rest).2 <:+ c :: rest :=
  ⟨_, next_join c rest⟩

theorem int_problems {digits : List Char} {p : Problem} (h : p ∈ (int digits).problems) :
    p.ofForm = true ∧ p ≠ .unclosedComment ∧ p ≠ .newlineInString := by
  unfold int at h
  split at h
  · cases h
  · rw [List.mem_singleton.mp h]
    exact ⟨rfl, nofun, nofun⟩

theorem single_problems {c : Char} {p : Problem} (h : p ∈ (single c).problems) :
    p.ofForm = true ∧ p ≠ .unclosedComment ∧ p ≠ .newlineInString := by
  unfold single at h
  split at h
  · cases h
  · rw [List.mem_singleton.mp h]
    exact ⟨rfl, nofun, nofun⟩

/-- What is wrong with a lexeme is about form. Only a comment that is open at the end of the text is not closed, and only
what starts with a quote is cut off at the end of its line. -/
theorem next_problems {c : Char} {rest : List Char} {p : Problem} (h : p ∈ (next c rest).1.problems) :
    p.ofForm = true ∧ (p = .unclosedComment → ∃ text, c = '/' ∧ rest = '*' :: text ∧ Scan.OpenComment text) ∧
      (p = .newlineInString → c = '"') := by
  have other (hp : p.ofForm = true ∧ p ≠ .unclosedComment ∧ p ≠ .newlineInString) : p.ofForm = true ∧
      (p = .unclosedComment → ∃ text, c = '/' ∧ rest = '*' :: text ∧ Scan.OpenComment text) ∧
      (p = .newlineInString → c = '"') := ⟨hp.1, fun e => absurd e hp.2.1, fun e => absurd e hp.2.2⟩
  unfold next at h
  split at h
  · cases h
  split at h
  · cases h
  split at h
  · rename_i hcomment
    obtain ⟨rfl, hrest⟩ := hcomment
    obtain ⟨text, rfl⟩ := List.head?_eq_some_iff.mp hrest
    dsimp only [List.tail_cons] at h
    rcases Scan.comment_cases text with hclosed | hopen
    · rw [hclosed] at h
      cases h
    · rw [hopen] at h
      rw [List.mem_singleton.mp h]
      exact ⟨rfl, fun _ => ⟨text, rfl, rfl, hopen⟩, nofun⟩
  split at h
  · rename_i hquote
    obtain ⟨hform, hclosed⟩ := Scan.string_problems h
    exact ⟨hform, fun e => absurd e hclosed, fun _ => hquote⟩
  split at h
  · unfold number at h
    split at h
    · split at h
      · cases h
      · exact other (int_problems h)
    · exact other (int_problems h)
  split at h
  · cases h
  · unfold sign at h
    split at h
    · exact other (single_problems h)
    · split at h
      · cases h
      · exact other (single_problems h)

theorem all_problems {text : List Char} {l : Lexeme} (hl : l ∈ all text) : ∀ p ∈ l.problems, p.ofForm = true := by
  fun_induction all text with
  | case1 => cases hl
  | case2 c rest ih =>
    rcases List.mem_cons.mp hl with rfl | hl
    · exact fun p hp => (next_problems hp).1
    · exact ih hl

/-! ### All lexemes -/

/-- Two texts with a separating character between them: the first falls into the same lexemes as alone, but for
a last one that could go on behind it. -/
theorem all_append {d : Char} (hd : separates d = true) (text more : List Char) :
    ∃ ls rest, all text = ls ++ all rest ∧ all (text ++ d :: more) = ls ++ all (rest ++ d :: more) ∧
      (∀ l ∈ ls, .unclosedComment ∉ l.problems) ∧ rest <:+ text ∧ (rest = [] ∨ Open rest) := by
  fun_induction all text with
  | case1 => exact ⟨[], [], by rw [all_nil]; rfl, rfl, List.forall_mem_nil _, List.suffix_refl _, .inl rfl⟩
  | case2 c rest ih =>
    have hstop : Open (c :: rest) → ∃ ls rest', (next c rest).1 :: all (next c rest).2 = ls ++ all rest' ∧
        all (c :: rest ++ d :: more) = ls ++ all (rest' ++ d :: more) ∧
        (∀ l ∈ ls, .unclosedComment ∉ l.problems) ∧ rest' <:+ c :: rest ∧ (rest' = [] ∨ Open rest') :=
      fun h => ⟨[], c :: rest, by rw [all_cons]; rfl, rfl, List.forall_mem_nil _, List.suffix_refl _, .inr h⟩
    by_cases hunclosed : .unclosedComment ∈ (next c rest).1.problems
    · obtain ⟨text, rfl, rfl, hopen⟩ := (next_problems hunclosed).2.1 rfl
      exact hstop (.comment hopen)
    · rcases next_append hd c rest more with h | h
      · obtain ⟨ls, rest', hall, happend, hclosed, hsuffix, hend⟩ := ih
        refine ⟨(next c rest).1 :: ls, rest', by rw [hall]; rfl, ?_, List.forall_mem_cons.mpr ⟨hunclosed, hclosed⟩,
          hsuffix.trans (next_suffix c rest), hend⟩
        rw [List.cons_append, all_cons, h, happend]
        rfl
      · exact hstop h

/-- A line break behind a line that ends in a semicolon: the lexemes of the line stay as they are, but for a
comment that is open at its end, which goes on. -/
theorem all_append_newline {text : List Char} (hflat : '\n' ∉ text) (hlast : ∀ c ∈ text.getLast?, c = ';')
    (tail : List Char) :
    (∀ l ∈ all text, .unclosedComment ∉ l.problems) ∧ all (text ++ '\n' :: tail) = all text ++ all ('\n' :: tail) ∨
      ∃ ls comment, (∀ l ∈ ls, .unclosedComment ∉ l.problems) ∧ all text = ls ++ [⟨comment, none, [.unclosedComment]⟩] ∧
        all (text ++ '\n' :: tail) = ls ++ ⟨comment ++ (Scan.comment ('\n' :: tail)).taken, none,
          (Scan.comment ('\n' :: tail)).problems⟩ :: all (Scan.comment ('\n' :: tail)).rest := by
  obtain ⟨ls, rest, hall, happend, hclosed, hsuffix, hend⟩ :=
    all_append (show separates '\n' = true by decide) text tail
  have hflat' : '\n' ∉ rest := fun hm => hflat (hsuffix.subset hm)
  have hlast' : ∀ c ∈ rest.getLast?, c = ';' := by
    obtain ⟨front, rfl⟩ := hsuffix
    refine fun c hc => hlast c ?_
    rw [List.getLast?_append, hc]
    rfl
  -- The last lexeme alone is the same before the line break.
  have same : ∀ l, l.problems.contains .unclosedComment = false → all rest = [l] →
      all (rest ++ '\n' :: tail) = l :: all ('\n' :: tail) →
      (∀ l ∈ all text, .unclosedComment ∉ l.problems) ∧
        all (text ++ '\n' :: tail) = all text ++ all ('\n' :: tail) := by
    intro l hl hrest htail
    rw [hall, happend, hrest, htail]
    refine ⟨fun l' hl' => ?_, by simp⟩
    rcases List.mem_append.mp hl' with hl' | hl'
    · exact hclosed l' hl'
    · rw [List.mem_singleton.mp hl']
      simpa using hl
  rcases hend with rfl | hopen
  · rw [all_nil, List.append_nil] at hall
    exact .inl ⟨hall ▸ hclosed, by rw [happend, hall]; rfl⟩
  · cases hopen with
    | blank h =>
      cases hrest : rest.getLast? with
      | none =>
        rw [List.getLast?_eq_none_iff.mp hrest, all_nil, List.append_nil] at hall
        rw [List.getLast?_eq_none_iff.mp hrest] at happend
        exact .inl ⟨hall ▸ hclosed, by rw [happend, hall]; rfl⟩
      | some c =>
        have hblank := h c (List.mem_of_getLast? hrest)
        rw [hlast' c hrest] at hblank
        exact absurd hblank (by decide)
    | @line text h =>
      have hline : ∀ b ∈ text, (b != '\n') = true := fun b hb => bne_iff_ne.mpr fun e => h (e ▸ hb)
      refine .inl (same ⟨'/' :: '/' :: text, none, []⟩ rfl (all_line h) ?_)
      · rw [List.cons_append, List.cons_append, all_cons, next_line, List.takeWhile_append_of_pos hline,
          List.dropWhile_append_of_pos hline]
        simp
    | @comment text h =>
      refine .inr ⟨ls, '/' :: '*' :: text, hclosed, ?_, ?_⟩
      · rw [hall, all_cons, next_comment, h, all_nil]
      · rw [happend, List.cons_append, List.cons_append, all_cons, next_comment,
          Scan.comment_append_of_open h (by simp)]
        rfl
    | @string text h =>
      have hflat'' : '\n' ∉ text := fun hm => hflat' (.tail _ hm)
      have hlast'' : text.getLast? ≠ some '\\' := by
        intro he
        have := hlast' _ (Scan.getLast?_of_cons he)
        cases this
      refine .inl (same ⟨'"' :: (Scan.string text).taken, some (.string (String.ofList (Scan.string text).value)),
        (Scan.string text).problems⟩ ?_ ?_ ?_)
      · simpa using fun hm => (Scan.string_problems hm).2 rfl
      · rw [all_cons, next_string, h.1, all_nil]
      · rw [List.cons_append, all_cons, next_string, Scan.string_append_newline hflat'' hlast'']
        simp [Scan.before, h.1]

end Lexeme

end FlowCheck.Flow

import FlowCheck.Proofs.Flow.Place

/-! What a text says apart from where: the kinds of its tokens, and what is wrong with its lexemes. The contents of
    texts with separating characters between them join up, unless a comment or a string goes on across. -/

namespace FlowCheck.Flow

open FlowCheck.Text

/-- The kinds of some tokens, and what is wrong with some lexemes. -/
structure Content where
  kinds : List TokenKind
  problems : List Problem
  deriving DecidableEq

namespace Content

instance : Append Content := ⟨fun a b => ⟨a.kinds ++ b.kinds, a.problems ++ b.problems⟩⟩

@[simp] theorem kinds_append (a b : Content) : (a ++ b).kinds = a.kinds ++ b.kinds := rfl

@[simp] theorem problems_append (a b : Content) : (a ++ b).problems = a.problems ++ b.problems := rfl

theorem append_assoc (a b c : Content) : a ++ b ++ c = a ++ (b ++ c) := by
  cases a; cases b; cases c
  show Content.mk _ _ = Content.mk _ _
  simp

theorem empty_append (a : Content) : (⟨[], []⟩ : Content) ++ a = a := rfl

theorem append_empty (a : Content) : a ++ (⟨[], []⟩ : Content) = a := by
  cases a
  show Content.mk _ _ = Content.mk _ _
  simp

/-- The content of some lexemes. -/
def ofLexemes (ls : List Lexeme) : Content := ⟨ls.filterMap (·.token), ls.flatMap (·.problems)⟩

theorem ofLexemes_append (a b : List Lexeme) : ofLexemes (a ++ b) = ofLexemes a ++ ofLexemes b := by
  simp only [ofLexemes, List.filterMap_append, List.flatMap_append]
  rfl

theorem ofLexemes_cons (l : Lexeme) (ls : List Lexeme) :
    ofLexemes (l :: ls) = ⟨l.token.toList, l.problems⟩ ++ ofLexemes ls := by
  cases hl : l.token <;> simp only [ofLexemes, List.filterMap_cons, hl, List.flatMap_cons] <;> rfl

end Content

/-- The content of a text. -/
def content (text : List Char) : Content := .ofLexemes (Lexeme.all text)

theorem content_nil : content [] = ⟨[], []⟩ := by
  rw [content, Lexeme.all_nil]
  rfl

theorem content_cons (c : Char) (rest : List Char) : content (c :: rest) =
    ⟨(Lexeme.next c rest).1.token.toList, (Lexeme.next c rest).1.problems⟩ ++ content (Lexeme.next c rest).2 := by
  rw [content, Lexeme.all_cons, Content.ofLexemes_cons, content]

/-! ### Single lexemes -/

theorem content_dropBlank (text : List Char) : content (text.dropWhile isBlank) = content text := by
  cases text with
  | nil => rfl
  | cons c text =>
    by_cases hc : isBlank c = true
    · rw [List.dropWhile_cons_of_pos hc, content_cons, Lexeme.next_blank hc]
      exact (Content.empty_append _).symm
    · rw [List.dropWhile_cons_of_neg hc]

theorem content_blank {blank : List Char} (h : ∀ c ∈ blank, isBlank c = true) (more : List Char) :
    content (blank ++ more) = content more := by
  rw [← content_dropBlank, List.dropWhile_append_of_pos h, content_dropBlank]

theorem content_cons_blank {d : Char} (h : isBlank d = true) (more : List Char) : content (d :: more) = content more :=
  content_blank (fun _ hc => List.mem_singleton.mp hc ▸ h : ∀ c ∈ [d], isBlank c = true) more

theorem content_space (more : List Char) : content (' ' :: more) = content more := content_cons_blank rfl more

/-- Signs that no other sign starts with. -/
def bareSigns : List (Char × Symbol) :=
  [('(', .leftParen), (')', .rightParen), (',', .comma), (':', .colon), (';', .semicolon)]

theorem content_sign {c : Char} {s : Symbol} (hs : (c, s) ∈ bareSigns) (more : List Char) :
    content (c :: more) = ⟨[.symbol s], []⟩ ++ content more := by
  have hsign : Lexeme.next c more = (⟨[c], some (.symbol s), []⟩, more) := by
    simp only [bareSigns, List.mem_cons, Prod.mk.injEq, List.not_mem_nil, or_false] at hs
    rcases hs with ⟨rfl, rfl⟩ | ⟨rfl, rfl⟩ | ⟨rfl, rfl⟩ | ⟨rfl, rfl⟩ | ⟨rfl, rfl⟩ <;> cases more <;> rfl
  rw [content_cons, hsign]
  rfl

theorem content_arrow (more : List Char) : content ('-' :: '>' :: more) = ⟨[.symbol .arrow], []⟩ ++ content more := by
  rw [content_cons]
  rfl

theorem content_fatArrow (more : List Char) :
    content ('=' :: '>' :: more) = ⟨[.symbol .fatArrow], []⟩ ++ content more := by
  rw [content_cons]
  rfl

theorem content_fn (more : List Char) :
    content ('f' :: 'n' :: ' ' :: more) = ⟨[.symbol .keywordFn], []⟩ ++ content (' ' :: more) := by
  have hword : Lexeme.next 'f' ('n' :: ' ' :: more) = (⟨['f', 'n'], some (.symbol .keywordFn), []⟩, ' ' :: more) := rfl
  rw [content_cons, hword]
  rfl

/-! ### Names -/

/-- A name is one lexeme before a character that goes on with no name. -/
theorem Lexeme.all_name {name : String} (h : Named name) {d : Char} (hd : continuesName d = false) (more : List Char) :
    all (name.toList ++ d :: more) = ⟨name.toList, some (.identifier name), []⟩ :: all (d :: more) := by
  obtain ⟨c, rest, hname, -, -, -, -, hstart, hrest⟩ := h.start
  have hword : wordToken (c :: rest) = .identifier name := by
    rw [wordToken, ← hname, String.ofList_toList, h.word]
  have htake : (rest ++ d :: more).takeWhile continuesName = rest := by
    rw [List.takeWhile_append_of_pos hrest, List.takeWhile_cons_of_neg (by simp [hd]), List.append_nil]
  have hdrop : (rest ++ d :: more).dropWhile continuesName = d :: more := by
    rw [List.dropWhile_append_of_pos hrest, List.dropWhile_cons_of_neg (by simp [hd])]
  rw [hname, List.cons_append, all_cons, next_name hstart, htake, hdrop, hword]

theorem content_name {name : String} (h : Named name) {d : Char} (hd : continuesName d = false) (more : List Char) :
    content (name.toList ++ d :: more) = ⟨[.identifier name], []⟩ ++ content (d :: more) := by
  rw [content, Lexeme.all_name h hd, Content.ofLexemes_cons, content]
  rfl

/-- An identifier of a text is a name. -/
theorem named_of_content {text : List Char} {name : String} (h : .identifier name ∈ (content text).kinds) :
    Named name := by
  obtain ⟨l, hl, ht⟩ := List.mem_filterMap.mp h
  exact (Lexeme.all_kind hl ht).2 name rfl

/-! ### Texts behind each other -/

open Lexeme (Open)

theorem content_line {text : List Char} (h : '\n' ∉ text) : content ('/' :: '/' :: text) = ⟨[], []⟩ := by
  rw [content, Lexeme.all_line h]
  rfl

theorem content_openComment {text : List Char} (h : Scan.OpenComment text) :
    content ('/' :: '*' :: text) = ⟨[], [.unclosedComment]⟩ := by
  rw [content_cons, Lexeme.next_comment, h, content_nil]
  rfl

theorem content_openString {text : List Char} (h : Scan.OpenString text) :
    .newlineInString ∈ (content ('"' :: text)).problems ∧
      .newlineInString ∈ (content ('"' :: text ++ [';'])).problems := by
  rw [List.cons_append, content_cons, content_cons, Lexeme.next_string, Lexeme.next_string]
  exact ⟨List.mem_append_left _ h.2, List.mem_append_left _ (Scan.openString_semicolon h)⟩

/-- The text ends inside a comment that reaches to the end of its line. -/
def endsInComment (text : List Char) : Bool := (Lexeme.all text).getLast?.any fun l => ['/', '/'].isPrefixOf l.text

section Append

variable {d : Char} (hd : separates d = true)
include hd

/-- A text falls into a front that does not see what follows, and an end that may go on behind the text. -/
theorem content_split (text more : List Char) :
    ∃ front rest, content text = front ++ content rest ∧
      content (text ++ d :: more) = front ++ content (rest ++ d :: more) ∧
      .unclosedComment ∉ front.problems ∧ (rest = [] ∨ Open rest) ∧
      ∀ line, rest = '/' :: '/' :: line → '\n' ∉ line → endsInComment text = true := by
  obtain ⟨ls, rest, hall, happend, hclosed, -, hend⟩ := Lexeme.all_append hd text more
  refine ⟨.ofLexemes ls, rest, ?_, ?_, ?_, hend, ?_⟩
  · rw [content, hall, Content.ofLexemes_append, content]
  · rw [content, happend, Content.ofLexemes_append, content]
  · intro hm
    obtain ⟨l, hl, hp⟩ := List.mem_flatMap.mp hm
    exact hclosed l hl hp
  · rintro line rfl hline
    rw [endsInComment, hall, Lexeme.all_line hline, List.getLast?_append]
    rfl

omit hd in
/-- Behind blanks all is said anew. -/
theorem content_append_of_blank {front : Content} {text rest : List Char} {more : List Char}
    (htext : content text = front ++ content rest) (hmore : content (text ++ more) = front ++ content (rest ++ more))
    (h : ∀ c ∈ rest, isBlank c = true) : content (text ++ more) = content text ++ content more := by
  have hblank := content_blank h []
  rw [List.append_nil, content_nil] at hblank
  rw [hmore, htext, content_blank h, hblank, Content.append_empty]

/-- Of a text without problems only a comment at its end sees what follows. -/
theorem content_append_clean {text : List Char} (hp : (content text).problems = []) (more : List Char) :
    content (text ++ d :: more) = content text ++ content (d :: more) ∨
      endsInComment text = true ∧ ('\n' ∉ d :: more → content (text ++ d :: more) = content text) := by
  obtain ⟨front, rest, htext, hmore, -, hend, hcomment⟩ := content_split hd text more
  have hrest : (content rest).problems = [] := by
    rw [htext, Content.problems_append] at hp
    exact (List.append_eq_nil_iff.mp hp).2
  rcases hend with rfl | hopen
  · exact .inl (content_append_of_blank htext hmore nofun)
  · cases hopen with
    | blank h => exact .inl (content_append_of_blank htext hmore h)
    | @line line h =>
      refine .inr ⟨hcomment line rfl h, fun hflat => ?_⟩
      have hline : '\n' ∉ line ++ d :: more := fun hm => (List.mem_append.mp hm).elim h hflat
      rw [hmore, htext, List.cons_append, List.cons_append, content_line h, content_line hline]
    | comment h => rw [content_openComment h] at hrest; cases hrest
    | string h => rw [List.eq_nil_iff_forall_not_mem] at hrest; exact absurd (content_openString h).1 (hrest _)

/-- Behind a text without problems that does not end inside a comment, what follows says what it says alone. -/
theorem content_append {text : List Char} (hp : (content text).problems = []) (he : endsInComment text = false)
    (more : List Char) : content (text ++ d :: more) = content text ++ content (d :: more) :=
  (content_append_clean hd hp more).resolve_right fun h => Bool.false_ne_true (he.symm.trans h.1)

end Append

/-- A semicolon behind a text on one line is a token, or part of a comment, or part of a string that is not
closed. -/
theorem content_semicolon (text : List Char) :
    content (text ++ [';']) = content text ++ ⟨[.symbol .semicolon], []⟩ ∧ .unclosedComment ∉ (content text).problems ∨
      content (text ++ [';']) = content text ∨ .newlineInString ∈ (content (text ++ [';'])).problems := by
  have hsemicolon : content [';'] = ⟨[.symbol .semicolon], []⟩ := by
    rw [content_sign (c := ';') (s := .semicolon) (by decide), content_nil]
    rfl
  obtain ⟨front, rest, htext, hmore, hfront, hend, -⟩ := content_split (d := ';') (by decide) text []
  have closed : (∀ c ∈ rest, isBlank c = true) → content (text ++ [';']) =
      content text ++ ⟨[.symbol .semicolon], []⟩ ∧ .unclosedComment ∉ (content text).problems := by
    intro h
    have hblank := content_blank h []
    rw [List.append_nil, content_nil] at hblank
    rw [content_append_of_blank htext hmore h, hsemicolon, htext, hblank, Content.append_empty]
    exact ⟨rfl, hfront⟩
  rcases hend with rfl | hopen
  · exact .inl (closed nofun)
  · cases hopen with
    | blank h => exact .inl (closed h)
    | @line line h =>
      have hline : '\n' ∉ line ++ [';'] := fun hm => (List.mem_append.mp hm).elim h (by decide)
      refine .inr (.inl ?_)
      rw [hmore, htext, List.cons_append, List.cons_append, content_line h, content_line hline]
    | @comment comment h =>
      refine .inr (.inl ?_)
      have hopen : Scan.OpenComment (comment ++ [';']) := by
        rw [Scan.OpenComment, Scan.comment_append_of_open h (by decide)]
        rfl
      rw [hmore, htext, List.cons_append, List.cons_append, content_openComment h, content_openComment hopen]
    | string h =>
      refine .inr (.inr ?_)
      rw [hmore]
      exact List.mem_append_right _ (content_openString h).2

/-! ### Tokens -/

theorem diagnostics_eq_nil {start : Location} {ls : List Lexeme} :
    Lexeme.diagnostics start ls = [] ↔ (Content.ofLexemes ls).problems = [] := by
  induction ls generalizing start with
  | nil => exact ⟨fun _ => rfl, fun _ => rfl⟩
  | cons l ls ih =>
    rw [Lexeme.diagnostics, List.append_eq_nil_iff, List.map_eq_nil_iff, ih, Content.ofLexemes_cons,
      Content.problems_append, List.append_eq_nil_iff]

theorem mem_diagnostics {start : Location} {ls : List Lexeme} {d : Diagnostic} (h : d ∈ Lexeme.diagnostics start ls) :
    ∃ p ∈ (Content.ofLexemes ls).problems, ∃ loc, d = p.located loc := by
  induction ls generalizing start with
  | nil => cases h
  | cons l ls ih =>
    rcases List.mem_append.mp h with h | h
    · obtain ⟨p, hp, rfl⟩ := List.mem_map.mp h
      exact ⟨p, List.mem_append_left _ hp, start, rfl⟩
    · obtain ⟨p, hp, hd⟩ := ih h
      exact ⟨p, List.mem_append_right _ hp, hd⟩

/-- The tokens of a text are those of its content, and the end of the file. -/
theorem tokenize_tokens (source : String) : ∃ w last, (tokenize source).tokens = w ++ [last] ∧
    last.kind = .endOfFile ∧ w.map (·.kind) = (content source.toList).kinds := by
  obtain ⟨loc, h⟩ := Lexeme.tokens_eq .start none (Lexeme.all source.toList)
  exact ⟨_, _, h, rfl, Lexeme.placed_kind ..⟩

theorem tokenize_diagnostics {source : String} :
    (tokenize source).diagnostics = [] ↔ (content source.toList).problems = [] := diagnostics_eq_nil

theorem endOfFile_notMem (text : List Char) : .endOfFile ∉ (content text).kinds := by
  intro hm
  obtain ⟨l, hl, h⟩ := List.mem_filterMap.mp hm
  exact (Lexeme.all_kind hl h).1 rfl

end FlowCheck.Flow

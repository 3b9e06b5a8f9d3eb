import FlowCheck.Proofs.Flow.Comments

/-! Where the tokens of a text stand. They stand one behind the other, each is what its text alone is, and between them
    are blanks, comments and characters that are reported. -/

namespace FlowCheck

open FlowCheck.Text

/-! ### Parts of a text -/

namespace Location

/-- This place is not before the first one, and before the other. -/
def Between (loc first stop : Location) : Prop := first.le loc = true ∧ stop.le loc = false

/-- Of two beginnings of a text that end at one place the first is the second. -/
theorem advance_injective {loc : Location} {source a b : List Char} (ha : a <+: source) (hb : b <+: source)
    (h : loc.advance a = loc.advance b) : a = b := by
  have nothing {loc : Location} {more : List Char} (h : loc.advance more = loc) : more = [] := by
    have hle : (loc.advance more).le loc = true := by rw [h, le_refl]
    exact advance_le_self hle
  rcases List.prefix_or_prefix_of_prefix ha hb with ⟨more, rfl⟩ | ⟨more, rfl⟩ <;> rw [advance_append] at h
  · rw [nothing h.symm, List.append_nil]
  · rw [nothing h, List.append_nil]

theorem between_of_ne_nil (loc : Location) (front : List Char) {text : List Char} (h : text ≠ []) :
    (loc.advance front).Between loc (loc.advance (front ++ text)) := by
  refine ⟨loc.le_advance front, Bool.eq_false_iff.mpr fun hle => h ?_⟩
  rw [advance_append] at hle
  exact advance_le_self hle

end Location

/-- A part of a text, with what stands before and behind it. -/
@[ext]
structure Part (source : List Char) where
  front : List Char
  text : List Char
  back : List Char
  join : front ++ (text ++ back) = source

namespace Part

variable {source : List Char}

/-- Where the part starts. -/
def first (part : Part source) : Location := Location.start.advance part.front

/-- Where the text goes on behind the part. -/
def stop (part : Part source) : Location := part.first.advance part.text

/-- The token starts and stops where the part does. -/
def Of (part : Part source) (t : Flow.Token) : Prop := part.first = t.start ∧ part.stop = t.stop

/-- A part is known from where it starts and stops. -/
theorem ext_places {a b : Part source} (hfirst : a.first = b.first) (hstop : a.stop = b.stop) : a = b := by
  have hfront : a.front = b.front :=
    Location.advance_injective ⟨_, a.join⟩ ⟨_, b.join⟩ hfirst
  have hbehind : a.text ++ a.back = b.text ++ b.back :=
    List.append_cancel_left (hfront ▸ a.join.trans b.join.symm)
  have htext : a.text = b.text := by
    rw [stop, stop, hfirst] at hstop
    exact Location.advance_injective ⟨_, rfl⟩ ⟨_, hbehind.symm⟩ hstop
  exact Part.ext hfront htext (List.append_cancel_left (htext ▸ hbehind))

end Part

namespace Flow

/-! ### Lexemes alone -/

theorem run_alone (p : Char → Bool) (text : List Char) :
    (text.takeWhile p).takeWhile p = text.takeWhile p ∧ (text.takeWhile p).dropWhile p = [] :=
  ⟨List.takeWhile_idem, List.dropWhile_eq_nil_iff.mpr fun _ => List.mem_takeWhile_imp⟩

namespace Scan

/-- A string alone is the same string. -/
theorem string_alone (text : List Char) : string (string text).taken = { string text with rest := [] } := by
  fun_induction string text with
  | case1 | case2 | case6 => rfl
  | case3 c rest e he ih => exact (string_escape he _).trans (congrArg (·.after ['\\', c] [e] []) ih)
  | case4 c rest he ih => exact (string_unknown he _).trans (congrArg (·.after ['\\', c] [] [.unknownEscape c]) ih)
  | case5 rest => exact string_quote []
  | case7 c rest hend hescape hquote hnewline ih =>
    exact (string_cons ⟨ne_backslash hend hescape, hquote, hnewline⟩ _).trans (congrArg (·.after [c] [c] []) ih)

end Scan

namespace Lexeme

/-- A number goes on behind a point, or it is whole. -/
theorem number_cases (whole rest : List Char) :
    (∃ fraction, number whole ('.' :: fraction) = ((number whole rest).1, []) ∧
      (number whole rest).1.text = whole ++ '.' :: fraction) ∨
    (number whole rest).1 = int whole := by
  unfold number
  split
  · rename_i d more
    split
    · rename_i hd
      obtain ⟨htake, hdrop⟩ := run_alone isDigit (d :: more)
      refine .inl ⟨(d :: more).takeWhile isDigit, ?_, rfl⟩
      rw [List.takeWhile_cons_of_pos hd] at htake hdrop ⊢
      simp only [hd, ↓reduceIte, htake, hdrop]
    · exact .inr rfl
  · exact .inr rfl

/-- The first lexeme of the text is the same lexeme alone. -/
def Alone (c : Char) (rest : List Char) : Prop :=
  ∃ more, (next c rest).1.text = c :: more ∧ next c more = ((next c rest).1, [])

section Alone

variable {c : Char} {rest : List Char}

theorem alone_blank (h : isBlank c = true) : Alone c rest := by
  obtain ⟨htake, hdrop⟩ := run_alone isBlank rest
  refine ⟨rest.takeWhile isBlank, ?_, ?_⟩ <;> rw [next_blank h]
  rw [next_blank h, htake, hdrop]

theorem alone_comment {text behind : List Char} {problems : List Problem} (h : Comment text behind problems)
    (hnext : next c rest = (⟨text, none, problems⟩, behind)) : Alone c rest := by
  obtain ⟨d, more, htext, halone⟩ := h.alone.next
  rw [List.append_nil] at htext
  have hjoin := next_join c rest
  rw [hnext, htext] at hjoin
  obtain ⟨rfl, -⟩ := List.cons.inj hjoin
  refine ⟨more, ?_, ?_⟩ <;> rw [hnext]
  · exact htext
  · exact halone

theorem alone_string (rest : List Char) : Alone '"' rest := by
  refine ⟨(Scan.string rest).taken, rfl, ?_⟩
  rw [next_string, next_string, Scan.string_alone]

theorem alone_digit (h : isDigit c = true) : Alone c rest := by
  have hwhole : ∀ d ∈ rest.takeWhile isDigit, isDigit d = true := fun _ => List.mem_takeWhile_imp
  have hnext := next_digit h rest
  rcases number_cases (c :: rest.takeWhile isDigit) (rest.dropWhile isDigit) with ⟨fraction, hnumber, htext⟩ | hint
  · refine ⟨rest.takeWhile isDigit ++ '.' :: fraction, hnext ▸ htext, ?_⟩
    rw [hnext, next_digit h, List.takeWhile_append_of_pos hwhole, List.dropWhile_append_of_pos hwhole,
      List.takeWhile_cons_of_neg (by decide), List.dropWhile_cons_of_neg (by decide), List.append_nil, hnumber]
  · obtain ⟨htake, hdrop⟩ := run_alone isDigit rest
    refine ⟨rest.takeWhile isDigit, ?_, ?_⟩ <;> rw [hnext, hint]
    · exact text_int _
    · rw [next_digit h, htake, hdrop]
      rfl

theorem alone_name (h : startsName c = true) : Alone c rest := by
  obtain ⟨htake, hdrop⟩ := run_alone continuesName rest
  refine ⟨rest.takeWhile continuesName, ?_, ?_⟩ <;> rw [next_name h]
  rw [next_name h, htake, hdrop]

/-- A sign alone is the same sign, and a slash is one by itself. -/
theorem sign_alone (c : Char) (rest : List Char) : ∃ more, (sign c rest).1.text = c :: more ∧
    sign c more = ((sign c rest).1, []) ∧ (c = '/' → more = []) := by
  unfold sign
  split
  · exact ⟨[], text_single c, rfl, fun _ => rfl⟩
  · rename_i d more
    cases hs : sign₂? c d with
    | some s =>
      refine ⟨[d], rfl, by simp only [hs], ?_⟩
      rintro rfl
      cases hs
    | none => exact ⟨[], text_single c, rfl, fun _ => rfl⟩

theorem next_alone (c : Char) (rest : List Char) : Alone c rest := by
  by_cases hblank : isBlank c = true
  · exact alone_blank hblank
  by_cases hline : c = '/' ∧ rest.head? = some '/'
  · obtain ⟨rfl, hrest⟩ := hline
    obtain ⟨text, rfl⟩ := List.head?_eq_some_iff.mp hrest
    exact alone_comment (.ofLine text) (next_line text)
  by_cases hcomment : c = '/' ∧ rest.head? = some '*'
  · obtain ⟨rfl, hrest⟩ := hcomment
    obtain ⟨text, rfl⟩ := List.head?_eq_some_iff.mp hrest
    exact alone_comment (.ofScan text) (next_comment text)
  by_cases hquote : c = '"'
  · exact hquote ▸ alone_string rest
  by_cases hdigit : isDigit c = true
  · exact alone_digit hdigit
  by_cases hname : startsName c = true
  · exact alone_name hname
  obtain ⟨more, htext, halone, hslash⟩ := sign_alone c rest
  have hmore (d : Char) : ¬(c = '/' ∧ more.head? = some d) := by
    rintro ⟨rfl, hd⟩
    rw [hslash rfl] at hd
    cases hd
  refine ⟨more, ?_⟩
  simp only [next, hblank, hline, hcomment, hquote, hdigit, hname, hmore, ↓reduceIte, Bool.false_eq_true]
  exact ⟨htext, halone⟩

end Alone

/-- What a lexeme is, with the text behind it. -/
inductive Is (behind : List Char) : Lexeme → Prop where
  | token {text kind problems} : Is behind ⟨text, some kind, problems⟩
  | blank {text} : (∀ c ∈ text, isBlank c = true) → Is behind ⟨text, none, []⟩
  | comment {text problems} : Comment text behind problems → Is behind ⟨text, none, problems⟩
  | stray {c} : Is behind ⟨[c], none, [.unexpectedCharacter c]⟩

theorem int_is (behind digits : List Char) : (int digits).Is behind := by
  unfold int
  split <;> exact .token

theorem sign_is (c : Char) (rest : List Char) : (sign c rest).1.Is (sign c rest).2 := by
  have single_is (behind : List Char) : (single c).Is behind := by
    unfold single
    split
    · exact .token
    · exact .stray
  unfold sign
  split
  · exact single_is _
  · split
    · exact .token
    · exact single_is _

theorem next_is (c : Char) (rest : List Char) : (next c rest).1.Is (next c rest).2 := by
  unfold next
  split
  · rename_i hblank
    exact .blank (List.forall_mem_cons.mpr ⟨hblank, fun _ => List.mem_takeWhile_imp⟩)
  split
  · rename_i hline
    obtain ⟨rfl, hrest⟩ := hline
    obtain ⟨text, rfl⟩ := List.head?_eq_some_iff.mp hrest
    exact .comment (.ofLine text)
  split
  · rename_i hcomment
    obtain ⟨rfl, hrest⟩ := hcomment
    obtain ⟨text, rfl⟩ := List.head?_eq_some_iff.mp hrest
    exact .comment (.ofScan text)
  split
  · exact .token
  split
  · unfold number
    split
    · split
      · exact .token
      · exact int_is ..
    · exact int_is ..
  split
  · exact .token
  · exact sign_is c rest

/-! ### Lexemes in a text -/

/-- Each lexeme of a text is taken off the front of what stands from there on. -/
theorem next_of_all {text : List Char} {front back : List Lexeme} {l : Lexeme} (h : all text = front ++ l :: back) :
    ∃ c rest, next c rest = (l, width back) := by
  fun_induction all text generalizing front with
  | case1 => cases front <;> cases h
  | case2 c rest ih =>
    cases front with
    | nil =>
      obtain ⟨rfl, rfl⟩ := List.cons.inj h
      exact ⟨c, rest, by rw [width_all]⟩
    | cons m front => exact ih (List.cons.inj h).2

theorem text_ne_nil {text : List Char} {l : Lexeme} (hl : l ∈ all text) : l.text ≠ [] := by
  obtain ⟨front, back, h⟩ := List.append_of_mem hl
  obtain ⟨c, rest, hnext⟩ := next_of_all h
  have hne := next_text_ne_nil c rest
  rwa [hnext] at hne

/-- Each character is in one of the lexemes. -/
theorem lexeme_of_char {ls : List Lexeme} {before behind : List Char} {c : Char}
    (h : width ls = before ++ c :: behind) : ∃ front l back a b, ls = front ++ l :: back ∧ l.text = a ++ c :: b ∧
      before = width front ++ a := by
  induction ls generalizing before with
  | nil => cases before <;> cases h
  | cons l ls ih =>
    have hjoin : l.text ++ width ls = before ++ c :: behind := h
    rcases List.append_eq_append_iff.mp hjoin with ⟨more, rfl, hrest⟩ | ⟨more, htext, hrest⟩
    · obtain ⟨front, m, back, a, b, rfl, hm, rfl⟩ := ih hrest
      exact ⟨l :: front, m, back, a, b, rfl, hm, (List.append_assoc ..).symm⟩
    · cases more with
      | nil =>
        have hnone : width ls = [] ++ c :: behind := hrest.symm
        obtain ⟨front, m, back, a, b, rfl, hm, ha⟩ := ih hnone
        refine ⟨l :: front, m, back, a, b, rfl, hm, ?_⟩
        calc before = l.text ++ [] := by rw [htext, List.append_nil, List.append_nil]
          _ = l.text ++ (width front ++ a) := by rw [← ha]
          _ = width (l :: front) ++ a := (List.append_assoc ..).symm
      | cons d more =>
        obtain ⟨rfl, -⟩ := List.cons.inj hrest
        exact ⟨[], l, ls, before, more, rfl, htext, rfl⟩

theorem all_alone {text : List Char} {l : Lexeme} (hl : l ∈ all text) : all l.text = [l] := by
  obtain ⟨front, back, h⟩ := List.append_of_mem hl
  obtain ⟨c, rest, hnext⟩ := next_of_all h
  obtain ⟨more, htext, halone⟩ := next_alone c rest
  rw [hnext] at htext halone
  rw [htext, all_cons, halone, all_nil]

/-! ### Tokens and problems in a text -/

section Placed

variable {start : Location} {last : Option Location} {ls front back : List Lexeme} {l : Lexeme}

theorem width_split (h : ls = front ++ l :: back) : width front ++ (l.text ++ width back) = width ls := by
  rw [h, width, width, width, List.flatMap_append, List.flatMap_cons]

/-- Of two lexemes of a text one stands behind the other, or they are the same. -/
theorem split_cases {front' back' : List Lexeme} {l' : Lexeme} (h : ls = front ++ l :: back)
    (h' : ls = front' ++ l' :: back') : (front' = front ∧ l' = l ∧ back' = back) ∨
      (∃ more, front' = front ++ l :: more) ∨ ∃ more, front = front' ++ l' :: more := by
  rcases List.append_eq_append_iff.mp (h.symm.trans h') with ⟨between, hfront, hrest⟩ | ⟨between, hfront, hrest⟩
  · rcases List.cons_eq_append_iff.mp hrest with ⟨rfl, hsame⟩ | ⟨more, rfl, -⟩
    · obtain ⟨rfl, rfl⟩ := List.cons.inj hsame
      exact .inl ⟨hfront.trans (List.append_nil _), rfl, rfl⟩
    · exact .inr (.inl ⟨more, hfront⟩)
  · rcases List.cons_eq_append_iff.mp hrest with ⟨rfl, hsame⟩ | ⟨more, rfl, -⟩
    · obtain ⟨rfl, rfl⟩ := List.cons.inj hsame
      exact .inl ⟨(hfront.trans (List.append_nil _)).symm, rfl, rfl⟩
    · exact .inr (.inr ⟨more, hfront⟩)

theorem stop_le_behind (start : Location) (front more : List Lexeme) (l : Lexeme) :
    ((start.advance (width front)).advance l.text).le (start.advance (width (front ++ l :: more))) = true := by
  rw [← width_split rfl, Location.advance_append, Location.advance_append]
  exact Location.le_advance ..

theorem exists_placed {kind : TokenKind} (h : ls = front ++ l :: back) (hl : l.token = some kind) :
    ∃ t ∈ placed start last ls, t.start = start.advance (width front) ∧ t.stop = t.start.advance l.text := by
  rw [h, placed_append, placed, hl]
  exact ⟨_, List.mem_append_right _ (.head _), rfl, rfl⟩

theorem lexeme_of_placed {t : Token} (ht : t ∈ placed start last ls) : ∃ front l back, ls = front ++ l :: back ∧
    l.token = some t.kind ∧ t.start = start.advance (width front) ∧ t.stop = t.start.advance l.text := by
  induction ls generalizing start last with
  | nil => cases ht
  | cons l ls ih =>
    have behind {last : Option Location} (ht : t ∈ placed (start.advance l.text) last ls) :
        ∃ front m back, l :: ls = front ++ m :: back ∧ m.token = some t.kind ∧
          t.start = start.advance (width front) ∧ t.stop = t.start.advance m.text := by
      obtain ⟨front, m, back, rfl, hm, hstart, hstop⟩ := ih ht
      refine ⟨l :: front, m, back, rfl, hm, hstart.trans ?_, hstop⟩
      exact (Location.advance_append _ _ _).symm
    simp only [placed] at ht
    cases hl : l.token with
    | none =>
      rw [hl] at ht
      exact behind ht
    | some kind =>
      rw [hl] at ht
      rcases List.mem_cons.mp ht with rfl | ht
      · exact ⟨[], l, ls, rfl, hl, rfl, rfl⟩
      · exact behind ht

/-- A lexeme without a token stands apart from the tokens. -/
theorem placed_beside (h : ls = front ++ l :: back) (hl : l.token = none) {t : Token} (ht : t ∈ placed start last ls) :
    t.stop.le (start.advance (width front)) = true ∨
      ((start.advance (width front)).advance l.text).le t.start = true := by
  rw [h, placed_append, placed, hl] at ht
  rcases List.mem_append.mp ht with ht | ht
  · exact .inl (placed_within ht).2.2
  · exact .inr (placed_within ht).1

/-- The problems stand in the text of the lexemes. -/
theorem diagnostics_within (hne : ∀ l ∈ ls, l.text ≠ []) {d : Diagnostic} (hd : d ∈ diagnostics start ls) :
    ∃ loc, d.location = some loc ∧ loc.Between start (start.advance (width ls)) := by
  induction ls generalizing start with
  | nil => cases hd
  | cons l ls ih =>
    obtain ⟨hl, hls⟩ := List.forall_mem_cons.mp hne
    rcases List.mem_append.mp hd with hd | hd
    · obtain ⟨p, -, rfl⟩ := List.mem_map.mp hd
      have hwidth : width (l :: ls) ≠ [] := fun h => hl (List.append_eq_nil_iff.mp h).1
      exact ⟨start, rfl, start.between_of_ne_nil [] hwidth⟩
    · obtain ⟨loc, hloc, hstart, hstop⟩ := ih hls hd
      refine ⟨loc, hloc, Location.le_trans (start.le_advance l.text) hstart, ?_⟩
      rwa [← Location.advance_append] at hstop

theorem diagnostics_elsewhere (hne : ∀ l ∈ ls, l.text ≠ []) {here : Location}
    (h : ¬here.Between start (start.advance (width ls))) :
    (diagnostics start ls).filter (·.location == some here) = [] := by
  refine List.filter_eq_nil_iff.mpr fun d hd heq => h ?_
  obtain ⟨loc, hloc, hbetween⟩ := diagnostics_within hne hd
  rw [hloc, beq_iff_eq] at heq
  exact Option.some.inj heq ▸ hbetween

/-- At the place of a stray character there is one problem. -/
theorem diagnostics_stray {c : Char} (hne : ∀ l ∈ ls, l.text ≠ [])
    (h : ls = front ++ ⟨[c], none, [.unexpectedCharacter c]⟩ :: back) :
    (diagnostics start ls).filter (·.location == some (start.advance (width front))) =
      [(Problem.unexpectedCharacter c).located (start.advance (width front))] := by
  subst h
  obtain ⟨hfront, hback⟩ := List.forall_mem_append.mp hne
  let here := start.advance (width front)
  have hbefore : (diagnostics start front).filter (·.location == some here) = [] :=
    diagnostics_elsewhere hfront fun h => Bool.false_ne_true (h.2.symm.trans here.le_refl)
  have hbehind : (diagnostics (here.advance [c]) back).filter (·.location == some here) = [] :=
    diagnostics_elsewhere (List.forall_mem_cons.mp hback).2 fun h =>
      List.cons_ne_nil c [] (Location.advance_le_self h.1)
  rw [diagnostics_append, diagnostics, List.filter_append, List.filter_append, hbefore, hbehind]
  simp [Problem.located]

end Placed

end Lexeme

/-! ### Tokens of a text -/

open Lexeme

/-- The part of the text where one of its lexemes stands. -/
def Lexeme.part {text : List Char} {front back : List Lexeme} {l : Lexeme} (h : all text = front ++ l :: back) :
    Part text :=
  ⟨width front, l.text, width back, (width_split h).trans (width_all text)⟩

/-- A token stands at one part of the text, and is what the text of this part is alone. -/
theorem part_of_token {text : List Char} {t : Token} (ht : t ∈ placed .start none (all text)) :
    ∃ part : Part text, part.Of t ∧ (∀ other : Part text, other.Of t → other = part) ∧ part.text ≠ [] ∧
      (tokenize (.ofList part.text)).tokens.map (·.kind) = [t.kind, .endOfFile] := by
  obtain ⟨front, l, back, hall, hl, hstart, hstop⟩ := lexeme_of_placed ht
  have hmem : l ∈ all text := hall ▸ List.mem_append_right _ (.head _)
  have hpart : (part hall).Of t := ⟨hstart.symm, (congrArg (·.advance l.text) hstart.symm).trans hstop.symm⟩
  refine ⟨part hall, hpart, fun other hother => ?_, text_ne_nil hmem, ?_⟩
  · exact Part.ext_places (hother.1.trans hpart.1.symm) (hother.2.trans hpart.2.symm)
  · show (tokenize (.ofList l.text)).tokens.map (·.kind) = [t.kind, .endOfFile]
    rw [tokenize, String.toList_ofList, all_alone hmem]
    simp only [tokens, hl, List.map_cons, List.map_nil]

/-! ### Comments of a text -/

/-- The part is one of the comments of the text: it is one of the lexemes into which the text falls, so that it does not
start in another comment or in a string, and it is a comment as it stands there. -/
def IsComment {text : List Char} (part : Part text) : Prop :=
  ∃ front problems back, all text = front ++ ⟨part.text, none, problems⟩ :: back ∧ part.front = width front ∧
    part.back = width back ∧ Comment part.text part.back problems

/-- The part of the text starts in one of its comments. -/
def InComment {text : List Char} (here : Part text) : Prop :=
  ∃ comment : Part text, IsComment comment ∧ here.first.Between comment.first comment.stop

namespace IsComment

variable {text : List Char} {comment other : Part text}

theorem token_beside (h : IsComment comment) {t : Token} (ht : t ∈ placed .start none (all text)) :
    t.stop.le comment.first = true ∨ comment.stop.le t.start = true := by
  obtain ⟨front, problems, back, hall, hfront, -, -⟩ := h
  rw [Part.stop, Part.first, hfront]
  exact placed_beside hall rfl ht

/-- Two comments of a text are the same, or they stand apart. -/
theorem apart (h : IsComment comment) (hother : IsComment other) :
    other = comment ∨ other.stop.le comment.first = true ∨ comment.stop.le other.first = true := by
  obtain ⟨front, problems, back, hall, hfront, hback, -⟩ := h
  obtain ⟨front', problems', back', hall', hfront', hback', -⟩ := hother
  rw [Part.stop, Part.stop, Part.first, Part.first, hfront, hfront']
  rcases split_cases hall hall' with ⟨rfl, hl, rfl⟩ | ⟨more, rfl⟩ | ⟨more, rfl⟩
  · exact .inl (Part.ext (hfront'.trans hfront.symm) (congrArg Lexeme.text hl) (hback'.trans hback.symm))
  · exact .inr (.inr (stop_le_behind _ front more ⟨comment.text, none, problems⟩))
  · exact .inr (.inl (stop_le_behind _ front' more ⟨other.text, none, problems'⟩))

end IsComment

/-- A character at which no token stands is a blank, or in a comment, or stray. -/
theorem outside_tokens {text : List Char} {here : Part text} {c : Char} (hc : here.text = [c])
    (houtside : ∀ t ∈ placed .start none (all text), ¬here.first.Between t.start t.stop) :
    isBlank c = true ∨ InComment here ∨
      (diagnostics .start (all text)).filter (·.location == some here.first) =
        [(Problem.unexpectedCharacter c).located here.first] := by
  have hjoin := here.join
  rw [hc] at hjoin
  obtain ⟨front, l, back, a, b, hall, hl, hfront⟩ := lexeme_of_char ((width_all _).trans hjoin.symm)
  obtain ⟨d, rest, hnext⟩ := next_of_all hall
  have his := next_is d rest
  rw [hnext] at his
  have hfirst : here.first = (Location.start.advance (width front)).advance a := by
    rw [Part.first, hfront, Location.advance_append]
  have hinside := Location.between_of_ne_nil (.advance .start (width front)) a (List.cons_ne_nil c b)
  rw [← hl, ← hfirst] at hinside
  cases his with
  | token =>
    obtain ⟨t, ht, hstart, hstop⟩ := exists_placed hall rfl
    rw [← hstart] at hinside
    exact absurd (hstop ▸ hinside) (houtside t ht)
  | @blank blanks hblank =>
    obtain rfl : blanks = a ++ c :: b := hl
    exact .inl (hblank c (List.mem_append_right a (.head b)))
  | @comment body problems hcomment =>
    have hpart : IsComment (part hall) := ⟨front, problems, back, hall, rfl, rfl, hcomment⟩
    exact .inr (.inl ⟨part hall, hpart, hinside⟩)
  | @stray e =>
    obtain ⟨rfl, hrest⟩ | ⟨_, rfl, hrest⟩ := List.cons_eq_append_iff.mp hl
    · obtain ⟨rfl, -⟩ := List.cons.inj hrest
      exact .inr (.inr (hfirst ▸ diagnostics_stray (fun _ => text_ne_nil) hall))
    · exact absurd hrest (by simp)

/-- The tokens of a text stand one behind the other, and the end of the file stands at the end of the text. Each of the
others stands at one part of the text, which is not empty and is this token alone. The comments of the text stand apart
from the tokens and from each other. A character at which no token stands is a blank, or it is in a comment, or else
just one problem is reported at its place, which is that it is not expected. -/
theorem tokenize_tiles (source : String) :
    ∃ (tokens : List Token) (last : Token), (tokenize source).tokens = tokens ++ [last] ∧
      (last.kind = .endOfFile ∧ last.start = Location.start.advance source.toList ∧ last.stop = last.start) ∧
      (tokens ++ [last]).Pairwise (fun t u => t.stop.le u.start = true) ∧
      (∀ t ∈ tokens, t.kind ≠ .endOfFile ∧ ∃ part : Part source.toList,
        part.Of t ∧ (∀ other : Part source.toList, other.Of t → other = part) ∧ part.text ≠ [] ∧
          (tokenize (.ofList part.text)).tokens.map (·.kind) = [t.kind, .endOfFile]) ∧
      (∀ comment : Part source.toList, IsComment comment →
        (∀ t ∈ tokens, t.stop.le comment.first = true ∨ comment.stop.le t.start = true) ∧
          ∀ other : Part source.toList, IsComment other →
            other = comment ∨ other.stop.le comment.first = true ∨ comment.stop.le other.first = true) ∧
      ∀ (here : Part source.toList) (c : Char), here.text = [c] →
        (∀ t ∈ tokens, ¬here.first.Between t.start t.stop) → isBlank c = true ∨ InComment here ∨
          (tokenize source).diagnostics.filter (·.location == some here.first) =
            [(Problem.unexpectedCharacter c).located here.first] := by
  obtain ⟨loc, htokens⟩ := Lexeme.tokens_eq .start none (Lexeme.all source.toList)
  rw [width_all] at htokens
  refine ⟨_, _, htokens, ⟨rfl, rfl, rfl⟩, ?_, fun t ht => ⟨placed_all _ _ _ t ht, part_of_token ht⟩, ?_, ?_⟩
  · refine List.pairwise_append.mpr ⟨placed_apart .., List.pairwise_singleton .., fun t ht u hu => ?_⟩
    have hend := (placed_within ht).2.2
    rw [width_all] at hend
    rw [List.mem_singleton.mp hu]
    exact hend
  · exact fun comment h => ⟨fun t ht => h.token_beside ht, fun other hother => h.apart hother⟩
  · exact fun here c hc houtside => outside_tokens hc houtside

-- No comment starts in another one, so that the next line is not in a comment.
example : (tokenize "// /*\nx y").tokens.map (·.kind) = [.identifier "x", .identifier "y", .endOfFile] := by
  decide +kernel

end Flow

end FlowCheck

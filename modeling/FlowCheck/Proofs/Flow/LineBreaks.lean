import FlowCheck.Proofs.Flow.OneLine

/-! When the line breaks of a text can go. On one line a text has the same words unless a line break ends a comment with
    more words behind it, stands in a string, or breaks one off. -/

namespace FlowCheck.Flow

open FlowCheck.Text

/-! ### Strings -/

/-- There is a line break without a backslash before it. -/
def bareBreak : List Char → Bool
  | '\\' :: _ :: rest => bareBreak rest
  | c :: rest => c = '\r' || c = '\n' || bareBreak rest
  | [] => false

namespace Scan

/-- A string has no bare line break, and no line break cuts it off. -/
structure Flat (s : Scan) : Prop where
  within : bareBreak s.taken = false
  behind : .newlineInString ∈ s.problems → s.rest = []

theorem flat_escape {c : Char} {v : List Char} {p : List Problem} (h : .newlineInString ∉ p) (s : Scan) :
    (s.after ['\\', c] v p).Flat ↔ s.Flat := by
  have hmem : .newlineInString ∈ (s.after ['\\', c] v p).problems ↔ .newlineInString ∈ s.problems :=
    List.mem_append.trans (or_iff_right h)
  exact ⟨fun hs => ⟨hs.within, fun hm => hs.behind (hmem.mpr hm)⟩,
    fun hs => ⟨hs.within, fun hm => hs.behind (hmem.mp hm)⟩⟩

theorem flat_cons {c : Char} (hc : c ≠ '\\' ∧ c ≠ '\n' ∧ c ≠ '\r') (s : Scan) : (s.after [c] [c] []).Flat ↔ s.Flat := by
  have hbreak : bareBreak (s.after [c] [c] []).taken = bareBreak s.taken := by
    show bareBreak (c :: s.taken) = bareBreak s.taken
    rw [bareBreak, decide_eq_false hc.2.1, decide_eq_false hc.2.2, Bool.false_or, Bool.false_or]
    exact fun _ _ h => absurd h hc.1
  exact ⟨fun hs => ⟨hbreak ▸ hs.within, hs.behind⟩, fun hs => ⟨hbreak.trans hs.within, hs.behind⟩⟩

/-- Two strings with the same value and problems with the same codes. Behind the second stands on one line what stands
behind the first. -/
structure SameString (s t : Scan) : Prop where
  value : s.value = t.value
  codes : s.problems.map (·.code) = t.problems.map (·.code)
  rest : Joined s.rest t.rest

end Scan

/-- A string and the same on one line. If it is flat they say the same; if not they have two values, but where a
backslash stands before a carriage return and a newline. -/
inductive StringFolds (a b : List Char) : Prop where
  | flat : (Scan.string a).Flat → (Scan.string a).SameString (Scan.string b) → StringFolds a b
  | cut : ¬(Scan.string a).Flat →
    ['\\', '\r', '\n'] <:+: a ∨ (Scan.string a).value ≠ (Scan.string b).value → StringFolds a b

theorem StringFolds.after {a b a' b' t t' v : List Char} {p p' : List Problem} (h : StringFolds a b)
    (hleft : Scan.string a' = (Scan.string a).after t v p) (hright : Scan.string b' = (Scan.string b).after t' v p')
    (hcodes : p.map (·.code) = p'.map (·.code)) (hflat : ((Scan.string a).after t v p).Flat ↔ (Scan.string a).Flat)
    (hsuffix : a <:+ a') : StringFolds a' b' := by
  cases h with
  | flat hs hsame =>
    refine .flat (hleft ▸ hflat.mpr hs) ?_
    rw [hleft, hright]
    exact ⟨congrArg (v ++ ·) hsame.value, by simp [Scan.after, hcodes, hsame.codes], hsame.rest⟩
  | cut hs hdiffers =>
    refine .cut (fun h => hs (hflat.mp (hleft ▸ h))) ?_
    rw [hleft, hright]
    exact hdiffers.imp (·.trans hsuffix.isInfix) fun hvalue h => hvalue (List.append_cancel_left h)

/-- A bare carriage return in a string is a space of its value on one line. -/
theorem stringFolds_return (a b : List Char) : StringFolds ('\r' :: a) (' ' :: b) := by
  have hleft : Scan.string ('\r' :: a) = (Scan.string a).after ['\r'] ['\r'] [] := Scan.string_cons (by decide) a
  have hright : Scan.string (' ' :: b) = (Scan.string b).after [' '] [' '] [] := Scan.string_cons (by decide) b
  refine .cut (fun h => ?_) (.inr ?_)
  · rw [hleft] at h
    exact absurd h.within (by simp [Scan.after, bareBreak])
  · rw [hleft, hright]
    exact fun h => absurd (List.cons_eq_cons.mp h).1 (by decide)

theorem Joined.of_cons {c : Char} {a b : List Char} (hc : c ≠ '\n' ∧ c ≠ '\r') (h : Joined (c :: a) b) :
    ∃ b', b = c :: b' ∧ Joined a b' := by
  cases h with
  | crlf => exact absurd rfl hc.2
  | lineEnd hd => exact absurd hd (not_or.mpr ⟨hc.2, hc.1⟩)
  | cons _ h => exact ⟨_, rfl, h⟩

theorem stringFolds {a b : List Char} (h : Joined a b) : StringFolds a b := by
  fun_induction Scan.string a generalizing b with
  | case1 =>
    cases h
    exact .flat ⟨rfl, fun _ => rfl⟩ ⟨rfl, rfl, .nil⟩
  | case2 =>
    obtain ⟨_, rfl, hnil⟩ := h.of_cons (by decide)
    cases hnil
    exact .flat ⟨rfl, fun _ => rfl⟩ ⟨rfl, rfl, .nil⟩
  | case3 c rest e he ih =>
    have hc : c ≠ '\n' ∧ c ≠ '\r' := by
      constructor <;> rintro rfl <;> cases he
    obtain ⟨_, rfl, hescaped⟩ := h.of_cons (by decide)
    obtain ⟨b, rfl, hrest⟩ := hescaped.of_cons hc
    exact (ih hrest).after (Scan.string_escape he rest) (Scan.string_escape he b) rfl
      (Scan.flat_escape List.not_mem_nil _) (List.suffix_append ['\\', c] rest)
  | case4 c rest he ih =>
    have hflat : ((Scan.string rest).after ['\\', c] [] [.unknownEscape c]).Flat ↔ (Scan.string rest).Flat :=
      Scan.flat_escape (by simp) _
    have hsuffix : rest <:+ '\\' :: c :: rest := List.suffix_append ['\\', c] rest
    obtain ⟨_, rfl, hescaped⟩ := h.of_cons (by decide)
    cases hescaped with
    | @crlf a b _ =>
      -- The newline behind the backslash and the carriage return cuts the string off.
      refine .cut (fun h => ?_) (.inl (List.prefix_append ['\\', '\r', '\n'] a).isInfix)
      rw [Scan.string_unknown rfl, hflat, Scan.string_newline] at h
      cases h.behind (List.mem_singleton_self _)
    | lineEnd _ hrest =>
      exact (ih hrest).after (Scan.string_unknown he rest) (Scan.string_unknown rfl _) rfl hflat hsuffix
    | cons _ hrest =>
      exact (ih hrest).after (Scan.string_unknown he rest) (Scan.string_unknown he _) rfl hflat hsuffix
  | case5 rest =>
    obtain ⟨b, rfl, hrest⟩ := h.of_cons (by decide)
    refine .flat ?_ ?_
    · rw [Scan.string_quote]
      exact ⟨rfl, fun h => absurd h List.not_mem_nil⟩
    · rw [Scan.string_quote, Scan.string_quote]
      exact ⟨rfl, rfl, hrest⟩
  | case6 rest =>
    cases h with
    | @lineEnd _ _ b _ _ =>
      refine .cut (fun h => ?_) (.inr ?_)
      · rw [Scan.string_newline] at h
        cases h.behind (List.mem_singleton_self _)
      · rw [Scan.string_newline, Scan.string_cons (c := ' ') (by decide)]
        exact (List.cons_ne_nil _ _).symm
    | cons hc => exact absurd rfl hc.1
  | case7 c rest hend hescape hquote hnewline ih =>
    have hslash := Scan.ne_backslash hend hescape
    cases h with
    | crlf => exact stringFolds_return _ _
    | lineEnd hc =>
      obtain rfl := hc.resolve_right hnewline
      exact stringFolds_return _ _
    | cons hc h =>
      have hplain : c ≠ '\\' ∧ c ≠ '"' ∧ c ≠ '\n' := ⟨hslash, hquote, hnewline⟩
      exact (ih h).after (Scan.string_cons hplain rest) (Scan.string_cons hplain _) rfl (Scan.flat_cons ⟨hslash, hc⟩ _)
        (List.suffix_cons c rest)

/-! ### Lexemes -/

/-- The line breaks in a lexeme and behind it can go: nothing is said behind it if it is a comment to the end of its
line, it has no bare line break if it is a string, and no line break cuts it off. -/
structure Lexeme.Folds (l : Lexeme) (after : List Lexeme) : Prop where
  comment : ['/', '/'] <+: l.text → Content.ofLexemes after = ⟨[], []⟩
  string : ∀ s, l.token = some (.string s) → bareBreak l.text.tail = false
  cut : .newlineInString ∈ l.problems → after = []

/-- The line breaks of some lexemes can go. -/
inductive Folds : List Lexeme → Prop where
  | nil : Folds []
  | cons {l ls} : l.Folds ls → Folds ls → Folds (l :: ls)

theorem folds_cons {l : Lexeme} {ls : List Lexeme} : Folds (l :: ls) ↔ l.Folds ls ∧ Folds ls :=
  ⟨fun h => by cases h with | cons hl h => exact ⟨hl, h⟩, fun h => .cons h.1 h.2⟩

theorem Content.ofLexemes_eq_empty {l : Lexeme} {ls : List Lexeme} (h : Content.ofLexemes (l :: ls) = ⟨[], []⟩) :
    l.token = none ∧ l.problems = [] ∧ Content.ofLexemes ls = ⟨[], []⟩ := by
  rw [Content.ofLexemes_cons] at h
  have hkinds := List.append_eq_nil_iff.mp (congrArg Content.kinds h)
  have hproblems := List.append_eq_nil_iff.mp (congrArg Content.problems h)
  exact ⟨Option.toList_eq_nil_iff.mp hkinds.1, hproblems.1, congrArg₂ Content.mk hkinds.2 hproblems.2⟩

/-- Where nothing is said all line breaks can go. -/
theorem folds_of_empty {ls : List Lexeme} (h : Content.ofLexemes ls = ⟨[], []⟩) : Folds ls := by
  induction ls with
  | nil => exact .nil
  | cons l ls ih =>
    obtain ⟨htoken, hproblems, hrest⟩ := Content.ofLexemes_eq_empty h
    refine .cons ⟨fun _ => hrest, fun s hs => ?_, fun hp => ?_⟩ (ih hrest)
    · rw [htoken] at hs
      cases hs
    · rw [hproblems] at hp
      cases hp

namespace Lexeme

theorem line_of_slashes {c : Char} {rest : List Char} (h : ['/', '/'] <+: (next c rest).1.text) :
    c = '/' ∧ rest.head? = some '/' := by
  obtain ⟨more, hmore⟩ := h.trans ⟨_, next_join c rest⟩
  obtain ⟨rfl, rfl⟩ := List.cons_eq_cons.mp hmore
  exact ⟨rfl, rfl⟩

theorem folds_next {c : Char} {rest : List Char} (hline : ¬(c = '/' ∧ rest.head? = some '/')) (hquote : c ≠ '"')
    (after : List Lexeme) : (next c rest).1.Folds after where
  comment h := absurd (line_of_slashes h) hline
  string s h := absurd ((next_kind h).2.2 s rfl) hquote
  cut h := absurd ((next_problems h).2.2 rfl) hquote

end Lexeme

theorem folds_dropBlank (text : List Char) : Folds (Lexeme.all (text.dropWhile isBlank)) ↔ Folds (Lexeme.all text) := by
  cases text with
  | nil => rfl
  | cons c text =>
    by_cases hc : isBlank c = true
    · have hplain : (Lexeme.next c text).1.Folds (Lexeme.all (Lexeme.next c text).2) :=
        Lexeme.folds_next (by rintro ⟨rfl, -⟩; cases hc) (by rintro rfl; cases hc) _
      rw [List.dropWhile_cons_of_pos hc, Lexeme.all_cons, folds_cons, and_iff_right hplain, Lexeme.next_blank hc]
    · rw [List.dropWhile_cons_of_neg hc]

theorem folds_blank {blank : List Char} (h : ∀ c ∈ blank, isBlank c = true) (more : List Char) :
    Folds (Lexeme.all (blank ++ more)) ↔ Folds (Lexeme.all more) := by
  rw [← folds_dropBlank, List.dropWhile_append_of_pos h, folds_dropBlank]

/-- The line breaks behind a comment to the end of its line can go if nothing is said there. -/
theorem folds_line (text : List Char) : Folds (Lexeme.all ('/' :: '/' :: text)) ↔
    content (text.dropWhile (· != '\n')) = ⟨[], []⟩ := by
  rw [Lexeme.all_cons, Lexeme.next_line, folds_cons]
  exact ⟨fun h => h.1.comment (List.prefix_append ['/', '/'] _),
    fun h => ⟨⟨fun _ => h, nofun, nofun⟩, folds_of_empty h⟩⟩

theorem folds_string (text : List Char) : Folds (Lexeme.all ('"' :: text)) ↔
    (Scan.string text).Flat ∧ Folds (Lexeme.all (Scan.string text).rest) := by
  have hnil : Lexeme.all (Scan.string text).rest = [] ↔ (Scan.string text).rest = [] := by
    refine ⟨fun h => ?_, fun h => by rw [h, Lexeme.all_nil]⟩
    have hjoin := Lexeme.flatMap_text_all (Scan.string text).rest
    rwa [h, eq_comm] at hjoin
  rw [Lexeme.all_cons, Lexeme.next_string, folds_cons]
  refine and_congr_left fun _ => ⟨fun h => ⟨h.string _ rfl, fun hp => hnil.mp (h.cut hp)⟩, fun h => ⟨?_, ?_, ?_⟩⟩
  · exact fun hline => absurd (List.cons_prefix_cons.mp hline).1 (by decide)
  · exact fun _ _ => h.within
  · exact fun hp => hnil.mpr (h.behind hp)

/-! ### Words -/

/-- The same tokens, and problems with the same codes. -/
structure Content.Agrees (a b : Content) : Prop where
  kinds : a.kinds = b.kinds
  codes : a.problems.map (·.code) = b.problems.map (·.code)

theorem Content.Agrees.append_iff {a b : Content} (h : a.Agrees b) (c d : Content) :
    (a ++ c).Agrees (b ++ d) ↔ c.Agrees d := by
  have hkinds : (a ++ c).kinds = (b ++ d).kinds ↔ c.kinds = d.kinds := by
    rw [Content.kinds_append, Content.kinds_append, h.kinds, List.append_cancel_left_eq]
  have hcodes : (a ++ c).problems.map (·.code) = (b ++ d).problems.map (·.code) ↔
      c.problems.map (·.code) = d.problems.map (·.code) := by
    simp only [Content.problems_append, List.map_append, h.codes, List.append_cancel_left_eq]
  exact ⟨fun h => ⟨hkinds.mp h.kinds, hcodes.mp h.codes⟩, fun h => ⟨hkinds.mpr h.kinds, hcodes.mpr h.codes⟩⟩

theorem Content.agrees_empty_iff {c : Content} : c.Agrees ⟨[], []⟩ ↔ c = ⟨[], []⟩ := by
  refine ⟨fun h => ?_, fun h => h ▸ ⟨rfl, rfl⟩⟩
  exact congrArg₂ Content.mk h.kinds (List.map_eq_nil_iff.mp h.codes)

/-- A text of which all line breaks can go has the same words on one line. Any other text has other words, unless a
carriage return and a newline stand behind a backslash. -/
structure FoldsTo (a b : List Char) : Prop where
  agrees : Folds (Lexeme.all a) → (content a).Agrees (content b)
  folds : ¬['\\', '\r', '\n'] <:+: a → (content a).Agrees (content b) → Folds (Lexeme.all a)

theorem FoldsTo.after {a b a' b' : List Char} {x y : Content} (h : FoldsTo a b) (hagrees : x.Agrees y)
    (ha : content a' = x ++ content a) (hb : content b' = y ++ content b)
    (hfolds : Folds (Lexeme.all a') ↔ Folds (Lexeme.all a)) (hsuffix : a <:+ a') : FoldsTo a' b' := by
  have hcontent : (content a').Agrees (content b') ↔ (content a).Agrees (content b) := by
    rw [ha, hb, hagrees.append_iff]
  refine ⟨fun hf => hcontent.mpr (h.agrees (hfolds.mp hf)), fun hno hc => hfolds.mpr (h.folds ?_ (hcontent.mp hc))⟩
  exact fun hin => hno (hin.trans hsuffix.isInfix)

section Lexemes

variable {a b : List Char} (h : Joined a b)
include h

/-- On one line a comment to the end of its line takes all that stands behind it. -/
theorem foldsTo_line : FoldsTo ('/' :: '/' :: a) ('/' :: '/' :: b) := by
  have hleft : content ('/' :: '/' :: a) = content (a.dropWhile (· != '\n')) := by
    rw [content_cons, Lexeme.next_line]
    exact Content.empty_append _
  have hagrees : (content ('/' :: '/' :: a)).Agrees (content ('/' :: '/' :: b)) ↔
      Folds (Lexeme.all ('/' :: '/' :: a)) := by
    rw [folds_line, hleft, content_line h.flat, Content.agrees_empty_iff]
  exact ⟨hagrees.mpr, fun _ => hagrees.mp⟩

theorem foldsTo_string (ih : Joined (Scan.string a).rest (Scan.string b).rest →
    FoldsTo (Scan.string a).rest (Scan.string b).rest) : FoldsTo ('"' :: a) ('"' :: b) := by
  have hcontent (text : List Char) : content ('"' :: text) =
      ⟨[.string (String.ofList (Scan.string text).value)], (Scan.string text).problems⟩ ++
        content (Scan.string text).rest := by
    rw [content_cons, Lexeme.next_string, Option.toList_some]
  cases stringFolds h with
  | flat hflat hsame =>
    refine (ih hsame.rest).after ⟨?_, hsame.codes⟩ (hcontent a) (hcontent b) ?_ (Lexeme.next_suffix '"' a)
    · rw [hsame.value]
    · rw [folds_string, and_iff_right hflat]
  | cut hflat hdiffers =>
    refine ⟨fun hf => absurd ((folds_string a).mp hf).1 hflat, fun hno hc => ?_⟩
    have hvalue : (Scan.string a).value ≠ (Scan.string b).value :=
      hdiffers.resolve_left fun hin => hno (hin.trans (List.suffix_cons '"' a).isInfix)
    have hkinds := hc.kinds
    rw [hcontent, hcontent] at hkinds
    have hhead := TokenKind.string.inj (List.cons_eq_cons.mp hkinds).1
    exact absurd (String.ofList_injective hhead) hvalue

theorem foldsTo_next {c : Char} (hblank : isBlank c = false) (hline : ¬(c = '/' ∧ a.head? = some '/'))
    (hquote : c ≠ '"')
    (ih : Joined (Lexeme.next c a).2 (Lexeme.next c b).2 → FoldsTo (Lexeme.next c a).2 (Lexeme.next c b).2) :
    FoldsTo (c :: a) (c :: b) := by
  obtain ⟨htoken, hproblems, hrest⟩ := h.next hblank hline hquote
  refine (ih hrest).after ⟨?_, ?_⟩ (content_cons c a) (content_cons c b) ?_ (Lexeme.next_suffix c a)
  · rw [htoken]
  · rw [hproblems]
  · rw [Lexeme.all_cons, folds_cons, and_iff_right (Lexeme.folds_next hline hquote _)]

end Lexemes

theorem Joined.foldsTo {a b : List Char} (h : Joined a b) : FoldsTo a b := by
  refine h.blanks_induction ?_ ?_ ?_
  · exact ⟨fun _ => ⟨rfl, rfl⟩, fun _ _ => by rw [Lexeme.all_nil]; exact .nil⟩
  · intro u d a b hu hd ih
    exact ih.after (x := ⟨[], []⟩) (y := ⟨[], []⟩) ⟨rfl, rfl⟩ (content_blank hu a) (content_cons_blank hd b)
      (folds_blank hu a) (List.suffix_append u a)
  · intro c a b hblank h ih
    by_cases hline : c = '/' ∧ a.head? = some '/'
    · obtain ⟨rfl, ha⟩ := hline
      obtain ⟨text, rfl⟩ := List.head?_eq_some_iff.mp ha
      obtain ⟨b, rfl, hrest⟩ := h.of_cons (by decide)
      exact foldsTo_line hrest
    by_cases hquote : c = '"'
    · subst hquote
      exact foldsTo_string h (ih (Lexeme.next_rest_lt '"' a))
    exact foldsTo_next h hblank hline hquote (ih (Lexeme.next_rest_lt c a))

/-! ### Texts -/

/-- Two texts with the same tokens and problems with the same codes. -/
structure SameWords (a b : String) : Prop where
  kinds : (tokenize a).tokens.map (·.kind) = (tokenize b).tokens.map (·.kind)
  codes : (tokenize a).diagnostics.map (·.code) = (tokenize b).diagnostics.map (·.code)

theorem kinds_tokenize (source : String) :
    (tokenize source).tokens.map (·.kind) = (content source.toList).kinds ++ [.endOfFile] := by
  obtain ⟨w, last, htokens, hlast, hkinds⟩ := tokenize_tokens source
  rw [htokens, List.map_append, hkinds, List.map_singleton, hlast]

theorem codes_diagnostics (start : Location) (ls : List Lexeme) :
    (Lexeme.diagnostics start ls).map (·.code) = (Content.ofLexemes ls).problems.map (·.code) := by
  induction ls generalizing start with
  | nil => rfl
  | cons l ls ih =>
    rw [Lexeme.diagnostics, Content.ofLexemes_cons, List.map_append, ih, Content.problems_append, List.map_append,
      List.map_map]
    rfl

theorem sameWords_iff {a b : String} : SameWords a b ↔ (content a.toList).Agrees (content b.toList) := by
  have hkinds : (tokenize a).tokens.map (·.kind) = (tokenize b).tokens.map (·.kind) ↔
      (content a.toList).kinds = (content b.toList).kinds := by
    rw [kinds_tokenize, kinds_tokenize, List.append_cancel_right_eq]
  have hcodes (source : String) : (tokenize source).diagnostics.map (·.code) =
      (content source.toList).problems.map (·.code) := codes_diagnostics _ _
  exact ⟨fun h => ⟨hkinds.mp h.kinds, hcodes a ▸ hcodes b ▸ h.codes⟩,
    fun h => ⟨hkinds.mpr h.kinds, (hcodes a).trans (h.codes.trans (hcodes b).symm)⟩⟩

theorem freeIdentifiers_go_of_kinds {ts ts' : List Token} (h : ts.map (·.kind) = ts'.map (·.kind)) (member : Bool) :
    freeIdentifiers.go member ts = freeIdentifiers.go member ts' := by
  induction ts generalizing ts' member with
  | nil => rw [List.map_eq_nil_iff.mp h.symm]
  | cons t ts ih =>
    cases ts' with
    | nil => cases h
    | cons t' ts' =>
      obtain ⟨hkind, hrest⟩ := List.cons_eq_cons.mp h
      simp only [freeIdentifiers.go, hkind, ih hrest]

/-- The free identifiers of a text are those of its words. -/
theorem SameWords.freeIdentifiers_eq {a b : String} (h : SameWords a b) : freeIdentifiers a = freeIdentifiers b :=
  freeIdentifiers_go_of_kinds h.kinds false

/-- A text has the same words on one line, and so the same free identifiers, if no line break ends a comment with more
words behind it, stands bare in a string or cuts one off. If one does, the text has other words on one line, but for a
string in which a carriage return and a newline stand behind a backslash. -/
theorem sameWords_oneLine (text : String) :
    (Folds (Lexeme.all text.toList) →
      SameWords text (oneLine text) ∧ freeIdentifiers text = freeIdentifiers (oneLine text)) ∧
      (¬['\\', '\r', '\n'] <:+: text.toList → SameWords text (oneLine text) → Folds (Lexeme.all text.toList)) := by
  have hfolds : FoldsTo text.toList (oneLine text).toList := by
    rw [oneLine, String.toList_ofList]
    exact (joined_collapse text.toList).foldsTo
  rw [sameWords_iff]
  exact ⟨fun h => ⟨hfolds.agrees h, (sameWords_iff.mpr (hfolds.agrees h)).freeIdentifiers_eq⟩, hfolds.folds⟩

/-- Line breaks between operators, in a closed comment, behind a backslash in a string and behind the last comment. -/
theorem sameWords_oneLine_between :
    let text := "a +\r\n/* one\ntwo */ b +\r\"\\\n\" // end\n"
    Folds (Lexeme.all text.toList) ∧ freeIdentifiers text = freeIdentifiers (oneLine text) := by
  intro text
  have hsame : SameWords text (oneLine text) := ⟨by decide +kernel, by decide +kernel⟩
  have hfolds := (sameWords_oneLine text).2 (by decide +kernel) hsame
  exact ⟨hfolds, ((sameWords_oneLine text).1 hfolds).2⟩

/-- On one line a comment takes the rest of the text, and with it a name. -/
theorem oneLine_swallowed :
    let text := "1 // one\n+ x"
    ¬SameWords text (oneLine text) ∧ freeIdentifiers text = ["x"] ∧ freeIdentifiers (oneLine text) = [] :=
  ⟨fun h => absurd h.kinds (by decide +kernel), by decide +kernel, by decide +kernel⟩

end FlowCheck.Flow

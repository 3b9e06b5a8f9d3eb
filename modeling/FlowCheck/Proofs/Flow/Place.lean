import FlowCheck.Proofs.Flow.Seam

/-! Where the tokens and the problems of some lexemes stand. What stands behind the lexemes matters for none of
    them, and without a line break in their texts all of them are on one line. -/

namespace FlowCheck

namespace Location

theorem advance_append (loc : Location) (a b : List Char) : loc.advance (a ++ b) = (loc.advance a).advance b :=
  List.foldl_append

theorem advance_flat (loc : Location) {text : List Char} (h : '\n' ∉ text) :
    loc.advance text = ⟨loc.line, loc.column + text.length⟩ := by
  induction text generalizing loc with
  | nil => rfl
  | cons c text ih =>
    have hc : c ≠ '\n' := fun e => h (e ▸ .head _)
    have hnext : loc.advance (c :: text) = (loc.next c).advance text := rfl
    rw [hnext, ih _ fun hm => h (.tail _ hm), next, if_neg hc, List.length_cons]
    simp only [Nat.add_assoc, Nat.add_comm 1]

theorem advance_newline (loc : Location) {text : List Char} (h : '\n' ∉ text) :
    loc.advance ('\n' :: text) = ⟨loc.line + 1, text.length⟩ := by
  have hnext : loc.advance ('\n' :: text) = (⟨loc.line + 1, 0⟩ : Location).advance text := rfl
  rw [hnext, advance_flat _ h, Nat.zero_add]

theorem le_refl (loc : Location) : loc.le loc = true := by
  simp [le]

theorem le_trans {a b c : Location} (hab : a.le b = true) (hbc : b.le c = true) : a.le c = true := by
  simp only [le, Bool.or_eq_true, Bool.and_eq_true, decide_eq_true_eq, beq_iff_eq] at *
  omega

theorem le_advance (loc : Location) (text : List Char) : loc.le (loc.advance text) = true := by
  induction text generalizing loc with
  | nil => exact loc.le_refl
  | cons c text ih =>
    refine le_trans ?_ (ih (loc.next c))
    unfold next
    split <;> simp [le]

/-- Only no text ends at or before the place where it starts. -/
theorem advance_le_self {loc : Location} {text : List Char} (h : (loc.advance text).le loc = true) : text = [] := by
  cases text with
  | nil => rfl
  | cons c text =>
    have hnext : (loc.next c).le loc = true := le_trans ((loc.next c).le_advance text) h
    unfold next at hnext
    split at hnext
    all_goals
      simp only [le, Bool.or_eq_true, Bool.and_eq_true, decide_eq_true_eq, beq_iff_eq] at hnext
      omega

end Location

namespace Flow.Lexeme

/-- The tokens of some lexemes, without the end of the file. -/
def placed (start : Location) (last : Option Location) : List Lexeme → List Token
  | [] => []
  | l :: ls =>
    let stop := start.advance l.text
    match l.token with
    | none => placed stop last ls
    | some kind => ⟨kind, start, stop, anchor last start⟩ :: placed stop (some stop) ls

/-- Where the last token of some lexemes ends, or else the token before them. -/
def lastStop (start : Location) (last : Option Location) : List Lexeme → Option Location
  | [] => last
  | l :: ls =>
    let stop := start.advance l.text
    match l.token with
    | none => lastStop stop last ls
    | some _ => lastStop stop (some stop) ls

/-- The characters of some lexemes. -/
def width (ls : List Lexeme) : List Char := ls.flatMap Lexeme.text

variable (start : Location) (last : Option Location)

theorem tokens_append (ls more : List Lexeme) : tokens start last (ls ++ more) =
    placed start last ls ++ tokens (start.advance (width ls)) (lastStop start last ls) more := by
  induction ls generalizing start last with
  | nil => rfl
  | cons l ls ih =>
    have hwidth : start.advance (width (l :: ls)) = (start.advance l.text).advance (width ls) :=
      Location.advance_append _ _ _
    simp only [List.cons_append, tokens, placed, lastStop, hwidth]
    cases l.token <;> simp only [ih, List.cons_append]

theorem placed_append (ls more : List Lexeme) : placed start last (ls ++ more) =
    placed start last ls ++ placed (start.advance (width ls)) (lastStop start last ls) more := by
  induction ls generalizing start last with
  | nil => rfl
  | cons l ls ih =>
    have hwidth : start.advance (width (l :: ls)) = (start.advance l.text).advance (width ls) :=
      Location.advance_append _ _ _
    simp only [List.cons_append, placed, lastStop, hwidth]
    cases l.token <;> simp only [ih, List.cons_append]

theorem tokens_eq (ls : List Lexeme) : ∃ loc, tokens start last ls =
    placed start last ls ++ [⟨.endOfFile, start.advance (width ls), start.advance (width ls), loc⟩] := by
  have h := tokens_append start last ls []
  rw [List.append_nil] at h
  exact ⟨_, h⟩

theorem diagnostics_append (ls more : List Lexeme) :
    diagnostics start (ls ++ more) = diagnostics start ls ++ diagnostics (start.advance (width ls)) more := by
  induction ls generalizing start with
  | nil => rfl
  | cons l ls ih =>
    have hwidth : start.advance (width (l :: ls)) = (start.advance l.text).advance (width ls) :=
      Location.advance_append _ _ _
    simp only [List.cons_append, diagnostics, ih, hwidth, List.append_assoc]

/-- Lexemes without a token leave the last token as it was. -/
theorem placed_silent (ls : List Lexeme) {l : Lexeme} (h : l.token = none) :
    placed start last (ls ++ [l]) = placed start last ls ∧
      lastStop start last (ls ++ [l]) = lastStop start last ls := by
  induction ls generalizing start last with
  | nil => simp only [List.nil_append, placed, lastStop, h, and_self]
  | cons a ls ih =>
    simp only [List.cons_append, placed, lastStop]
    cases a.token <;> simp only [ih, and_self]

theorem lastStop_some (loc : Location) (ls : List Lexeme) : ∃ stop, lastStop start (some loc) ls = some stop := by
  induction ls generalizing start loc with
  | nil => exact ⟨loc, rfl⟩
  | cons l ls ih =>
    simp only [lastStop]
    cases l.token <;> exact ih _ _

variable {start last}

/-- The tokens stand in the text of the lexemes. -/
theorem placed_within {start : Location} {last : Option Location} {ls : List Lexeme} {t : Token}
    (ht : t ∈ placed start last ls) :
    start.le t.start = true ∧ t.start.le t.stop = true ∧ t.stop.le (start.advance (width ls)) = true := by
  induction ls generalizing start last with
  | nil => cases ht
  | cons l ls ih =>
    have hnext := start.le_advance l.text
    have hwidth : start.advance (width (l :: ls)) = (start.advance l.text).advance (width ls) :=
      Location.advance_append _ _ _
    have behind {last : Option Location} (ht : t ∈ placed (start.advance l.text) last ls) : start.le t.start = true ∧
        t.start.le t.stop = true ∧ t.stop.le (start.advance (width (l :: ls))) = true := by
      obtain ⟨hstart, hstop, hend⟩ := ih ht
      exact ⟨Location.le_trans hnext hstart, hstop, hwidth ▸ hend⟩
    simp only [placed] at ht
    cases hl : l.token with
    | none =>
      rw [hl] at ht
      exact behind ht
    | some kind =>
      rw [hl] at ht
      rcases List.mem_cons.mp ht with rfl | ht
      · exact ⟨start.le_refl, hnext, hwidth ▸ Location.le_advance _ _⟩
      · exact behind ht

/-- Each token stops before the tokens behind it start. -/
theorem placed_apart (start : Location) (last : Option Location) (ls : List Lexeme) :
    (placed start last ls).Pairwise fun t u => t.stop.le u.start = true := by
  induction ls generalizing start last with
  | nil => exact .nil
  | cons l ls ih =>
    simp only [placed]
    cases l.token with
    | none => exact ih _ _
    | some kind => exact .cons (fun t ht => (placed_within ht).1) (ih _ _)

/-- Without a line break all tokens are on the line where the lexemes start. -/
theorem placed_line (start : Location) (last : Option Location) {ls : List Lexeme} (hflat : '\n' ∉ width ls)
    (hlast : ∀ loc ∈ last, loc.line = start.line) :
    (∀ t ∈ placed start last ls, t.start.line = start.line ∧ t.anchor.line = start.line) ∧
      ∀ loc ∈ lastStop start last ls, loc.line = start.line := by
  induction ls generalizing start last with
  | nil => exact ⟨nofun, hlast⟩
  | cons l ls ih =>
    have htext : '\n' ∉ l.text := fun h => hflat (List.mem_append_left _ h)
    have hstop : (start.advance l.text).line = start.line := by rw [Location.advance_flat _ htext]
    have hrest : '\n' ∉ width ls := fun h => hflat (List.mem_append_right _ h)
    simp only [placed, lastStop]
    cases l.token with
    | none => simpa only [hstop] using ih (start.advance l.text) last hrest (by simpa only [hstop] using hlast)
    | some kind =>
      have hanchor : (anchor last start).line = start.line := by
        unfold anchor
        split
        · split
          · exact hlast _ rfl
          · rfl
        · rfl
      obtain ⟨htokens, hend⟩ := ih (start.advance l.text) (some (start.advance l.text)) hrest
        (by simp)
      rw [hstop] at htokens hend
      refine ⟨fun t ht => ?_, hend⟩
      rcases List.mem_cons.mp ht with rfl | ht
      · exact ⟨rfl, hanchor⟩
      · exact htokens t ht

/-- Without a line break all problems are on the line where the lexemes start. -/
theorem diagnostics_line (start : Location) {ls : List Lexeme} (hflat : '\n' ∉ width ls) {d : Diagnostic}
    (hd : d ∈ diagnostics start ls) : ∃ (p : Problem) (loc : Location), loc.line = start.line ∧ d = p.located loc := by
  induction ls generalizing start with
  | nil => cases hd
  | cons l ls ih =>
    have htext : '\n' ∉ l.text := fun h => hflat (List.mem_append_left _ h)
    have hstop : (start.advance l.text).line = start.line := by rw [Location.advance_flat _ htext]
    rcases List.mem_append.mp hd with hd | hd
    · obtain ⟨p, -, rfl⟩ := List.mem_map.mp hd
      exact ⟨p, start, rfl, rfl⟩
    · rw [← hstop]
      exact ih _ (fun h => hflat (List.mem_append_right _ h)) hd

theorem width_all (text : List Char) : width (all text) = text := flatMap_text_all text

end Flow.Lexeme

/-! ### Kinds -/

namespace Flow

open FlowCheck.Text

/-- The text is one identifier. -/
structure Named (name : String) : Prop where
  start : ∃ c rest, name.toList = c :: rest ∧ isBlank c = false ∧ c ≠ '/' ∧ c ≠ '"' ∧ isDigit c = false ∧
    startsName c = true ∧ ∀ d ∈ rest, continuesName d = true
  word : keyword? name = none

namespace Lexeme

theorem kind_int {digits : List Char} {kind : TokenKind} (h : (int digits).token = some kind) :
    ∃ value, kind = .int value := by
  unfold int at h
  split at h <;> exact ⟨_, (Option.some.inj h).symm⟩

theorem kind_single {c : Char} {kind : TokenKind} (h : (single c).token = some kind) : ∃ s, kind = .symbol s := by
  unfold single at h
  split at h
  · exact ⟨_, (Option.some.inj h).symm⟩
  · cases h

theorem kind_sign {c : Char} {rest : List Char} {kind : TokenKind} (h : (sign c rest).1.token = some kind) :
    ∃ s, kind = .symbol s := by
  unfold sign at h
  split at h
  · exact kind_single h
  · split at h
    · exact ⟨_, (Option.some.inj h).symm⟩
    · exact kind_single h

/-- No lexeme is the end of the file. One that is an identifier is a name, and one that is a string starts with a
quote. -/
theorem next_kind {c : Char} {rest : List Char} {kind : TokenKind} (h : (next c rest).1.token = some kind) :
    kind ≠ .endOfFile ∧ (∀ name, kind = .identifier name → Named name) ∧ ∀ s, kind = .string s → c = '"' := by
  have other : (∃ value, kind = .int value) ∨ (∃ s, kind = .symbol s) →
      kind ≠ .endOfFile ∧ (∀ name, kind = .identifier name → Named name) ∧ ∀ s, kind = .string s → c = '"' := by
    rintro (⟨value, rfl⟩ | ⟨s, rfl⟩) <;> exact ⟨nofun, nofun, nofun⟩
  unfold next at h
  split at h
  · cases h
  rename_i hblank
  split at h
  · cases h
  split at h
  · cases h
  split at h
  · rename_i hquote
    rw [← Option.some.inj h]
    exact ⟨nofun, nofun, fun _ _ => hquote⟩
  rename_i hquote
  split at h
  · unfold number at h
    split at h
    · split at h
      · rw [← Option.some.inj h]
        exact ⟨nofun, nofun, nofun⟩
      · exact other (.inl (kind_int h))
    · exact other (.inl (kind_int h))
  rename_i hdigit
  split at h
  · rename_i hstart
    rw [← Option.some.inj h, wordToken]
    split
    · exact ⟨nofun, nofun, nofun⟩
    · rename_i hword
      refine ⟨nofun, fun name hname => ?_, nofun⟩
      obtain rfl := TokenKind.identifier.inj hname
      refine ⟨⟨c, rest.takeWhile continuesName, String.toList_ofList, by simpa using hblank, ?_, hquote,
        by simpa using hdigit, hstart, fun d hd => List.mem_takeWhile_imp hd⟩, hword⟩
      rintro rfl
      exact absurd hstart (by decide)
  · exact other (.inr (kind_sign h))

theorem all_kind {text : List Char} {l : Lexeme} (hl : l ∈ all text) {kind : TokenKind} (h : l.token = some kind) :
    kind ≠ .endOfFile ∧ ∀ name, kind = .identifier name → Named name := by
  fun_induction all text with
  | case1 => cases hl
  | case2 c rest ih =>
    rcases List.mem_cons.mp hl with rfl | hl
    · exact ⟨(next_kind h).1, (next_kind h).2.1⟩
    · exact ih hl

theorem placed_kind (start : Location) (last : Option Location) (ls : List Lexeme) :
    (placed start last ls).map (·.kind) = ls.filterMap (·.token) := by
  induction ls generalizing start last with
  | nil => rfl
  | cons l ls ih =>
    simp only [placed, List.filterMap_cons]
    cases l.token <;> simp only [List.map_cons, ih]

/-- Among the tokens of a text the end of the file is not. -/
theorem placed_all (start : Location) (last : Option Location) (text : List Char) :
    ∀ t ∈ placed start last (all text), t.kind ≠ .endOfFile := by
  intro t ht
  have hkind : t.kind ∈ (all text).filterMap (·.token) := placed_kind start last _ ▸ List.mem_map_of_mem ht
  obtain ⟨l, hl, h⟩ := List.mem_filterMap.mp hkind
  exact (all_kind hl h).1

end Lexeme

end Flow

end FlowCheck

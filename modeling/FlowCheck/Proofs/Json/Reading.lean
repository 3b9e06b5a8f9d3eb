import FlowCheck.Json.Reader
import FlowCheck.Json.Writer
import FlowCheck.Proofs.Text

/-! What is written in JSON is read again. A value is readable if, wherever a value may come, the machine goes over its
    text and has the value; arrays and records of readable values are readable. -/

namespace FlowCheck.Json

open FlowCheck.Text (isDigit)

/-! ### Strings -/

theorem hexValue?_hexDigit {n : Nat} (h : n < 16) : hexValue? (hexDigit n) = some n := by
  revert n
  decide

theorem hexQuad?_low {n : Nat} (h : n < 32) : hexQuad? '0' '0' (hexDigit (n / 16)) (hexDigit (n % 16)) = some n := by
  have hhigh := hexValue?_hexDigit (show n / 16 < 16 by omega)
  have hlow := hexValue?_hexDigit (show n % 16 < 16 by omega)
  have hzero : hexValue? '0' = some 0 := rfl
  simp only [hexQuad?, hhigh, hlow, hzero, Option.some.injEq]
  omega

theorem textOf?_unit {n : Nat} (h : n < 32) (ps : List Piece) :
    textOf? (.unit n :: ps) = (textOf? ps).map (Char.ofNat n :: ·) := by
  have hhigh : isHighSurrogate n = false := by simp [isHighSurrogate]; omega
  have hlow : isLowSurrogate n = false := by simp [isLowSurrogate]; omega
  cases ps with
  | nil => simp [textOf?, hhigh, hlow]
  | cons p ps => cases p <;> simp [textOf?, hhigh, hlow]

theorem scanString?_escape {e c : Char} (h : escaped? e = some c) (rest : List Char) :
    scanString? ('\\' :: e :: rest) = (scanString? rest).map fun r => (.char c :: r.1, r.2) := by
  rw [scanString?]
  · rw [h]
    cases scanString? rest <;> rfl
  · rintro _ _ _ _ _ rfl -
    cases h

theorem scanString?_plain {c : Char} (hquote : c ≠ '"') (hslash : c ≠ '\\') (h : ¬c.toNat < 32) (rest : List Char) :
    scanString? (c :: rest) = (scanString? rest).map fun r => (.char c :: r.1, r.2) := by
  rw [scanString?]
  · rw [if_neg hquote, if_neg (not_or.mpr ⟨hslash, h⟩)]
    cases scanString? rest <;> rfl
  · rintro _ _ _ _ _ e -
    exact hslash e
  · rintro _ _ e -
    exact hslash e

theorem scanString?_control {c : Char} (h : c.toNat < 32) (rest : List Char) :
    scanString? ('\\' :: 'u' :: '0' :: '0' :: hexDigit (c.toNat / 16) :: hexDigit (c.toNat % 16) :: rest) =
      (scanString? rest).map fun r => (.unit c.toNat :: r.1, r.2) := by
  rw [scanString?, hexQuad?_low h]
  cases scanString? rest <;> rfl

/-- A character is read as one piece that stands for it. -/
theorem scanString?_writeChar (c : Char) : ∃ p, (∀ ps, textOf? (p :: ps) = (textOf? ps).map (c :: ·)) ∧
    ∀ rest, scanString? (writeChar c ++ rest) = (scanString? rest).map fun r => (p :: r.1, r.2) := by
  have hchar : ∀ ps, textOf? (.char c :: ps) = (textOf? ps).map (c :: ·) := fun _ => rfl
  have hescape (e : Char) {d : Char} (hd : c = d) (h : escaped? e = some d) :=
    And.intro hchar (scanString?_escape (hd ▸ h : escaped? e = some c))
  unfold writeChar
  split_ifs with hquote hslash hback hform hline hreturn htab hcontrol
  · exact ⟨_, hescape '"' hquote rfl⟩
  · exact ⟨_, hescape '\\' hslash rfl⟩
  · exact ⟨_, hescape 'b' hback rfl⟩
  · exact ⟨_, hescape 'f' hform rfl⟩
  · exact ⟨_, hescape 'n' hline rfl⟩
  · exact ⟨_, hescape 'r' hreturn rfl⟩
  · exact ⟨_, hescape 't' htab rfl⟩
  · refine ⟨.unit c.toNat, fun ps => ?_, scanString?_control hcontrol⟩
    rw [textOf?_unit hcontrol, Char.ofNat_toNat]
  · exact ⟨_, hchar, scanString?_plain hquote hslash hcontrol⟩

theorem scanString?_text (text rest : List Char) : ∃ ps, textOf? ps = some text ∧
    scanString? (text.flatMap writeChar ++ '"' :: rest) = some (ps, rest) := by
  induction text with
  | nil => exact ⟨[], rfl, by simp [scanString?]⟩
  | cons c text ih =>
    obtain ⟨p, htext, hscan⟩ := scanString?_writeChar c
    obtain ⟨ps, hps, hrest⟩ := ih
    refine ⟨p :: ps, by rw [htext, hps]; rfl, ?_⟩
    rw [List.flatMap_cons, List.append_assoc, hscan, hrest]
    rfl

/-! ### Numbers -/

/-- The text does not go on with a number. -/
def EndsNumber (rest : List Char) : Prop := ∀ c ∈ rest.head?, isDigit c = false ∧ c ≠ '.' ∧ c ≠ 'e' ∧ c ≠ 'E'

theorem EndsNumber.cons {c : Char} (h : c = ',' ∨ c = ']' ∨ c = '}') (rest : List Char) : EndsNumber (c :: rest) := by
  rintro d hd
  obtain rfl := Option.some.inj hd
  rcases h with rfl | rfl | rfl <;> decide

theorem EndsNumber.scanFraction? {rest : List Char} (h : EndsNumber rest) : scanFraction? rest = some ([], rest) := by
  unfold Json.scanFraction?
  split
  · exact absurd rfl (h '.' rfl).2.1
  · rfl

theorem EndsNumber.scanExponent? {rest : List Char} (h : EndsNumber rest) : scanExponent? rest = some ([], rest) := by
  cases rest with
  | nil => rfl
  | cons d rest =>
    obtain ⟨-, -, he, hE⟩ := h d rfl
    simp only [Json.scanExponent?, if_neg (not_or.mpr ⟨he, hE⟩)]

theorem scanDigits?_digits (n : Nat) {rest : List Char} (h : EndsNumber rest) :
    scanDigits? (Text.Numeral.digits n ++ rest) = some (Text.Numeral.digits n, rest) := by
  have hdigit : ∀ c ∈ Text.Numeral.digits n, isDigit c = true := fun c hc => Text.Numeral.isDigit_of_mem hc
  obtain ⟨htake, hdrop⟩ : rest.takeWhile isDigit = [] ∧ rest.dropWhile isDigit = rest := by
    cases rest with
    | nil => exact ⟨rfl, rfl⟩
    | cons d rest => simp [(h d rfl).1]
  rw [scanDigits?, List.takeWhile_append_of_pos hdigit, List.dropWhile_append_of_pos hdigit, htake, hdrop,
    List.append_nil]
  split
  · rename_i e
    exact absurd e (Text.Numeral.digits_ne_nil n)
  · rfl

theorem scanWhole?_digits (n : Nat) {rest : List Char} (h : EndsNumber rest) :
    scanWhole? (Text.Numeral.digits n ++ rest) = some (Text.Numeral.digits n, rest) := by
  obtain ⟨c, ds, hds⟩ := List.exists_cons_of_ne_nil (Text.Numeral.digits_ne_nil n)
  by_cases hc : c = '0'
  · obtain rfl := Text.Numeral.digits_zero (hc ▸ hds)
    rw [hds, hc]
    rfl
  · rw [← scanDigits?_digits n h, hds, List.cons_append, scanWhole?]
    intro _ e
    exact hc (List.cons.inj e).1

theorem scanNumber?_digits (n : Nat) {rest : List Char} (h : EndsNumber rest) :
    scanNumber? (Text.Numeral.digits n ++ rest) = some (Text.Numeral.digits n, rest) := by
  have hunsigned : scanUnsigned? (Text.Numeral.digits n ++ rest) = some (Text.Numeral.digits n, rest) := by
    simp [scanUnsigned?, scanWhole?_digits n h, h.scanFraction?, h.scanExponent?]
  obtain ⟨c, ds, hds⟩ := List.exists_cons_of_ne_nil (Text.Numeral.digits_ne_nil n)
  have hc : isDigit c = true := Text.Numeral.isDigit_of_eq_cons hds
  rw [hds, List.cons_append] at hunsigned ⊢
  rw [scanNumber?, hunsigned]
  rintro _ e
  obtain ⟨rfl, -⟩ := List.cons.inj e
  cases hc

/-! ### Tokens -/

theorem token?_text (s : String) (rest : List Char) :
    token? '"' (s.toList.flatMap writeChar ++ '"' :: rest) = some (.string (some s), rest) := by
  obtain ⟨ps, htext, hscan⟩ := scanString?_text s.toList rest
  rw [token?, if_pos rfl, hscan, Option.map_some, htext, Option.map_some, String.ofList_toList]

theorem token?_digits {n : Nat} {c : Char} {ds rest : List Char} (hds : Text.Numeral.digits n = c :: ds)
    (h : EndsNumber rest) : token? c (ds ++ rest) = some (.number (c :: ds), rest) := by
  have hc : isDigit c = true := Text.Numeral.isDigit_of_eq_cons hds
  have hsign : sign? c = none := by
    unfold sign?
    split
    case h_7 => rfl
    all_goals cases hc
  have hscan := scanNumber?_digits n h
  rw [hds, List.cons_append] at hscan
  rw [token?, if_neg, hsign]
  · simp [hc, hscan]
  · rintro rfl
    cases hc

/-! ### Values -/

namespace State

/-- A value may come next, perhaps also the end of an array. -/
def Awaits (s : State) (stack : List Frame) : Prop := ∀ t, t ≠ .rightBracket → s.step? t = begin? stack t

theorem awaits_value (stack : List Frame) : (value stack).Awaits stack := fun _ _ => rfl

theorem awaits_arrayStart (stack : List Frame) : (arrayStart stack).Awaits (.array [] :: stack) :=
  fun _ ht => if_neg ht

theorem run?_token {s next : State} {c : Char} {rest left : List Char} {t : Token} (hc : isBlank c = false)
    (ht : token? c rest = some (t, left)) (hs : s.step? t = some next) : s.run? (c :: rest) = next.run? left := by
  rw [run?, if_neg (by rw [hc]; exact Bool.false_ne_true)]
  split
  · rename_i e
    cases ht.symm.trans e
  · rename_i e
    obtain ⟨rfl, rfl⟩ := Prod.mk.inj (Option.some.inj (ht.symm.trans e))
    rw [hs]

end State

/-- Wherever a value may come, the machine goes over the text of this one and has it. -/
def Readable (v : Value) : Prop :=
  ∀ (s : State) (stack : List Frame), s.Awaits stack → ∀ rest, EndsNumber rest →
    s.run? (write v ++ rest) = (State.after v stack).run? rest

theorem readable_null : Readable .null := fun _ _ hs _ _ => State.run?_token rfl rfl (hs _ nofun)

theorem readable_text (text : String) : Readable (.text text) := by
  intro s stack hs rest _
  have happend : write (.text text) ++ rest = '"' :: (text.toList.flatMap writeChar ++ '"' :: rest) := by
    simp [Value.text, write, writeString]
  rw [happend, State.run?_token rfl (token?_text text rest) (hs _ nofun)]
  rfl

theorem readable_nat (n : Nat) : Readable (.nat n) := by
  intro s stack hs rest hrest
  obtain ⟨c, ds, hds⟩ : ∃ c ds, Text.Numeral.digits n = c :: ds :=
    List.exists_cons_of_ne_nil (Text.Numeral.digits_ne_nil n)
  have hblank : isBlank c = false := by
    have hc : isDigit c = true := Text.Numeral.isDigit_of_eq_cons hds
    simp only [isBlank, Bool.or_eq_false_iff, beq_eq_false_iff_ne]
    refine ⟨⟨⟨?_, ?_⟩, ?_⟩, ?_⟩ <;> rintro rfl <;> cases hc
  rw [Value.nat, write, hds, List.cons_append, State.run?_token hblank (token?_digits hds hrest) (hs _ nofun)]

/-- The machine goes over elements up to the end of their array. -/
theorem State.run?_elements {vs : List Value} (h : ∀ v ∈ vs, Readable v) (hne : vs ≠ []) {s : State}
    {met : List Value} {stack : List Frame} (hs : s.Awaits (.array met :: stack)) (rest : List Char) :
    s.run? (writeElements vs ++ ']' :: rest) = (State.after (.array (met.reverse ++ vs)) stack).run? rest := by
  induction vs generalizing s met with
  | nil => exact absurd rfl hne
  | cons v vs ih =>
    obtain ⟨hv, hvs⟩ := List.forall_mem_cons.mp h
    cases vs with
    | nil =>
      rw [writeElements, hv s _ hs _ (.cons (.inr (.inl rfl)) rest), State.run?_token rfl rfl rfl,
        List.reverse_cons]
    | cons w vs =>
      rw [writeElements, List.append_assoc, List.cons_append, hv s _ hs _ (.cons (.inl rfl) _),
        State.run?_token rfl rfl rfl, ih hvs nofun (State.awaits_value _), List.reverse_cons, List.append_assoc]
      · rfl
      · nofun

theorem readable_array {vs : List Value} (h : ∀ v ∈ vs, Readable v) : Readable (.array vs) := by
  intro s stack hs rest _
  have happend : write (.array vs) ++ rest = '[' :: (writeElements vs ++ ']' :: rest) := by simp [write]
  rw [happend, State.run?_token rfl rfl (hs _ (by decide))]
  cases vs with
  | nil => exact State.run?_token rfl rfl rfl
  | cons v vs => exact State.run?_elements h nofun (State.awaits_arrayStart stack) rest

/-- The machine goes over members up to the end of their object. -/
theorem State.run?_members {ms : List (String × Value)} (h : ∀ m ∈ ms, Readable m.2) (hne : ms ≠ []) {s : State}
    {met : Members} {stack : List Frame} (hs : ∀ key, s.step? (.string key) = some (.colon met key stack))
    (rest : List Char) :
    s.run? (writeMembers (ms.map fun m => (some m.1, m.2)) ++ '}' :: rest) =
      (State.after (.object (met.reverse ++ ms.map fun m => (some m.1, m.2))) stack).run? rest := by
  induction ms generalizing s met with
  | nil => exact absurd rfl hne
  | cons m ms ih =>
    obtain ⟨hm, hms⟩ := List.forall_mem_cons.mp h
    have hkey (rest : List Char) : s.run? (writeString (some m.1) ++ ':' :: rest) =
        (State.value (.object met (some m.1) :: stack)).run? rest := by
      have happend : writeString (some m.1) ++ ':' :: rest =
          '"' :: (m.1.toList.flatMap writeChar ++ '"' :: ':' :: rest) := by simp [writeString]
      rw [happend, State.run?_token rfl (token?_text m.1 _) (hs _), State.run?_token rfl rfl rfl]
    cases ms with
    | nil =>
      rw [List.map_singleton, writeMembers, List.append_assoc, List.cons_append, hkey,
        hm _ _ (State.awaits_value _) _ (.cons (.inr (.inr rfl)) rest), State.run?_token rfl rfl rfl,
        List.reverse_cons]
    | cons n ms =>
      rw [List.map_cons, writeMembers, List.append_assoc, List.cons_append, List.append_assoc,
        List.cons_append, hkey, hm _ _ (State.awaits_value _) _ (.cons (.inl rfl) _),
        State.run?_token rfl rfl rfl, ih hms nofun fun _ => rfl, List.reverse_cons, List.append_assoc]
      · rfl
      · nofun

theorem readable_record {ms : List (String × Value)} (h : ∀ m ∈ ms, Readable m.2) : Readable (.record ms) := by
  intro s stack hs rest _
  have happend : write (.record ms) ++ rest =
      '{' :: (writeMembers (ms.map fun m => (some m.1, m.2)) ++ '}' :: rest) := by simp [Value.record, write]
  rw [happend, State.run?_token rfl rfl (hs _ (by decide))]
  cases ms with
  | nil => exact State.run?_token rfl rfl rfl
  | cons m ms => exact State.run?_members h nofun (s := .objectStart stack) (fun _ => rfl) rest

theorem read?_render {v : Value} (h : Readable v) : read? v.render = some v := by
  have hrun := h (.value []) [] (State.awaits_value _) [] nofun
  rw [List.append_nil, State.run?] at hrun
  rw [read?, Value.render, String.toList_ofList, hrun]

end FlowCheck.Json

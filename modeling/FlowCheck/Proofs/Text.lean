import Mathlib.Data.List.TakeWhile
import FlowCheck.Marker
import FlowCheck.Text.Line

/-! Texts that are written and read back: cuts at the first and at the last separator, percent escapes,
    decimals, and lines. -/

namespace FlowCheck.Text

/-! ### Cuts -/

theorem cutFirst?_front (pattern back : List Char) : cutFirst? pattern (pattern ++ back) = some ([], back) := by
  have hfront : pattern.isPrefixOf (pattern ++ back) = true := List.isPrefixOf_iff_prefix.mpr ⟨back, rfl⟩
  rw [cutFirst?.eq_def]
  simp [hfront]

/-- A pattern that starts at no earlier place is cut out where it stands. -/
theorem cutFirst?_of_first {pattern front back : List Char}
    (h : ∀ late, late <:+ front → late ≠ [] → ¬pattern <+: late ++ (pattern ++ back)) :
    cutFirst? pattern (front ++ (pattern ++ back)) = some (front, back) := by
  induction front with
  | nil => exact cutFirst?_front pattern back
  | cons d front ih =>
    have hfront : ¬pattern.isPrefixOf (d :: (front ++ (pattern ++ back))) = true := fun hp =>
      h (d :: front) (List.suffix_refl _) (List.cons_ne_nil d front) (List.isPrefixOf_iff_prefix.mp hp)
    rw [List.cons_append, cutFirst?, if_neg hfront, ih fun late hlate => h late (hlate.trans (List.suffix_cons d front))]
    rfl

/-- The first occurrence of a pattern with a character that stands nowhere before it. -/
theorem cutFirst?_of_foreign {p : Char → Bool} {pattern front : List Char} (hfront : ∀ c ∈ front, p c = true)
    (hpattern : ∃ c ∈ pattern, p c = false) (back : List Char) :
    cutFirst? pattern (front ++ (pattern ++ back)) = some (front, back) := by
  refine cutFirst?_of_first fun late hlate hne hearly => hne ?_
  obtain ⟨rest, hrest⟩ := hearly
  obtain ⟨c, hc, hforeign⟩ := hpattern
  have hshort : (pattern.takeWhile p).length ≠ pattern.length := by
    intro hlength
    have hall := List.takeWhile_eq_self_iff.mp ((List.takeWhile_prefix p).eq_of_length hlength) c hc
    exact Bool.false_ne_true (hforeign.symm.trans hall)
  have hcut : ∀ more, (pattern ++ more).takeWhile p = pattern.takeWhile p := fun more => by
    rw [List.takeWhile_append, if_neg hshort]
  -- Up to that character both occurrences take the same characters, so nothing stands between their starts.
  have hrun : pattern.takeWhile p = late ++ pattern.takeWhile p := by
    calc pattern.takeWhile p = (pattern ++ rest).takeWhile p := (hcut rest).symm
      _ = late ++ (pattern ++ back).takeWhile p := by
        rw [hrest, List.takeWhile_append_of_pos fun c hc => hfront c (hlate.subset hc)]
      _ = late ++ pattern.takeWhile p := by rw [hcut]
  exact List.self_eq_append_left.mp hrun

/-- The first occurrence of a pattern whose first character stands nowhere before it. -/
theorem cutFirst?_of_notMem {c : Char} {pattern front back : List Char} (h : c ∉ front) :
    cutFirst? (c :: pattern) (front ++ c :: (pattern ++ back)) = some (front, back) := by
  have hforeign : ∃ d ∈ c :: pattern, (d != c) = false := ⟨c, .head _, bne_self_eq_false c⟩
  exact cutFirst?_of_foreign (p := (· != c)) (fun _ hd => bne_iff_ne.mpr fun e => h (e ▸ hd)) hforeign back

/-- The pattern does not start again before its end. -/
def Unbordered (pattern : List Char) : Prop := ∀ n < pattern.length, 0 < n → ¬pattern.drop n <+: pattern

instance (pattern : List Char) : Decidable (Unbordered pattern) := by unfold Unbordered; infer_instance

theorem cutFirst?_of_unbordered {pattern front : List Char} (hpattern : Unbordered pattern)
    (hfront : ¬pattern <:+: front) (back : List Char) :
    cutFirst? pattern (front ++ (pattern ++ back)) = some (front, back) := by
  refine cutFirst?_of_first fun late hlate hne ⟨rest, hrest⟩ => ?_
  have hlong : ¬pattern <+: late := fun h => hfront (h.isInfix.trans hlate.isInfix)
  rcases List.append_eq_append_iff.mp hrest with ⟨more, hlate, -⟩ | ⟨edge, hedge, hback⟩
  · exact hlong ⟨more, hlate.symm⟩
  · have hpos : 0 < late.length := List.length_pos_iff.mpr hne
    have hlt : late.length < pattern.length := by
      rw [hedge, List.length_append]
      refine Nat.lt_add_of_pos_right (List.length_pos_iff.mpr ?_)
      rintro rfl
      rw [List.append_nil] at hedge
      exact hlong (hedge ▸ List.prefix_refl _)
    refine hpattern late.length hlt hpos ?_
    rw [hedge, List.drop_left, ← hedge]
    exact List.prefix_of_prefix_length_le ⟨rest, hback.symm⟩ (List.prefix_append pattern back) (by rw [hedge]; simp)

theorem cutLast?_of_notMem {c : Char} {front back : List Char} (h : c ∉ back) :
    cutLast? c (front ++ c :: back) = some (front, back) := by
  have hnone : cutLast? c back = none := by
    induction back with
    | nil => rfl
    | cons d back ih =>
      rw [cutLast?, ih fun hm => h (.tail _ hm), if_neg fun e : d = c => h (e ▸ .head _)]
  induction front with
  | nil => rw [List.nil_append, cutLast?, hnone, if_pos rfl]
  | cons d front ih => rw [List.cons_append, cutLast?, ih]

theorem notMem_of_cutLast?_eq_none {c : Char} {text : List Char} (h : cutLast? c text = none) : c ∉ text := by
  induction text with
  | nil => exact nofun
  | cons d rest ih =>
    unfold cutLast? at h
    split at h
    · cases h
    · rename_i hrest
      split at h
      · cases h
      · rename_i hd
        rintro (_ | ⟨_, hm⟩)
        · exact hd rfl
        · exact ih hrest hm

/-- A text is cut at the last occurrence. -/
theorem cutLast?_spec {c : Char} {text : List Char} {parts : List Char × List Char}
    (h : cutLast? c text = some parts) : text = parts.1 ++ c :: parts.2 ∧ c ∉ parts.2 := by
  induction text generalizing parts with
  | nil => cases h
  | cons d rest ih =>
    unfold cutLast? at h
    split at h
    · rename_i found hfound
      obtain rfl := Option.some.inj h
      obtain ⟨hrest, hc⟩ := ih hfound
      exact ⟨by rw [hrest, List.cons_append], hc⟩
    · rename_i hrest
      split at h
      · rename_i hd
        obtain rfl := Option.some.inj h
        exact ⟨by rw [hd, List.nil_append], notMem_of_cutLast?_eq_none hrest⟩
      · cases h

/-! ### Decimals -/

namespace Numeral

theorem digit_spec {n : Nat} (h : n < 10) : isDigit (digit n) = true ∧ digitValue (digit n) = n := by
  revert n
  decide

theorem digits_spec (n : Nat) : isDigits (digits n) = true ∧ value (digits n) = n := by
  induction n using digits.induct with
  | case1 n h =>
    obtain ⟨hdigit, hvalue⟩ := digit_spec h
    rw [digits, if_pos h]
    simp [isDigits, value, hdigit, hvalue]
  | case2 n h ih =>
    obtain ⟨hdigit, hvalue⟩ := digit_spec (Nat.mod_lt n (Nat.zero_lt_succ 9))
    obtain ⟨hdigits, hrest⟩ := ih
    simp only [isDigits, Bool.and_eq_true] at hdigits
    rw [digits, if_neg h]
    refine ⟨by simp [isDigits, hdigits.2, hdigit], ?_⟩
    rw [value, List.foldl_append, ← value, hrest]
    simp only [List.foldl_cons, List.foldl_nil, hvalue]
    omega

theorem digits_ne_nil (n : Nat) : digits n ≠ [] := by
  intro h
  have hdigits := (digits_spec n).1
  rw [h] at hdigits
  cases hdigits

theorem isDigit_of_mem {n : Nat} {c : Char} (h : c ∈ digits n) : isDigit c = true := by
  have hdigits := (digits_spec n).1
  simp only [isDigits, Bool.and_eq_true] at hdigits
  exact List.all_eq_true.mp hdigits.2 c h

theorem isDigit_of_eq_cons {n : Nat} {c : Char} {ds : List Char} (h : digits n = c :: ds) : isDigit c = true :=
  isDigit_of_mem (n := n) (h ▸ .head _)

/-- No decimal has a character that is no digit. -/
theorem notMem_digits {c : Char} (h : isDigit c = false) (n : Nat) : c ∉ digits n :=
  fun hm => Bool.false_ne_true (h.symm.trans (isDigit_of_mem hm))

theorem read?_digits {n bound : Nat} (h : n < bound) : read? bound (digits n) = some n := by
  obtain ⟨hdigits, hvalue⟩ := digits_spec n
  simp [read?, hdigits, hvalue, h]

theorem readSigned?_digits {n bound : Nat} (h : n < bound) : readSigned? bound (digits n) = some n := by
  have hsign : ∀ rest, digits n ≠ '+' :: rest := fun rest e => notMem_digits (c := '+') rfl n (e ▸ .head _)
  unfold readSigned?
  split
  · rename_i rest e
    exact absurd e (hsign rest)
  · exact read?_digits h

/-- Nothing follows a leading zero. -/
theorem digits_zero {n : Nat} {rest : List Char} (h : digits n = '0' :: rest) : rest = [] := by
  induction n using digits.induct generalizing rest with
  | case1 n hn =>
    rw [digits, if_pos hn] at h
    exact (List.cons.inj h).2.symm
  | case2 n hn ih =>
    rw [digits, if_neg hn] at h
    obtain ⟨hdigits, hvalue⟩ := digits_spec (n / 10)
    cases hfront : digits (n / 10) with
    | nil => rw [hfront] at hdigits; cases hdigits
    | cons c front =>
      -- What stands before the last digit would be a zero, but it stands for `n / 10`.
      rw [hfront, List.cons_append] at h
      obtain ⟨rfl, -⟩ := List.cons.inj h
      rw [hfront, ih hfront] at hvalue
      have hzero : n / 10 = 0 := hvalue.symm
      omega

end Numeral

/-! ### Escapes -/

namespace Escape

theorem ofBytes?_bytes (text : List Char) : ofBytes? (bytes text) = some text := by
  have hbytes : (⟨(bytes text).toArray⟩ : ByteArray) = text.utf8Encode := by
    refine ByteArray.ext ?_
    simp [List.utf8Encode, bytes]
  rw [ofBytes?, hbytes, String.fromUTF8?, dif_pos ByteArray.isValidUTF8_utf8Encode]
  exact congrArg some (String.toList_ofList (l := text))

theorem hexDigit_spec {n : Nat} (h : n < 16) : isPlain (hexDigit n) = true ∧ hexDigit n ≠ '+' ∧
    hexValue? (hexDigit n) = some n := by
  revert n
  decide

theorem hexPair?_hexDigit (b : UInt8) :
    hexPair? (hexDigit (b.toNat / 16)) (hexDigit (b.toNat % 16)) = some b.toNat := by
  have hb := b.toNat_lt
  obtain ⟨-, hsign, hhigh⟩ := hexDigit_spec (show b.toNat / 16 < 16 by omega)
  obtain ⟨-, -, hlow⟩ := hexDigit_spec (show b.toNat % 16 < 16 by omega)
  simp only [hexPair?, if_neg hsign, hhigh, hlow]
  exact congrArg some (Nat.div_add_mod _ _)

theorem decodeBytes?_cons {c : Char} (hc : isPlain c = true) (rest : List Char) :
    decodeBytes? (c :: rest) = (decodeBytes? rest).map (UInt8.ofNat c.toNat :: ·) := by
  rw [decodeBytes?]
  · rw [if_pos hc]
  · rintro high low rest' rfl rfl
    exact absurd hc (by decide)

theorem toNat_ofNat_byte (b : UInt8) : (Char.ofNat b.toNat).toNat = b.toNat := by
  have hb := b.toNat_lt
  have hvalid : b.toNat.isValidChar := .inl (by omega)
  rw [Char.ofNat, dif_pos hvalid]
  rfl

theorem decodeBytes?_encodeByte (b : UInt8) (rest : List Char) :
    decodeBytes? (encodeByte b ++ rest) = (decodeBytes? rest).map (b :: ·) := by
  unfold encodeByte
  dsimp only
  split
  · rename_i hplain
    rw [List.singleton_append, decodeBytes?_cons hplain, toNat_ofNat_byte, UInt8.ofNat_toNat]
  · rw [List.cons_append, List.cons_append, List.cons_append, List.nil_append, decodeBytes?, hexPair?_hexDigit]
    cases decodeBytes? rest <;> simp

theorem decode?_encode (text : List Char) : decode? (encode text) = some text := by
  have hbytes : ∀ bs : List UInt8, decodeBytes? (bs.flatMap encodeByte) = some bs := by
    intro bs
    induction bs with
    | nil => rfl
    | cons b bs ih => rw [List.flatMap_cons, decodeBytes?_encodeByte, ih]; rfl
  rw [decode?, encode, hbytes, Option.bind_some, ofBytes?_bytes]

/-- A written form has no character but the plain ones and the percent sign. -/
theorem isPlain_of_mem {text : List Char} {c : Char} (h : c ∈ encode text) : isPlain c = true ∨ c = '%' := by
  obtain ⟨b, -, hb⟩ := List.mem_flatMap.mp h
  unfold encodeByte at hb
  dsimp only at hb
  have hlt := b.toNat_lt
  split at hb
  · rename_i hplain
    exact .inl (List.mem_singleton.mp hb ▸ hplain)
  · simp only [List.mem_cons, List.not_mem_nil, or_false] at hb
    rcases hb with rfl | rfl | rfl
    · exact .inr rfl
    · exact .inl (hexDigit_spec (show b.toNat / 16 < 16 by omega)).1
    · exact .inl (hexDigit_spec (show b.toNat % 16 < 16 by omega)).1

end Escape

/-! ### Lines -/

namespace Line

/-- The text has no character that ends a line. -/
def Flat (text : List Char) : Prop := ∀ c ∈ text, c ≠ '\n' ∧ c ≠ '\r'

theorem Flat.append {a b : List Char} (ha : Flat a) (hb : Flat b) : Flat (a ++ b) := by
  intro c hc
  rcases List.mem_append.mp hc with hc | hc
  · exact ha c hc
  · exact hb c hc

theorem Flat.notMem {text : List Char} (h : Flat text) : '\n' ∉ text := fun hm => (h _ hm).1 rfl

theorem collapse_cons {c : Char} (hc : c ≠ '\r') (rest : List Char) :
    collapse (c :: rest) = (if c = '\n' then ' ' else c) :: collapse rest := by
  rw [collapse]
  · simp only [hc, false_or]
  · exact fun _ h => absurd h hc

theorem flat_collapse (text : List Char) : Flat (collapse text) := by
  fun_induction collapse text with
  | case1 => exact nofun
  | case2 rest ih => exact List.forall_mem_cons.mpr ⟨by decide, ih⟩
  | case3 c rest _ ih =>
    refine List.forall_mem_cons.mpr ⟨?_, ih⟩
    split
    · decide
    · rename_i h
      exact ⟨fun e => h (.inr e), fun e => h (.inl e)⟩

theorem collapse_flat {text : List Char} (h : Flat text) : collapse text = text := by
  induction text with
  | nil => rfl
  | cons c text ih =>
    obtain ⟨hc, hrest⟩ := List.forall_mem_cons.mp h
    rw [collapse_cons hc.2, if_neg hc.1, ih hrest]

/-- Two texts are collapsed apart, unless a line end could reach from the one into the other. -/
theorem collapse_append (a : List Char) {b : List Char} (h : b.head? ≠ some '\n') :
    collapse (a ++ b) = collapse a ++ collapse b := by
  fun_induction collapse a with
  | case1 => rfl
  | case2 rest ih => rw [List.cons_append, List.cons_append, collapse, ih, List.cons_append]
  | case3 c rest hc ih =>
    rw [List.cons_append, collapse, ih, List.cons_append]
    rintro rest' rfl hr
    cases rest with
    | nil => exact h (by rw [← List.nil_append b, hr]; rfl)
    | cons d rest =>
      obtain ⟨rfl, -⟩ := List.cons_eq_cons.mp hr
      exact hc rest rfl rfl

theorem collapse_append_cons {c : Char} (h : c ≠ '\n' ∧ c ≠ '\r') (a b : List Char) :
    collapse (a ++ c :: b) = collapse a ++ c :: collapse b := by
  rw [collapse_append a (by simpa using h.1), collapse_cons h.2, if_neg h.1]

theorem dropReturn_flat {line : List Char} (h : Flat line) : dropReturn line = line := by
  rw [dropReturn, if_neg]
  exact fun hm => (h _ (List.mem_of_getLast? hm)).2 rfl

theorem go_line {line : List Char} (h : '\n' ∉ line) (met rest : List Char) :
    ofText.go met (line ++ '\n' :: rest) = dropReturn (met.reverse ++ line) :: ofText.go [] rest := by
  induction line generalizing met with
  | nil => simp [ofText.go]
  | cons c line ih =>
    have hc : c ≠ '\n' := fun e => h (e ▸ .head _)
    rw [List.cons_append, ofText.go, if_neg hc, ih fun hm => h (.tail _ hm)]
    simp

/-- Lines that are written one after the other are read back as they are. -/
theorem ofText_lines {lines : List (List Char)} (h : ∀ line ∈ lines, Flat line) :
    ofText (lines.flatMap (· ++ ['\n'])) = lines := by
  unfold ofText
  induction lines with
  | nil => rfl
  | cons line lines ih =>
    obtain ⟨hline, hlines⟩ := List.forall_mem_cons.mp h
    rw [List.flatMap_cons, List.append_assoc, List.singleton_append, go_line hline.notMem, ih hlines,
      List.reverse_nil, List.nil_append, dropReturn_flat hline]

end Line

end FlowCheck.Text

import FlowCheck.Proofs.Marker

/-! Where the markers of a line stand, and which of them is found. The search looks at the opening delimiters from left
    to right and goes on behind each one that starts no marker, so it passes over an opening delimiter that overlaps one
    before it. Where no two overlap the marker that is found is the first one. -/

namespace FlowCheck

open FlowCheck.Text

namespace Text

/-! ### Places of a pattern -/

/-- The pattern stands at this place of the text. -/
def StandsAt (pattern text : List Char) (k : Nat) : Prop := pattern <+: text.drop k

instance (pattern text : List Char) (k : Nat) : Decidable (StandsAt pattern text k) :=
  inferInstanceAs (Decidable (pattern <+: text.drop k))

/-- The first place from `start` on where the pattern stands. -/
structure NextAt (pattern text : List Char) (start k : Nat) : Prop where
  start_le : start ≤ k
  stands : StandsAt pattern text k
  first : ∀ i < k, start ≤ i → ¬StandsAt pattern text i

/-- The places from `start` on where the pattern stands, if after each of them only what stands behind the pattern is
looked at. -/
inductive Visited (pattern text : List Char) : Nat → Nat → Prop where
  | here {start k} : NextAt pattern text start k → Visited pattern text start k
  | behind {start j k} : NextAt pattern text start j → Visited pattern text (j + pattern.length) k →
      Visited pattern text start k

/-- No two places where the pattern stands overlap. -/
def Apart (pattern text : List Char) : Prop :=
  ∀ j k, j < k → StandsAt pattern text j → StandsAt pattern text k → j + pattern.length ≤ k

variable {pattern text front back : List Char} {start j k : Nat}

theorem standsAt_drop : StandsAt pattern (text.drop start) k ↔ StandsAt pattern text (start + k) := by
  rw [StandsAt, List.drop_drop, StandsAt]

theorem StandsAt.lt (h : StandsAt pattern text k) (hpattern : pattern ≠ []) : k < text.length := by
  refine Nat.lt_of_not_le fun hle => hpattern ?_
  rw [StandsAt, List.drop_eq_nil_of_le hle] at h
  exact List.prefix_nil.mp h

theorem not_standsAt_of_cutFirst? (h : cutFirst? pattern text = none) (k : Nat) : ¬StandsAt pattern text k := by
  fun_induction cutFirst? pattern text generalizing k with
  | case1 => cases h
  | case2 hfront =>
    rw [StandsAt, List.drop_nil]
    exact fun hp => hfront (List.isPrefixOf_iff_prefix.mpr hp)
  | case3 c text hfront ih =>
    cases k with
    | zero => exact fun hp => hfront (List.isPrefixOf_iff_prefix.mpr hp)
    | succ k => exact ih (Option.map_eq_none_iff.mp h) k

theorem cutFirst?_spec {parts : List Char × List Char} (h : cutFirst? pattern text = some parts) :
    text = parts.1 ++ (pattern ++ parts.2) ∧ ∀ k < parts.1.length, ¬StandsAt pattern text k := by
  fun_induction cutFirst? pattern text generalizing parts with
  | case1 text hfront =>
    obtain rfl := Option.some.inj h
    exact ⟨(List.prefix_iff_eq_append.mp (List.isPrefixOf_iff_prefix.mp hfront)).symm, nofun⟩
  | case2 => cases h
  | case3 c text hfront ih =>
    obtain ⟨parts, hparts, rfl⟩ := Option.map_eq_some_iff.mp h
    obtain ⟨htext, hfirst⟩ := ih hparts
    refine ⟨by rw [List.cons_append, ← htext], fun k hk => ?_⟩
    cases k with
    | zero => exact fun hp => hfront (List.isPrefixOf_iff_prefix.mpr hp)
    | succ k => exact hfirst k (Nat.lt_of_succ_lt_succ hk)

theorem cutFirst?_eq_some_iff : cutFirst? pattern text = some (front, back) ↔
    text = front ++ (pattern ++ back) ∧ ∀ k < front.length, ¬StandsAt pattern text k := by
  refine ⟨cutFirst?_spec, fun ⟨htext, hfirst⟩ => ?_⟩
  rw [htext]
  refine cutFirst?_of_first fun late hlate hne hstands => ?_
  obtain ⟨early, rfl⟩ := hlate
  have hlt : early.length < (early ++ late).length := by
    rw [List.length_append]
    exact Nat.lt_add_of_pos_right (List.length_pos_iff.mpr hne)
  refine hfirst early.length hlt ?_
  rwa [htext, StandsAt, List.append_assoc, List.drop_left]

/-- What a text is cut into from `start` on tells the next place of the pattern and what stands behind it. -/
theorem nextAt_of_cutFirst? {parts : List Char × List Char} (h : cutFirst? pattern (text.drop start) = some parts) :
    NextAt pattern text start (start + parts.1.length) ∧
      parts.2 = text.drop (start + parts.1.length + pattern.length) := by
  obtain ⟨htext, hfirst⟩ := cutFirst?_spec h
  have hdrop : text.drop (start + parts.1.length) = pattern ++ parts.2 := by
    rw [← List.drop_drop, htext, List.drop_left]
  refine ⟨⟨Nat.le_add_right _ _, ⟨parts.2, hdrop.symm⟩, fun i hi hstart => ?_⟩, ?_⟩
  · have hplace := hfirst (i - start) (by omega)
    rwa [standsAt_drop, Nat.add_sub_cancel' hstart] at hplace
  · rw [← List.drop_drop, hdrop, List.drop_left]

theorem NextAt.unique (hj : NextAt pattern text start j) (hk : NextAt pattern text start k) : j = k := by
  rcases Nat.lt_trichotomy j k with h | h | h
  · exact absurd hj.stands (hk.first j h hj.start_le)
  · exact h
  · exact absurd hk.stands (hj.first k h hk.start_le)

/-- A visited place is the next one, or is visited from behind the next one. -/
theorem NextAt.visited_iff (h : NextAt pattern text start j) :
    Visited pattern text start k ↔ k = j ∨ Visited pattern text (j + pattern.length) k := by
  constructor
  · rintro (hk | ⟨hi, hk⟩)
    · exact .inl (hk.unique h)
    · exact .inr (h.unique hi ▸ hk)
  · rintro (rfl | hk)
    · exact .here h
    · exact .behind h hk

theorem Visited.stands (h : Visited pattern text start k) : StandsAt pattern text k := by
  induction h with
  | here hk => exact hk.stands
  | behind _ _ ih => exact ih

theorem Visited.start_le (h : Visited pattern text start k) : start ≤ k := by
  induction h with
  | here hk => exact hk.start_le
  | behind hj _ ih => exact hj.start_le.trans ((Nat.le_add_right _ _).trans ih)

/-- Where no two places of the pattern overlap, all of them are visited. -/
theorem Apart.visited (hapart : Apart pattern text) (hpattern : pattern ≠ []) (hk : StandsAt pattern text k)
    (hstart : start ≤ k) : Visited pattern text start k := by
  have hpos : 0 < pattern.length := List.length_pos_iff.mpr hpattern
  induction hgap : k - start using Nat.strong_induction_on generalizing start with
  | _ gap ih =>
    cases hcut : cutFirst? pattern (text.drop start) with
    | none =>
      have hnone := not_standsAt_of_cutFirst? hcut (k - start)
      rw [standsAt_drop, Nat.add_sub_cancel' hstart] at hnone
      exact absurd hk hnone
    | some parts =>
      obtain ⟨hnext, -⟩ := nextAt_of_cutFirst? hcut
      have hle : start + parts.1.length ≤ k := Nat.le_of_not_lt fun hlt => hnext.first k hlt hstart hk
      rcases Nat.eq_or_lt_of_le hle with heq | hlt
      · exact .here (heq ▸ hnext)
      · have hbehind := hapart _ k hlt hnext.stands hk
        have hless : k - (start + parts.1.length + pattern.length) < gap := by omega
        exact .behind hnext (ih _ hless hbehind rfl)

/-- The places of a pattern that does not start again before its end are apart. -/
theorem Unbordered.apart (h : Unbordered pattern) (text : List Char) : Apart pattern text := by
  intro j k hjk hj hk
  refine Nat.le_of_not_lt fun hlt => h (k - j) (by omega) (by omega) ?_
  obtain ⟨rest, hrest⟩ := hj
  have hdrop : text.drop k = pattern.drop (k - j) ++ rest := by
    rw [← List.drop_append_of_le_length (by omega), hrest, List.drop_drop, Nat.add_sub_cancel' hjk.le]
  exact List.prefix_of_prefix_length_le ⟨rest, hdrop.symm⟩ hk (by rw [List.length_drop]; exact Nat.sub_le _ _)

/-! ### What stands between the delimiters -/

/-- The bytes that are written as plain characters and as pairs of hexadecimal digits behind a percent sign. With signs,
a plus sign may take the place of the first digit. -/
inductive Escape.Means (signs : Bool) : List Char → List UInt8 → Prop where
  | nil : Means signs [] []
  | plain {c written bs} : isPlain c = true → Means signs written bs →
      Means signs (c :: written) (UInt8.ofNat c.toNat :: bs)
  | pair {high low h l written bs} : hexValue? high = some h → hexValue? low = some l → Means signs written bs →
      Means signs ('%' :: high :: low :: written) (UInt8.ofNat (16 * h + l) :: bs)
  | signed {low l written bs} : signs = true → hexValue? low = some l → Means signs written bs →
      Means signs ('%' :: '+' :: low :: written) (UInt8.ofNat l :: bs)

/-- The number that is written as a row of at least one digit. With signs, a plus sign may stand before the row. -/
def Numeral.Means (signs : Bool) (written : List Char) (n : Nat) : Prop :=
  ∃ row, (written = row ∨ signs = true ∧ written = '+' :: row) ∧ row ≠ [] ∧ (∀ c ∈ row, isDigit c = true) ∧
    value row = n

/-! ### What the readers accept -/

theorem Escape.ofBytes?_eq_some {bs : List UInt8} {text : List Char} : ofBytes? bs = some text ↔ bs = bytes text := by
  refine ⟨fun h => ?_, fun h => h ▸ ofBytes?_bytes text⟩
  obtain ⟨s, hs, rfl⟩ := Option.map_eq_some_iff.mp h
  rw [String.fromUTF8?] at hs
  split at hs
  · have hbytes : (⟨bs.toArray⟩ : ByteArray) = s.toList.utf8Encode := by
      rw [String.utf8Encode_toList, ← Option.some.inj hs]
      rfl
    have hlist := congrArg (·.data.toList) hbytes
    simpa [List.utf8Encode, bytes] using hlist
  · cases hs

theorem Escape.hexPair?_eq_some {high low : Char} {n : Nat} : hexPair? high low = some n ↔
    high = '+' ∧ hexValue? low = some n ∨ ∃ h l, hexValue? high = some h ∧ hexValue? low = some l ∧ n = 16 * h + l := by
  unfold hexPair?
  split
  · rename_i hsign
    have hnone : hexValue? '+' = none := by decide
    simp [hsign, hnone]
  · rename_i hsign
    cases hexValue? high <;> cases hexValue? low <;> simp [hsign, eq_comm]

theorem Escape.decodeBytes?_eq_some {written : List Char} {bs : List UInt8} :
    decodeBytes? written = some bs ↔ Means true written bs := by
  constructor
  · intro h
    fun_induction decodeBytes? written generalizing bs with
    | case1 => exact Option.some.inj h ▸ .nil
    | case2 high low rest n rest' hrest hpair ih =>
      obtain rfl := Option.some.inj h
      rcases hexPair?_eq_some.mp hpair with ⟨rfl, hlow⟩ | ⟨h, l, hhigh, hlow, rfl⟩
      · exact .signed rfl hlow (ih hrest)
      · exact .pair hhigh hlow (ih hrest)
    | case3 => cases h
    | case4 c rest _ hplain ih =>
      obtain ⟨rest', hrest, rfl⟩ := Option.map_eq_some_iff.mp h
      exact .plain hplain (ih hrest)
    | case5 => cases h
  · intro h
    induction h with
    | nil => rfl
    | plain hc _ ih => rw [decodeBytes?_cons hc, ih, Option.map_some]
    | pair hhigh hlow _ ih =>
      rw [decodeBytes?, hexPair?_eq_some.mpr (.inr ⟨_, _, hhigh, hlow, rfl⟩), ih]
    | signed _ hlow _ ih => rw [decodeBytes?, hexPair?_eq_some.mpr (.inl ⟨rfl, hlow⟩), ih]

theorem Escape.ne_plus_of_hexValue? {c : Char} {n : Nat} (h : hexValue? c = some n) : '+' ≠ c := by
  rintro rfl
  cases h

/-- Without signs, what is written has no plus sign. -/
theorem Escape.means_false {written : List Char} {bs : List UInt8} :
    Means false written bs ↔ Means true written bs ∧ '+' ∉ written := by
  constructor
  · intro h
    induction h with
    | nil => exact ⟨.nil, nofun⟩
    | @plain c _ _ hc _ ih =>
      have hplus : '+' ≠ c := by rintro rfl; cases hc
      exact ⟨.plain hc ih.1, by simp [hplus, ih.2]⟩
    | pair hhigh hlow _ ih =>
      exact ⟨.pair hhigh hlow ih.1, by simp [ne_plus_of_hexValue? hhigh, ne_plus_of_hexValue? hlow, ih.2]⟩
    | signed hsigns => cases hsigns
  · rintro ⟨h, hplus⟩
    induction h with
    | nil => exact .nil
    | plain hc _ ih => exact .plain hc (ih fun hm => hplus (.tail _ hm))
    | pair hhigh hlow _ ih => exact .pair hhigh hlow (ih fun hm => hplus (.tail _ (.tail _ (.tail _ hm))))
    | signed => exact absurd (.tail _ (.head _)) hplus

theorem Numeral.read?_eq_some {bound n : Nat} {written : List Char} : read? bound written = some n ↔
    written ≠ [] ∧ (∀ c ∈ written, isDigit c = true) ∧ value written = n ∧ n < bound := by
  unfold read? isDigits
  split
  · rename_i h
    simp only [Bool.and_eq_true, Bool.not_eq_true', List.isEmpty_eq_false_iff, List.all_eq_true, decide_eq_true_eq] at h
    obtain ⟨⟨hne, hall⟩, hlt⟩ := h
    rw [Option.some_inj]
    exact ⟨fun hn => ⟨hne, hall, hn, hn ▸ hlt⟩, fun hn => hn.2.2.1⟩
  · rename_i h
    refine ⟨nofun, fun ⟨hne, hall, hn, hlt⟩ => absurd ?_ h⟩
    simp only [Bool.and_eq_true, Bool.not_eq_true', List.isEmpty_eq_false_iff, List.all_eq_true, decide_eq_true_eq]
    exact ⟨⟨hne, hall⟩, hn ▸ hlt⟩

theorem Numeral.readSigned?_eq_some {bound n : Nat} {written : List Char} :
    readSigned? bound written = some n ↔ Means true written n ∧ n < bound := by
  have hsign {row rest : List Char} (hall : ∀ c ∈ row, isDigit c = true) : row ≠ '+' :: rest := by
    rintro rfl
    cases hall '+' (.head _)
  unfold readSigned?
  split
  · rename_i rest
    rw [read?_eq_some]
    constructor
    · rintro ⟨hne, hall, hn, hlt⟩
      exact ⟨⟨rest, .inr ⟨rfl, rfl⟩, hne, hall, hn⟩, hlt⟩
    · rintro ⟨⟨row, hrow | ⟨-, hrow⟩, hne, hall, hn⟩, hlt⟩
      · exact absurd hrow.symm (hsign hall)
      · obtain rfl := (List.cons.inj hrow).2
        exact ⟨hne, hall, hn, hlt⟩
  · rename_i hplain
    rw [read?_eq_some]
    constructor
    · rintro ⟨hne, hall, hn, hlt⟩
      exact ⟨⟨written, .inl rfl, hne, hall, hn⟩, hlt⟩
    · rintro ⟨⟨row, rfl | ⟨-, hrow⟩, hne, hall, hn⟩, hlt⟩
      · exact ⟨hne, hall, hn, hlt⟩
      · exact absurd hrow (hplain row)

theorem Numeral.means_false {written : List Char} {n : Nat} :
    Means false written n ↔ Means true written n ∧ '+' ∉ written := by
  constructor
  · rintro ⟨row, rfl | ⟨hsigns, -⟩, hne, hall, hn⟩
    · exact ⟨⟨_, .inl rfl, hne, hall, hn⟩, fun hm => by cases hall '+' hm⟩
    · cases hsigns
  · rintro ⟨⟨row, rfl | ⟨-, rfl⟩, hne, hall, hn⟩, hplus⟩
    · exact ⟨_, .inl rfl, hne, hall, hn⟩
    · exact absurd (.head _) hplus

end Text

/-! ### Markers on a line -/

namespace MarkerPattern

/-- The text says this marker: an escaped id, `#`, and a position. -/
def Says (signs : Bool) (text : List Char) (m : Marker) : Prop :=
  ∃ written number, text = written ++ '#' :: number ∧ Escape.Means signs written (Escape.bytes m.expressionId.toList) ∧
    Numeral.Means signs number m.index ∧ m.index < Marker.indexLimit

/-- At this place of the line stands the opening delimiter, and the text is what follows it up to the first closing
delimiter. -/
def Encloses (p : MarkerPattern) (line : List Char) (k : Nat) (text : List Char) : Prop :=
  ∃ back, line.drop k = p.opening.toList ++ (text ++ (p.closing.toList ++ back)) ∧
    ∀ j < text.length, ¬StandsAt p.closing.toList (text ++ (p.closing.toList ++ back)) j

/-- A marker stands at this place of the line. -/
def MarkerAt (p : MarkerPattern) (signs : Bool) (line : List Char) (k : Nat) (m : Marker) : Prop :=
  ∃ text, p.Encloses line k text ∧ Says signs text m

/-- What is found is what stands at the first place, and nothing is found only if there is no place. -/
def IsFirst {α : Type} (place : Nat → α → Prop) : Option α → Prop
  | some a => ∃ k, place k a ∧ ∀ j < k, ∀ b, ¬place j b
  | none => ∀ k a, ¬place k a

theorem IsFirst.congr {α : Type} {place place' : Nat → α → Prop} {found : Option α} (h : IsFirst place found)
    (hplace : ∀ k a, place k a ↔ place' k a) : IsFirst place' found := by
  have heq : place = place' := funext fun k => funext fun a => propext (hplace k a)
  exact heq ▸ h

variable {p : MarkerPattern} {line text : List Char} {k : Nat} {m : Marker}

theorem ofBody?_eq_some : ofBody? text = some m ↔ Says true text m := by
  unfold ofBody?
  constructor
  · intro h
    split at h
    · cases h
    · rename_i parts hparts
      split at h
      · rename_i id index hid hindex
        obtain rfl := Option.some.inj h
        obtain ⟨bs, hbs, htext⟩ := Option.bind_eq_some_iff.mp hid
        obtain ⟨hnumber, hlt⟩ := Numeral.readSigned?_eq_some.mp hindex
        obtain rfl := Escape.ofBytes?_eq_some.mp htext
        refine ⟨parts.1, parts.2, (cutLast?_spec hparts).1, ?_, hnumber, hlt⟩
        rw [String.toList_ofList]
        exact Escape.decodeBytes?_eq_some.mp hbs
      · cases h
  · rintro ⟨written, number, rfl, hwritten, hnumber, hlt⟩
    have hseparator : '#' ∉ number := by
      obtain ⟨row, rfl | ⟨-, rfl⟩, -, hall, -⟩ := hnumber
      · exact fun hm => by cases hall '#' hm
      · rintro (_ | ⟨_, hm⟩)
        cases hall '#' hm
    have hid : Escape.decode? written = some m.expressionId.toList := by
      rw [Escape.decode?, Escape.decodeBytes?_eq_some.mpr hwritten, Option.bind_some, Escape.ofBytes?_bytes]
    rw [cutLast?_of_notMem hseparator]
    simp only [hid, Numeral.readSigned?_eq_some.mpr ⟨hnumber, hlt⟩, String.ofList_toList]

theorem says_false : Says false text m ↔ Says true text m ∧ '+' ∉ text := by
  constructor
  · rintro ⟨written, number, rfl, hwritten, hnumber, hlt⟩
    obtain ⟨hwritten, hplain⟩ := Escape.means_false.mp hwritten
    obtain ⟨hnumber, hrow⟩ := Numeral.means_false.mp hnumber
    exact ⟨⟨written, number, rfl, hwritten, hnumber, hlt⟩, by simp [hplain, hrow]⟩
  · rintro ⟨⟨written, number, rfl, hwritten, hnumber, hlt⟩, hplus⟩
    simp only [List.mem_append, List.mem_cons, not_or] at hplus
    have hwritten := Escape.means_false.mpr ⟨hwritten, hplus.1⟩
    exact ⟨written, number, rfl, hwritten, Numeral.means_false.mpr ⟨hnumber, hplus.2.2⟩, hlt⟩

theorem encloses_iff : p.Encloses line k text ↔ StandsAt p.opening.toList line k ∧
    ∃ back, cutFirst? p.closing.toList (line.drop (k + p.opening.toList.length)) = some (text, back) := by
  constructor
  · rintro ⟨back, hline, hfirst⟩
    refine ⟨⟨_, hline.symm⟩, back, ?_⟩
    rw [← List.drop_drop, hline, List.drop_left]
    exact cutFirst?_eq_some_iff.mpr ⟨rfl, hfirst⟩
  · rintro ⟨⟨rest, hrest⟩, back, hcut⟩
    rw [← List.drop_drop, ← hrest, List.drop_left] at hcut
    obtain ⟨rfl, hfirst⟩ := cutFirst?_spec hcut
    exact ⟨back, hrest.symm, hfirst⟩

theorem Encloses.subset (h : p.Encloses line k text) : text ⊆ line := by
  obtain ⟨back, hline, -⟩ := h
  intro c hc
  have hm : c ∈ line.drop k := by simp [hline, hc]
  exact List.mem_of_mem_drop hm

theorem MarkerAt.stands {signs : Bool} (h : p.MarkerAt signs line k m) : StandsAt p.opening.toList line k :=
  (encloses_iff.mp h.choose_spec.1).1

/-- Behind an opening delimiter the marker is read that stands there. -/
theorem after?_eq_some (h : StandsAt p.opening.toList line k) :
    p.after? (line.drop (k + p.opening.toList.length)) = some m ↔ p.MarkerAt true line k m := by
  rw [after?, Option.bind_eq_some_iff]
  constructor
  · rintro ⟨parts, hcut, hbody⟩
    exact ⟨parts.1, encloses_iff.mpr ⟨h, parts.2, hcut⟩, ofBody?_eq_some.mp hbody⟩
  · rintro ⟨text, hencloses, hread⟩
    obtain ⟨-, back, hcut⟩ := encloses_iff.mp hencloses
    exact ⟨(text, back), hcut, ofBody?_eq_some.mpr hread⟩

/-- The search finds the first of the markers at the places that it visits. -/
theorem findIn_visited (hopening : p.opening.toList ≠ []) (line : List Char) (start : Nat) :
    IsFirst (fun k m => Visited p.opening.toList line start k ∧ p.MarkerAt true line k m)
      (p.findIn (line.drop start)) := by
  have hpos : 0 < p.opening.toList.length := List.length_pos_iff.mpr hopening
  generalize hrest : line.drop start = rest
  induction rest using findIn.induct p generalizing start with
  | case1 rest hcut =>
    subst hrest
    rw [findIn, hcut]
    rintro k m ⟨hk, -⟩
    have hnone := not_standsAt_of_cutFirst? hcut (k - start)
    rw [standsAt_drop, Nat.add_sub_cancel' hk.start_le] at hnone
    exact hnone hk.stands
  | case2 rest parts hcut m hm =>
    subst hrest
    obtain ⟨hnext, hback⟩ := nextAt_of_cutFirst? hcut
    rw [findIn, hcut]
    simp only [hm]
    rw [hback] at hm
    refine ⟨_, ⟨.here hnext, (after?_eq_some hnext.stands).mp hm⟩, ?_⟩
    rintro j hj n ⟨hvisited, -⟩
    exact hnext.first j hj hvisited.start_le hvisited.stands
  | case3 rest parts hcut hm hlt ih =>
    subst hrest
    obtain ⟨hnext, hback⟩ := nextAt_of_cutFirst? hcut
    rw [findIn, hcut]
    simp only [hm, if_pos hlt]
    have hbehind := ih _ hback.symm
    rw [hback] at hm
    have hnot : ∀ n, ¬p.MarkerAt true line (start + parts.1.length) n := by
      intro n hn
      rw [← after?_eq_some hnext.stands, hm] at hn
      cases hn
    refine hbehind.congr fun k n => ?_
    rw [hnext.visited_iff]
    refine ⟨fun h => ⟨.inr h.1, h.2⟩, ?_⟩
    rintro ⟨rfl | hk, hn⟩
    · exact absurd hn (hnot n)
    · exact ⟨hk, hn⟩
  | case4 rest parts hcut hm hlt =>
    -- The opening delimiter is not empty, so less is left behind it.
    obtain ⟨htext, -⟩ := cutFirst?_spec hcut
    have hlength := congrArg List.length htext
    simp only [List.length_append] at hlength
    omega

/-- What is found on a line is the first of the markers at the places that the search visits, and nothing is found only
if there is no marker at these. It is the first of all markers if no two opening delimiters overlap, and signs do not
count if there is no plus sign between an opening delimiter and the next closing delimiter. -/
theorem find_first (hopening : p.opening ≠ "") (line : String) :
    IsFirst (fun k m => Visited p.opening.toList line.toList 0 k ∧ p.MarkerAt true line.toList k m) (p.find line) ∧
      (Apart p.opening.toList line.toList → IsFirst (p.MarkerAt true line.toList) (p.find line) ∧
        ((∀ k text, p.Encloses line.toList k text → '+' ∉ text) →
          IsFirst (p.MarkerAt false line.toList) (p.find line))) := by
  have hne : p.opening.toList ≠ [] := fun h => hopening (String.toList_injective h)
  have hvisited := findIn_visited hne line.toList 0
  rw [List.drop_zero, ← find] at hvisited
  refine ⟨hvisited, fun hapart => ?_⟩
  have hfirst : IsFirst (p.MarkerAt true line.toList) (p.find line) := hvisited.congr fun k m =>
    ⟨fun h => h.2, fun h => ⟨hapart.visited hne h.stands k.zero_le, h⟩⟩
  refine ⟨hfirst, fun hplus => hfirst.congr fun k m => ?_⟩
  constructor
  · rintro ⟨text, hencloses, hread⟩
    exact ⟨text, hencloses, says_false.mpr ⟨hread, hplus k text hencloses⟩⟩
  · rintro ⟨text, hencloses, hread⟩
    exact ⟨text, hencloses, (says_false.mp hread).1⟩

/-- Neither the malformed marker nor the opening delimiter that no closing delimiter follows hides the marker behind. -/
theorem find_first_unclosed :
    let p := Flow.language.marker
    let line := "/*@no-index@*/ /*@ /*@ok%C3%A9#2@*/ fn"
    p.opening ≠ "" ∧ Apart p.opening.toList line.toList ∧ (∀ k text, p.Encloses line.toList k text → '+' ∉ text) ∧
      p.find line = some ⟨"oké", 2⟩ ∧ IsFirst (p.MarkerAt false line.toList) (some ⟨"oké", 2⟩) := by
  intro p line
  have hopening : p.opening ≠ "" := by decide
  have hunbordered : Unbordered p.opening.toList := by decide
  have hapart := hunbordered.apart line.toList
  have hplus : ∀ k text, p.Encloses line.toList k text → '+' ∉ text := fun k text hencloses hm =>
    absurd (hencloses.subset hm) (by decide)
  have hfind : p.find line = some ⟨"oké", 2⟩ := by decide +kernel
  exact ⟨hopening, hapart, hplus, hfind, hfind ▸ ((find_first hopening line).2 hapart).2 hplus⟩

/-- A marker is passed over whose opening delimiter overlaps one that starts no marker, and a position with a plus sign
is taken for a marker. -/
theorem find_misses :
    (let p : MarkerPattern := ⟨"//", "@@"⟩
     ¬IsFirst (p.MarkerAt false "///e#0@@".toList) (p.find "///e#0@@")) ∧
      ¬IsFirst (Flow.language.marker.MarkerAt false "/*@e#+5@*/".toList) (Flow.language.marker.find "/*@e#+5@*/") := by
  constructor
  · intro p hfirst
    have hfind : p.find "///e#0@@" = none := by decide +kernel
    rw [hfind] at hfirst
    have hencloses : p.Encloses "///e#0@@".toList 1 ['e', '#', '0'] :=
      encloses_iff.mpr ⟨by decide, [], by decide +kernel⟩
    have hid : Escape.Means false ['e'] (Escape.bytes "e".toList) := .plain rfl .nil
    have hposition : Numeral.Means false ['0'] 0 := ⟨['0'], .inl rfl, by simp, by simp [isDigit], rfl⟩
    have hlimit : 0 < Marker.indexLimit := Nat.two_pow_pos 64
    have hread : Says false ['e', '#', '0'] ⟨"e", 0⟩ := ⟨['e'], ['0'], rfl, hid, hposition, hlimit⟩
    exact hfirst 1 ⟨"e", 0⟩ ⟨_, hencloses, hread⟩
  · intro hfirst
    have hfind : Flow.language.marker.find "/*@e#+5@*/" = some ⟨"e", 5⟩ := by decide +kernel
    rw [hfind] at hfirst
    obtain ⟨k, ⟨text, hencloses, hread⟩, -⟩ := hfirst
    obtain ⟨hstands, back, hcut⟩ := encloses_iff.mp hencloses
    have hplace : ∀ k < 10, StandsAt Flow.language.marker.opening.toList "/*@e#+5@*/".toList k → k = 0 := by decide
    obtain rfl : k = 0 := hplace k (hstands.lt (by decide)) hstands
    have htext : cutFirst? Flow.language.marker.closing.toList
        ("/*@e#+5@*/".toList.drop (0 + Flow.language.marker.opening.toList.length)) =
          some (['e', '#', '+', '5'], []) := by decide +kernel
    obtain ⟨rfl, -⟩ := Prod.mk.inj (Option.some.inj (hcut.symm.trans htext))
    exact absurd (by decide) (says_false.mp hread).2

end MarkerPattern

end FlowCheck

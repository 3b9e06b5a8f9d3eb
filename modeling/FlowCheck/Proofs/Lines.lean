import FlowCheck.Proofs.Batch
import FlowCheck.Proofs.Flow.Tiling

/-! One line for each fragment. What is written line by line is cut into the same lines again, and the places that are
    counted along the source fall into these lines too, so a place names the fragment that stands there. -/

namespace FlowCheck

open FlowCheck.Text

/-! ### Line breaks -/

namespace Text.Line

/-- The second text is the first with one space for each line break, of which a carriage return with a newline behind
it is one. -/
inductive Collapses : List Char → List Char → Prop where
  | nil : Collapses [] []
  | both {text line} : Collapses text line → Collapses ('\r' :: '\n' :: text) (' ' :: line)
  | carriageReturn {text line} : text.head? ≠ some '\n' → Collapses text line → Collapses ('\r' :: text) (' ' :: line)
  | newline {text line} : Collapses text line → Collapses ('\n' :: text) (' ' :: line)
  | other {c text line} : c ≠ '\r' → c ≠ '\n' → Collapses text line → Collapses (c :: text) (c :: line)

theorem collapses_collapse (text : List Char) : Collapses text (collapse text) := by
  fun_induction collapse text with
  | case1 => exact .nil
  | case2 rest ih => exact .both ih
  | case3 c rest hc ih =>
    by_cases hreturn : c = '\r'
    · subst hreturn
      refine .carriageReturn (fun hhead => ?_) ih
      obtain ⟨more, rfl⟩ := List.head?_eq_some_iff.mp hhead
      exact hc more rfl rfl
    · by_cases hnewline : c = '\n'
      · subst hnewline
        exact .newline ih
      · rw [if_neg (not_or.mpr ⟨hreturn, hnewline⟩)]
        exact .other hreturn hnewline ih

theorem Collapses.eq_collapse {text line : List Char} (h : Collapses text line) : line = collapse text := by
  induction h with
  | nil => rfl
  | both _ ih => rw [collapse, ih]
  | @carriageReturn text _ hhead _ ih =>
    rw [collapse, ih]
    · rfl
    · rintro more - rfl
      exact hhead rfl
  | newline _ ih => rw [collapse_cons (by decide), ih, if_pos rfl]
  | other hreturn hnewline _ ih => rw [collapse_cons hreturn, ih, if_neg hnewline]

theorem collapses_iff {text line : List Char} : Collapses text line ↔ line = collapse text :=
  ⟨Collapses.eq_collapse, fun h => h ▸ collapses_collapse text⟩

theorem collapse_collapse (text : List Char) : collapse (collapse text) = collapse text :=
  collapse_flat (flat_collapse text)

theorem count_newline_lines {lines : List (List Char)} (h : ∀ line ∈ lines, Flat line) :
    (lines.flatMap (· ++ ['\n'])).count '\n' = lines.length := by
  induction lines with
  | nil => rfl
  | cons line lines ih =>
    obtain ⟨hline, hlines⟩ := List.forall_mem_cons.mp h
    rw [List.flatMap_cons, List.count_append, List.count_append, List.count_eq_zero_of_not_mem hline.notMem, ih hlines]
    simp [Nat.add_comm]

theorem return_notMem_lines {lines : List (List Char)} (h : ∀ line ∈ lines, Flat line) :
    '\r' ∉ lines.flatMap (· ++ ['\n']) := by
  intro hmem
  obtain ⟨line, hline, hmem⟩ := List.mem_flatMap.mp hmem
  rcases List.mem_append.mp hmem with hmem | hmem
  · exact (h line hline _ hmem).2 rfl
  · exact absurd (List.mem_singleton.mp hmem) (by decide)

end Text.Line

/-! ### Places along a text -/

namespace Location

/-- The characters of a text that starts at a place, each with its own place. -/
def along (loc : Location) : List Char → List (Location × Char)
  | [] => []
  | c :: text => (loc, c) :: along (loc.next c) text

theorem along_append (loc : Location) (a b : List Char) :
    loc.along (a ++ b) = loc.along a ++ (loc.advance a).along b := by
  induction a generalizing loc with
  | nil => rfl
  | cons c a ih => exact congrArg ((loc, c) :: ·) (ih (loc.next c))

/-- The place of a character is counted from what stands before it. -/
theorem mem_along (loc : Location) (front : List Char) (c : Char) (back : List Char) :
    (loc.advance front, c) ∈ loc.along (front ++ c :: back) := by
  rw [along_append]
  exact List.mem_append_right _ (.head _)

theorem line_le_along {loc : Location} {text : List Char} {p : Location × Char} (h : p ∈ loc.along text) :
    loc.line ≤ p.1.line := by
  induction text generalizing loc with
  | nil => cases h
  | cons c text ih =>
    rcases List.mem_cons.mp h with rfl | h
    · exact Nat.le_refl _
    · refine Nat.le_trans ?_ (ih h)
      unfold next
      split
      · exact Nat.le_succ _
      · exact Nat.le_refl _

/-- A line stands on one line, with its end. -/
theorem line_along {loc : Location} {line : List Char} (hline : '\n' ∉ line) {p : Location × Char}
    (h : p ∈ loc.along (line ++ ['\n'])) : p.1.line = loc.line := by
  induction line generalizing loc with
  | nil => rw [List.mem_singleton.mp h]
  | cons c line ih =>
    rcases List.mem_cons.mp h with rfl | h
    · rfl
    · have hc : c ≠ '\n' := fun e => hline (e ▸ .head _)
      have hnext : (loc.next c).line = loc.line := by rw [next, if_neg hc]
      rw [ih (fun hm => hline (.tail _ hm)) h, hnext]

/-- Of lines that are written one after the other each is what is counted as the line of its number. -/
theorem filter_along {lines : List (List Char)} (h : ∀ line ∈ lines, '\n' ∉ line) (first : Nat) {i : Nat}
    {line : List Char} (hi : lines[i]? = some line) :
    ((⟨first, 0⟩ : Location).along (lines.flatMap (· ++ ['\n']))).filter (·.1.line == first + i) =
      (⟨first + i, 0⟩ : Location).along (line ++ ['\n']) := by
  induction lines generalizing first i with
  | nil => cases hi
  | cons head lines ih =>
    obtain ⟨hhead, hlines⟩ := List.forall_mem_cons.mp h
    have hstop : (⟨first, 0⟩ : Location).advance (head ++ ['\n']) = ⟨first + 1, 0⟩ := by
      rw [advance_append, advance_flat _ hhead]
      rfl
    rw [List.flatMap_cons, along_append, hstop, List.filter_append]
    cases i with
    | zero =>
      -- All later lines have greater numbers.
      obtain rfl := Option.some.inj hi
      have hhere : ((⟨first, 0⟩ : Location).along (head ++ ['\n'])).filter (·.1.line == first + 0) =
          (⟨first, 0⟩ : Location).along (head ++ ['\n']) :=
        List.filter_eq_self.mpr fun p hp => beq_iff_eq.mpr (line_along hhead hp)
      have hlater : ((⟨first + 1, 0⟩ : Location).along (lines.flatMap (· ++ ['\n']))).filter (·.1.line == first + 0) =
          [] := by
        refine List.filter_eq_nil_iff.mpr fun p hp hline => ?_
        have hle : first + 1 ≤ p.1.line := line_le_along hp
        rw [beq_iff_eq] at hline
        omega
      rw [hhere, hlater, List.append_nil, Nat.add_zero]
    | succ i =>
      have hhere : ((⟨first, 0⟩ : Location).along (head ++ ['\n'])).filter (·.1.line == first + (i + 1)) = [] := by
        refine List.filter_eq_nil_iff.mpr fun p hp hline => ?_
        have heq : p.1.line = first := line_along hhead hp
        rw [beq_iff_eq] at hline
        omega
      have hnumber : first + (i + 1) = first + 1 + i := by omega
      rw [hhere, List.nil_append, hnumber]
      exact ih hlines (first + 1) hi

end Location

/-- A token starts at the place of a character of the text. -/
theorem Flow.start_mem_along {source : String} {t : Flow.Token} (ht : t ∈ (Flow.tokenize source).tokens)
    (hkind : t.kind ≠ .endOfFile) : ∃ c, (t.start, c) ∈ Location.start.along source.toList := by
  obtain ⟨loc, htokens⟩ := Lexeme.tokens_eq .start none (Lexeme.all source.toList)
  have ht : t ∈ Lexeme.tokens .start none (Lexeme.all source.toList) := ht
  rw [htokens] at ht
  rcases List.mem_append.mp ht with ht | ht
  · obtain ⟨part, hpart, -, hne, -⟩ := part_of_token ht
    obtain ⟨c, more, htext⟩ := List.exists_cons_of_ne_nil hne
    refine ⟨c, ?_⟩
    have hmem := Location.mem_along .start part.front c (more ++ part.back)
    rw [← List.cons_append, ← htext, part.join] at hmem
    rwa [← hpart.1]
  · rw [List.mem_singleton.mp ht] at hkind
    exact absurd rfl hkind

/-! ### Writing -/

namespace SourceWriter

theorem lines_foldl (w : SourceWriter) (fragments : List String) :
    (fragments.foldl line w).lines = w.lines ++ fragments.map oneLine := by
  induction fragments generalizing w with
  | nil => exact (List.append_nil _).symm
  | cons fragment fragments ih =>
    rw [List.foldl_cons, ih, line, List.map_cons, List.append_assoc, List.singleton_append]

/-- The source has each fragment on one line, with its end. -/
theorem finish_foldl (fragments : List String) : (fragments.foldl line .empty).finish.toList =
    (fragments.map fun fragment => Line.collapse fragment.toList).flatMap (· ++ ['\n']) := by
  rw [finish, lines_foldl]
  simp [empty, oneLine, List.flatMap_map, Function.comp_def]

end SourceWriter

/-- The expression stands in its item behind a blank and before a semicolon. -/
theorem Flow.fragment_toList (f : Fragment) : ∃ front : List Char, ∀ text : String,
    (Flow.fragment { f with text := text }).toList = front ++ ' ' :: (text.toList ++ [';']) := by
  let front (reference : String) : List Char := (f.marker ++ " fn __expr" ++ Numeral.text f.index ++ "(" ++
    ", ".intercalate (f.parameters.map Flow.parameterText) ++ ") -> " ++ reference ++ f.returnType ++ " =>").toList
  cases f.kind with
  | value => exact ⟨front "", fun text => by simp [front, Flow.fragment]⟩
  | reference => exact ⟨front "ref ", fun text => by simp [front, Flow.fragment]⟩

theorem Flow.oneLine_fragment (f : Fragment) (text : String) :
    oneLine (Flow.fragment { f with text := oneLine text }) = oneLine (Flow.fragment { f with text := text }) := by
  obtain ⟨front, hfront⟩ := Flow.fragment_toList f
  have hline (text : List Char) : Line.collapse (front ++ ' ' :: (text ++ [';'])) =
      Line.collapse front ++ ' ' :: (Line.collapse text ++ [';']) := by
    rw [Line.collapse_append_cons (by decide), Line.collapse_append text (by decide)]
    rfl
  have hcollapsed : (oneLine text).toList = Line.collapse text.toList := String.toList_ofList
  rw [oneLine, hfront, hcollapsed, hline, Line.collapse_collapse, oneLine, hfront, hline]

/-- Before each fragment the writer counts the fragments that are written, and in the end the source has one line for
each of them. A fragment is on its line with a space for each of its line breaks and as it is otherwise, and what is on
the line is what stands at the places that are counted as this line; all tokens start at such places. A text on one line
stays as it is, so for an item it does not matter whether its expression was put on one line before, as it is in a
batch. -/
theorem SourceWriter.lines_written (fragments : List String) :
    let source := (fragments.foldl line .empty).finish
    (∀ k ≤ fragments.length, ((fragments.take k).foldl line .empty).lineCount = k) ∧
      source.toList.count '\n' = fragments.length ∧ '\r' ∉ source.toList ∧
      (Line.ofText source.toList).length = fragments.length ∧
      (∀ (k : Nat) (fragment : String), fragments[k]? = some fragment → ∀ line,
        (Line.ofText source.toList)[k]? = some line ↔ Line.Collapses fragment.toList line) ∧
      (∀ (k : Nat) (line : List Char), (Line.ofText source.toList)[k]? = some line →
        (Location.start.along source.toList).filter (·.1.line == k) = Location.along ⟨k, 0⟩ (line ++ ['\n'])) ∧
      (∀ t ∈ (Flow.tokenize source).tokens, t.kind ≠ .endOfFile →
        ∃ c, (t.start, c) ∈ Location.start.along source.toList) ∧
      (∀ text, oneLine (oneLine text) = oneLine text) ∧
      (∀ (f : Fragment) (text : String),
        oneLine (Flow.fragment { f with text := oneLine text }) = oneLine (Flow.fragment { f with text := text })) ∧
      ∀ (unit : ExpressionUnit) (index : Nat), ∃ item, unit.fragment Flow.language index = .ok item ∧
        oneLine item = oneLine (Flow.fragment { unit.parts index with text := unit.text }) := by
  intro source
  let lines := fragments.map fun fragment => Line.collapse fragment.toList
  have hflat : ∀ line ∈ lines, Line.Flat line := by
    intro line hline
    obtain ⟨fragment, -, rfl⟩ := List.mem_map.mp hline
    exact Line.flat_collapse _
  have hsource : source.toList = lines.flatMap (· ++ ['\n']) := finish_foldl fragments
  have hlines : Line.ofText source.toList = lines := by rw [hsource, Line.ofText_lines hflat]
  refine ⟨fun k hk => ?_, ?_, ?_, ?_, fun k fragment hfragment line => ?_, fun k line hline => ?_,
    fun t => Flow.start_mem_along, fun text => ?_, Flow.oneLine_fragment,
    fun unit index => ⟨_, unit.fragment_flow index, Flow.oneLine_fragment (unit.parts index) unit.text⟩⟩
  · rw [lineCount, lines_foldl]
    simp [empty, hk]
  · rw [hsource, Line.count_newline_lines hflat, List.length_map]
  · rw [hsource]
    exact Line.return_notMem_lines hflat
  · rw [hlines, List.length_map]
  · rw [hlines, List.getElem?_map, hfragment, Option.map_some, Option.some_inj, Line.collapses_iff, eq_comm]
  · rw [hlines] at hline
    have hplaces := Location.filter_along (fun line hline => (hflat line hline).notMem) 0 hline
    rw [Nat.zero_add] at hplaces
    rw [hsource]
    exact hplaces
  · rw [oneLine, oneLine, String.toList_ofList, Line.collapse_collapse]

/-- A fragment that ends where one of its line breaks begins, before one that is a line break. -/
theorem SourceWriter.lines_written_returns :
    let source := (["a\r\nb\r", "\n"].foldl line .empty).finish
    source = "a b \n \n" ∧ (Line.ofText source.toList)[0]? = some ['a', ' ', 'b', ' '] ∧
      (Location.start.along source.toList).filter (·.1.line == 1) = Location.along ⟨1, 0⟩ [' ', '\n'] := by
  intro source
  have hsource : source = "a b \n \n" := by decide +kernel
  obtain ⟨-, -, -, -, hlines, hplaces, -⟩ := lines_written ["a\r\nb\r", "\n"]
  have hfirst : Line.Collapses "a\r\nb\r".toList ['a', ' ', 'b', ' '] :=
    .other (by decide) (by decide) (.both (.other (by decide) (by decide) (.carriageReturn nofun .nil)))
  have hsecond : Line.Collapses "\n".toList [' '] := .newline .nil
  exact ⟨hsource, (hlines 0 "a\r\nb\r" rfl _).mpr hfirst, hplaces 1 [' '] ((hlines 1 "\n" rfl _).mpr hsecond)⟩

end FlowCheck

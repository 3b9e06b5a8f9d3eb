import Mathlib.Data.List.Forall2
import FlowCheck.Attribution
import FlowCheck.Proofs.Marker

/-! Messages are found again in the texts of errors, whatever characters they have. So each error of a compiler is
    reported once, with its own message if the marker on its line names an expression. -/

namespace FlowCheck

open FlowCheck.Text

namespace Attribution

theorem behind?_append (front back : List Char) : behind? front (front ++ back) = some back := by
  rw [behind?, if_pos (List.isPrefixOf_iff_prefix.mpr ⟨back, rfl⟩), List.drop_left]

theorem behindPlace?_place (line column : Nat) (text : List Char) :
    behindPlace? ('(' :: (Numeral.digits line ++ ',' :: (Numeral.digits column ++ ')' :: ':' :: ' ' :: text))) =
      some text := by
  have hmem : ')' ∉ Numeral.digits line ++ ',' :: Numeral.digits column := by
    intro hm
    rcases List.mem_append.mp hm with hm | hm
    · exact Numeral.notMem_digits rfl _ hm
    · rcases List.mem_cons.mp hm with hm | hm
      · cases hm
      · exact Numeral.notMem_digits rfl _ hm
  have hcut := @cutFirst?_of_notMem ')' [':', ' '] _ text hmem
  simp only [List.append_assoc, List.cons_append, List.nil_append] at hcut
  rw [behindPlace?, hcut, Option.map_some]

/-- The message of an error is found in its text. -/
theorem message?_rendered {d : Diagnostic} {loc : Location} (herror : d.isError = true) (hloc : d.location = some loc)
    (hcode : d.code.toList ≠ []) (hplain : ∀ c ∈ d.code.toList, isBlank c = false) :
    message? d.rendered.toList = some d.message.toList := by
  have hseverity : d.severity = .error := beq_iff_eq.mp herror
  have hrendered : d.rendered.toList = '(' :: (Numeral.digits (loc.line + 1) ++ ',' ::
      (Numeral.digits (loc.column + 1) ++ ')' :: ':' :: ' ' :: (['e', 'r', 'r', 'o', 'r', ' '] ++
        (d.code.toList ++ ':' :: ([' '] ++ d.message.toList))))) := by
    simp [Diagnostic.rendered, hloc, hseverity, Severity.text, Numeral.text]
  -- A code may end in a colon, but it has no blank, so the first colon with a blank behind it is not in the code.
  have hspace : ∀ c ∈ d.code.toList, (c != ' ') = true := fun c hc => bne_iff_ne.mpr fun e => by
    cases e ▸ hplain c hc
  have hcut : cutFirst? [':', ' '] (d.code.toList ++ ':' :: ([' '] ++ d.message.toList)) =
      some (d.code.toList, d.message.toList) := cutFirst?_of_foreign hspace ⟨' ', by decide⟩ _
  have hblank : d.code.toList.any isBlank = false := List.any_eq_false.mpr fun c hc => by simp [hplain c hc]
  rw [message?, hrendered, behindPlace?_place, Option.bind_some, behind?_append, Option.bind_some, hcut,
    Option.bind_some]
  simp [hcode, hblank]

/-! ### Errors of expressions -/

/-- The expression that a marker means. -/
inductive Means (scope : ValidationScope) (m : Marker) (unit : ExpressionUnit) : Prop where
  /-- The expression at the place of the marker, which has the id of the marker. -/
  | here : scope.units[m.index]? = some unit → unit.id = m.expressionId → Means scope m unit
  /-- The first expression with the id of the marker, which the expression at the place does not have. -/
  | first {before after} : (∀ other, scope.units[m.index]? = some other → other.id ≠ m.expressionId) →
      scope.units = before ++ unit :: after → unit.id = m.expressionId →
      (∀ other ∈ before, other.id ≠ m.expressionId) → Means scope m unit

/-- The error that an error of a compiler is reported as. -/
inductive Reported (p : MarkerPattern) (scope : ValidationScope) (lines : List (List Char)) (d : Diagnostic) :
    ValidationError → Prop where
  /-- On its line there is the marker of an expression. -/
  | attributed {loc line m unit} : d.location = some loc → lines[loc.line]? = some line → p.findIn line = some m →
      Means scope m unit → Reported p scope lines d ⟨d.message, false, some unit.activity, some unit.id⟩
  /-- It has no line, or there is no marker on the line, or no expression has the id of the marker. -/
  | unattributed : (∀ loc line m, d.location = some loc → lines[loc.line]? = some line → p.findIn line = some m →
      ∀ unit ∈ scope.units, unit.id ≠ m.expressionId) → Reported p scope lines d ⟨d.rendered, false, none, none⟩

variable {p : MarkerPattern} {scope : ValidationScope} {lines : List (List Char)} {d : Diagnostic} {m : Marker}
  {unit : ExpressionUnit}

theorem Means.mem (h : Means scope m unit) : unit ∈ scope.units ∧ unit.id = m.expressionId := by
  cases h with
  | here hplace hid => exact ⟨List.mem_of_getElem? hplace, hid⟩
  | first _ hunits hid => exact ⟨by simp [hunits], hid⟩

theorem unit?_eq_some : unit? scope m = some unit ↔ Means scope m unit := by
  have hhere {other : ExpressionUnit} : scope.units[m.index]?.filter (·.id == m.expressionId) = some other ↔
      scope.units[m.index]? = some other ∧ other.id = m.expressionId := by
    rw [Option.filter_eq_some_iff, beq_iff_eq]
  rw [unit?, Option.or_eq_some_iff, hhere, Option.filter_eq_none_iff, ValidationScope.find?,
    List.find?_eq_some_iff_append]
  constructor
  · rintro (⟨hplace, hid⟩ | ⟨hplace, hid, before, after, hunits, hbefore⟩)
    · exact .here hplace hid
    · exact .first (fun other hother => by simpa using hplace other hother) hunits (beq_iff_eq.mp hid)
        fun other hother => by simpa using hbefore other hother
  · rintro (⟨hplace, hid⟩ | ⟨hplace, hunits, hid, hbefore⟩)
    · exact .inl ⟨hplace, hid⟩
    · exact .inr ⟨fun other hother => by simpa using hplace other hother, beq_iff_eq.mpr hid, _, _, hunits,
        fun other hother => by simpa using hbefore other hother⟩

theorem exists_unit? {unit : ExpressionUnit} (hunit : unit ∈ scope.units) (hid : unit.id = m.expressionId) :
    ∃ other, unit? scope m = some other := by
  have hfind : (scope.find? m.expressionId).isSome := List.find?_isSome.mpr ⟨unit, hunit, beq_iff_eq.mpr hid⟩
  obtain ⟨first, hfirst⟩ := Option.isSome_iff_exists.mp hfind
  rw [unit?, hfirst]
  exact Option.isSome_iff_exists.mp (by simp)

/-- The expression that a diagnostic is about stands on the line of the diagnostic. -/
theorem located_eq_some : (d.location.bind fun loc => unitOfLine? p scope lines loc.line) = some unit ↔
    ∃ loc line m, d.location = some loc ∧ lines[loc.line]? = some line ∧ p.findIn line = some m ∧
      Means scope m unit := by
  simp only [unitOfLine?, Option.bind_eq_some_iff, unit?_eq_some]
  constructor
  · rintro ⟨loc, hloc, m, ⟨line, hline, hm⟩, hunit⟩
    exact ⟨loc, line, m, hloc, hline, hm, hunit⟩
  · rintro ⟨loc, line, m, hloc, hline, hm, hunit⟩
    exact ⟨loc, hloc, m, ⟨line, hline, hm⟩, hunit⟩

theorem error_unattributed (h : (d.location.bind fun loc => unitOfLine? p scope lines loc.line) = none) :
    error p scope lines d = ⟨d.rendered, false, none, none⟩ := by
  simp only [error, h]
  cases message? d.rendered.toList <;> rfl

theorem reported_iff (herror : d.isError = true) (hcode : d.code.toList ≠ [])
    (hplain : ∀ c ∈ d.code.toList, isBlank c = false) {e : ValidationError} :
    Reported p scope lines d e ↔ error p scope lines d = e := by
  have hmessage : ∀ loc, d.location = some loc → message? d.rendered.toList = some d.message.toList := fun loc hloc =>
    message?_rendered herror hloc hcode hplain
  constructor
  · rintro (⟨hloc, hline, hm, hunit⟩ | hnone)
    · have hlocated := located_eq_some.mpr ⟨_, _, _, hloc, hline, hm, hunit⟩
      simp only [error, hmessage _ hloc, hlocated, String.ofList_toList]
    · have hlocated : (d.location.bind fun loc => unitOfLine? p scope lines loc.line) = none := by
        refine Option.eq_none_iff_forall_ne_some.mpr fun unit hunit => ?_
        obtain ⟨loc, line, m, hloc, hline, hm, hmeans⟩ := located_eq_some.mp hunit
        obtain ⟨hmem, hid⟩ := hmeans.mem
        exact hnone loc line m hloc hline hm unit hmem hid
      rw [error_unattributed hlocated]
  · rintro rfl
    cases hlocated : d.location.bind fun loc => unitOfLine? p scope lines loc.line with
    | some unit =>
      obtain ⟨loc, line, m, hloc, hline, hm, hunit⟩ := located_eq_some.mp hlocated
      simp only [error, hmessage loc hloc, hlocated, String.ofList_toList]
      exact .attributed hloc hline hm hunit
    | none =>
      rw [error_unattributed hlocated]
      refine .unattributed fun loc line m hloc hline hm unit hmem hid => ?_
      obtain ⟨other, hother⟩ := exists_unit? hmem hid
      rw [located_eq_some.mpr ⟨loc, line, m, hloc, hline, hm, unit?_eq_some.mp hother⟩] at hlocated
      cases hlocated

/-- Each error of the compiler is reported by one error, in their order, and nothing else is reported. -/
theorem errors_reported (p : MarkerPattern) (source : String) (scope : ValidationScope) {ds : List Diagnostic}
    (hcodes : ∀ d ∈ ds, d.code ≠ "" ∧ ∀ c ∈ d.code.toList, isBlank c = false) (es : List ValidationError) :
    errors p .keepAll ds source scope = es ↔
      List.Forall₂ (Reported p scope (Line.ofText source.toList)) (ds.filter (·.isError)) es := by
  have hreported : ∀ d ∈ ds.filter (·.isError), ∀ e, Reported p scope (Line.ofText source.toList) d e ↔
      error p scope (Line.ofText source.toList) d = e := by
    intro d hd e
    obtain ⟨hd, herror⟩ := List.mem_filter.mp hd
    obtain ⟨hcode, hplain⟩ := hcodes d hd
    exact reported_iff herror (fun h => hcode (String.toList_injective h)) hplain
  have herrors : errors p .keepAll ds source scope =
      (ds.filter (·.isError)).map (error p scope (Line.ofText source.toList)) := by
    simp [errors, Curator.keepAll, Function.comp_def]
  rw [herrors]
  generalize ds.filter (·.isError) = reports at hreported ⊢
  induction reports generalizing es with
  | nil => cases es <;> simp
  | cons d reports ih =>
    obtain ⟨hd, hrest⟩ := List.forall_mem_cons.mp hreported
    cases es with
    | nil => simp
    | cons e es =>
      rw [List.map_cons, List.cons_eq_cons, List.forall₂_cons]
      exact and_congr (hd e).symm (ih es hrest)

/-- An expression that moved, one whose id is there twice and one that is gone, with a code and a message that look like
parts of the text of an error. -/
theorem errors_reported_moved :
    let unit (id activity : String) : ExpressionUnit := { (default : ExpressionUnit) with
      id := id, activity := ⟨activity, activity⟩ }
    let scope : ValidationScope := ⟨[unit "b" "act0", unit "a" "act1", unit "b" "act2"], [], []⟩
    let ds : List Diagnostic :=
      [⟨.error, "A:", "(1,1): error B: \"x\"\n", some ⟨0, 9⟩⟩, ⟨.warning, "W", "", some ⟨0, 0⟩⟩,
        ⟨.error, "C", ": c", some ⟨1, 0⟩⟩, ⟨.error, "D", ")", some ⟨2, 0⟩⟩]
    (∀ d ∈ ds, d.code ≠ "" ∧ ∀ c ∈ d.code.toList, isBlank c = false) ∧
      errors Flow.language.marker .keepAll ds "/*@a#0@*/\r\n/*@b#2@*/\n/*@c#1@*/" scope =
        [⟨"(1,1): error B: \"x\"\n", false, some ⟨"act1", "act1"⟩, some "a"⟩,
          ⟨": c", false, some ⟨"act2", "act2"⟩, some "b"⟩, ⟨"(3,1): error D: )", false, none, none⟩] := by
  intro unit scope ds
  have hcodes : ∀ d ∈ ds, d.code ≠ "" ∧ ∀ c ∈ d.code.toList, isBlank c = false := by simp [ds, isBlank]
  have hlines : Line.ofText "/*@a#0@*/\r\n/*@b#2@*/\n/*@c#1@*/".toList =
      ["/*@a#0@*/".toList, "/*@b#2@*/".toList, "/*@c#1@*/".toList] := by rfl
  have hmoved : Flow.language.marker.findIn "/*@a#0@*/".toList = some ⟨"a", 0⟩ := by decide +kernel
  have htwice : Flow.language.marker.findIn "/*@b#2@*/".toList = some ⟨"b", 2⟩ := by decide +kernel
  have hgone : Flow.language.marker.findIn "/*@c#1@*/".toList = some ⟨"c", 1⟩ := by decide +kernel
  have hunits : scope.units = [unit "b" "act0"] ++ unit "a" "act1" :: [unit "b" "act2"] := rfl
  have hfirst : Means scope ⟨"a", 0⟩ (unit "a" "act1") := .first (by simp [scope, unit]) hunits rfl (by simp [unit])
  have hhere : Means scope ⟨"b", 2⟩ (unit "b" "act2") := .here rfl rfl
  have hrendered : "(3,1): error D: )" = Diagnostic.rendered ⟨.error, "D", ")", some ⟨2, 0⟩⟩ := by decide +kernel
  refine ⟨hcodes, (errors_reported _ _ scope hcodes _).mpr ?_⟩
  rw [hlines, hrendered]
  refine .cons (.attributed rfl rfl hmoved hfirst) (.cons (.attributed rfl rfl htwice hhere) (.cons ?_ .nil))
  refine .unattributed fun loc line m hloc hline hm other hother => ?_
  cases hloc
  cases hline
  cases hgone.symm.trans hm
  revert other
  decide

end Attribution

/-- A problem has a code that is a word. -/
theorem Flow.Problem.code_plain (p : Flow.Problem) :
    p.code.toList ≠ [] ∧ ∀ c ∈ p.code.toList, isBlank c = false := by
  have hcode : p.code.toList ≠ [] ∧ p.code.toList.all (fun c => !isBlank c) = true := by
    unfold code
    split <;> decide
  exact ⟨hcode.1, fun c hc => by simpa using List.all_eq_true.mp hcode.2 c hc⟩

end FlowCheck

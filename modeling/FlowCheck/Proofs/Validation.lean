import FlowCheck.Proofs.Batch
import FlowCheck.Validator

/-! Validation over Flow. What is reported is attributed to the expressions without gaps, and what is reported
    of an expression depends on none of the others but by the types of their results. -/

namespace FlowCheck

open FlowCheck.Text

/-! ### The source of a batch -/

/-- The lines of some expressions, the first of which is at place `k`. -/
def rowsOf (k : Nat) (units : List ExpressionUnit) : List Flow.Row := (units.zipIdx k).map fun at_ => at_.1.row at_.2

theorem rowsOf_cons (k : Nat) (unit : ExpressionUnit) (units : List ExpressionUnit) :
    rowsOf k (unit :: units) = unit.row k :: rowsOf (k + 1) units := rfl

theorem getElem?_rowsOf (units : List ExpressionUnit) (i : Nat) :
    (rowsOf 0 units)[i]? = units[i]?.map fun unit => unit.row i := by
  simp [rowsOf, List.getElem?_zipIdx, Function.comp_def]

theorem length_rowsOf (k : Nat) (units : List ExpressionUnit) : (rowsOf k units).length = units.length := by
  simp [rowsOf]

/-- The lines of a batch. -/
def linesOf (rows : List Flow.Row) : SourceWriter := ⟨rows.map fun r => String.ofList r.text⟩

theorem finish_linesOf (rows : List Flow.Row) : (linesOf rows).finish = String.ofList (Flow.Row.source rows) := by
  refine String.toList_injective ?_
  simp [SourceWriter.finish, linesOf, Flow.Row.source_eq, List.flatMap_map, Function.comp_def]

/-! ### Assembling -/

namespace Compilation

variable {Tree : Type}

theorem trees_linkAll (c : Compilation Tree) (rs : List Reference) : (c.linkAll rs).trees = c.trees := by
  unfold linkAll
  induction rs generalizing c with
  | nil => rfl
  | cons r rs ih =>
    rw [List.foldl_cons, ih, link]
    split <;> rfl

end Compilation

namespace Validator

variable (provider : ReferenceProvider) (config : Config) (loader : ModuleLoader) (curator : Curator)

/-- A validator over Flow as it is. -/
def plain : Validator Flow.SourceTree := ⟨Flow.language, provider, config, loader, curator⟩

/-- What is linked for some types of results. -/
def linked (a : Assembly Flow.SourceTree) (types : List TypeDescriptor) : Assembly Flow.SourceTree :=
  types.foldl (Assembly.extend provider) a

theorem trees_linked (a : Assembly Flow.SourceTree) (types : List TypeDescriptor) :
    (linked provider a types).compilation.trees = a.compilation.trees := by
  unfold linked
  induction types generalizing a with
  | nil => rfl
  | cons t ts ih => rw [List.foldl_cons, ih, Assembly.extend, Compilation.trees_linkAll]

/-- What is written and what is linked for some expressions. -/
theorem write_plain (k : Nat) (units : List ExpressionUnit) (a : Assembly Flow.SourceTree) (w : SourceWriter) :
    (plain provider config loader curator).write k units a w =
      (.ok ⟨w.lines ++ (linesOf (rowsOf k units)).lines⟩, linked provider a (units.map (·.resultType))) := by
  induction units generalizing k a w with
  | nil => simp [write, linesOf, rowsOf, linked]
  | cons unit units ih =>
    have hfragment : unit.fragment (plain provider config loader curator).language k =
        .ok (Flow.fragment (unit.parts k)) := unit.fragment_flow k
    rw [write, hfragment]
    dsimp only
    rw [ih, rowsOf_cons, SourceWriter.line, unit.text_row]
    simp [linesOf, linked, plain]

/-- The assembly for a scope. Of the expressions only the types of the results count. -/
def assembled (session : Session) (scope : ValidationScope) : Assembly Flow.SourceTree :=
  let v := plain provider config loader curator
  linked provider (.build provider session.cache (v.modules session.required scope)
    (config.namespacesWith scope.namespaces)) (scope.units.map (·.resultType))

theorem assemble_plain (session : Session) (scope : ValidationScope) :
    (plain provider config loader curator).assemble session scope =
      (.ok (linesOf (rowsOf 0 scope.units)), assembled provider config loader curator session scope) := by
  rw [assemble, write_plain]
  simp [SourceWriter.empty, assembled, plain]

/-- The table of types for a scope. -/
def table (session : Session) (scope : ValidationScope) : ExportTable :=
  let c := (assembled provider config loader curator session scope).compilation
  Flow.exportTable c.references c.namespaces

theorem compile_plain (session : Session) (scope : ValidationScope) (rows : List Flow.Row) :
    (plain provider config loader curator).compile (assembled provider config loader curator session scope)
      (linesOf rows).finish = .ok (Diagnostic.sort
        (Flow.Row.problems (table provider config loader curator session scope) rows)) := by
  have htrees : (assembled provider config loader curator session scope).compilation.trees = [] := by
    rw [assembled, trees_linked, Assembly.build, Compilation.new, Compilation.trees_linkAll]
  rw [finish_linesOf, ← Flow.Row.ofText_source]
  generalize String.ofList (Flow.Row.source rows) = source
  have happend : (assembled provider config loader curator session scope).append Flow.language source =
      .ok { assembled provider config loader curator session scope with
        compilation := { (assembled provider config loader curator session scope).compilation with
          trees := [.ofText source] } } := by
    simp only [Assembly.append, Compilation.addTree, htrees]
    rfl
  simp only [compile, plain, happend]
  simp only [bind, Except.bind, Flow.language, Flow.diagnose, table]
  simp

/-- What the compiler says of the batch of a scope. -/
def diagnostics {Tree : Type} (v : Validator Tree) (session : Session) (scope : ValidationScope) :
    Except Fault (List Diagnostic) := do
  v.compile (v.assemble session scope).2 (← (v.assemble session scope).1).finish

theorem diagnostics_plain (session : Session) (scope : ValidationScope) :
    (plain provider config loader curator).diagnostics session scope = .ok (Diagnostic.sort (Flow.Row.problems
      (table provider config loader curator session scope) (rowsOf 0 scope.units))) := by
  rw [diagnostics, assemble_plain, ← compile_plain]
  rfl

theorem validate_plain (session : Session) (scope : ValidationScope) :
    ((plain provider config loader curator).validate session (some scope)).result =
      .ok (Attribution.errors Flow.language.marker curator (Diagnostic.sort (Flow.Row.problems
        (table provider config loader curator session scope) (rowsOf 0 scope.units)))
        (linesOf (rowsOf 0 scope.units)).finish scope) := by
  simp only [validate, validateScope, assemble_plain]
  simp only [bind, Except.bind, compile_plain]
  rfl

end Validator

/-! ### Attribution -/

theorem row_flat (unit : ExpressionUnit) (index : Nat) : Line.Flat (unit.row index).text := by
  refine (unit.comment_flat index).append ?_
  refine Line.Flat.append (a := [' ', 'f', 'n']) ?_ (Line.flat_collapse _)
  simp [Line.Flat]

theorem ofText_linesOf (units : List ExpressionUnit) :
    Line.ofText (linesOf (rowsOf 0 units)).finish.toList = (rowsOf 0 units).map Flow.Row.text := by
  have hlines : Flow.Row.source (rowsOf 0 units) = ((rowsOf 0 units).map Flow.Row.text).flatMap (· ++ ['\n']) := by
    rw [Flow.Row.source_eq, List.flatMap_map]
  rw [finish_linesOf, String.toList_ofList, hlines, Line.ofText_lines]
  intro line hline
  obtain ⟨r, hr, rfl⟩ := List.mem_map.mp hline
  obtain ⟨⟨unit, index⟩, -, rfl⟩ := List.mem_map.mp hr
  exact row_flat unit index

namespace Attribution

/-- The marker of a line finds the expression of the line. -/
theorem unitOfLine?_row {scope : ValidationScope} (hlimit : scope.units.length ≤ Marker.indexLimit) {i : Nat}
    {unit : ExpressionUnit} (hunit : scope.units[i]? = some unit) :
    unitOfLine? Flow.language.marker scope ((rowsOf 0 scope.units).map Flow.Row.text) i = some unit := by
  obtain ⟨hi, -⟩ := List.getElem?_eq_some_iff.mp hunit
  have hmarker : Flow.language.marker.findIn (unit.row i).text = some ⟨unit.id, i⟩ := by
    rw [Flow.Row.text, unit.comment_row]
    exact MarkerPattern.findIn_render ⟨'@', by decide⟩ (Nat.lt_of_lt_of_le hi hlimit) _
  rw [unitOfLine?, List.getElem?_map, getElem?_rowsOf, hunit, Option.map_some, Option.map_some, Option.bind_some,
    hmarker, Option.bind_some, unit?, hunit]
  simp

/-- An error on the line of an expression, as an error of the expression. -/
def attributed (unit : ExpressionUnit) (d : Diagnostic) : ValidationError :=
  ⟨d.message, false, some unit.activity, some unit.id⟩

/-- The errors of an expression: those on its line, in their order. -/
def block (ds : List Diagnostic) (i : Nat) (unit : ExpressionUnit) : List ValidationError :=
  (ds.filter fun d => d.isError && d.onLine i).map (attributed unit)

theorem error_attributed {scope : ValidationScope} (hlimit : scope.units.length ≤ Marker.indexLimit) {i : Nat}
    {unit : ExpressionUnit} (hunit : scope.units[i]? = some unit) {d : Diagnostic} (hd : Flow.Row.ProblemOn i d)
    (herror : d.isError = true) :
    error Flow.language.marker scope ((rowsOf 0 scope.units).map Flow.Row.text) d = attributed unit d := by
  obtain ⟨p, loc, rfl, rfl⟩ := hd
  obtain ⟨hcode, hplain⟩ := p.code_plain
  have hmessage := message?_rendered herror rfl hcode hplain
  simp only [error, hmessage]
  simp only [Flow.Problem.located, Option.bind_some, unitOfLine?_row hlimit hunit, String.ofList_toList]
  rfl

theorem range_flatMap_zipIdx {α β : Type} (xs : List α) (f : Nat → List β) :
    (List.range xs.length).flatMap f = xs.zipIdx.flatMap fun x => f x.2 := by
  rw [List.range_eq_range', ← List.zipIdx_map_snd, List.flatMap_map]

/-- Diagnostics in their order are attributed expression by expression. -/
theorem errors_by_expression {scope : ValidationScope} (hlimit : scope.units.length ≤ Marker.indexLimit)
    {ds : List Diagnostic} (hsorted : ds.Pairwise (fun a b => a.le b = true))
    (hon : ∀ d ∈ ds, ∃ i < scope.units.length, Flow.Row.ProblemOn i d) :
    errors Flow.language.marker .keepAll ds (linesOf (rowsOf 0 scope.units)).finish scope =
      scope.units.zipIdx.flatMap fun unit => block ds unit.2 unit.1 := by
  have hlines := Diagnostic.by_line hsorted fun d hd => by
    obtain ⟨i, hi, h⟩ := hon d hd
    exact ⟨i, hi, by rw [h.onLine, beq_self_eq_true]⟩
  rw [range_flatMap_zipIdx] at hlines
  have hmap : errors Flow.language.marker .keepAll ds (linesOf (rowsOf 0 scope.units)).finish scope =
      (ds.filter (·.isError)).map (error Flow.language.marker scope ((rowsOf 0 scope.units).map Flow.Row.text)) := by
    rw [errors, ofText_linesOf, Curator.keepAll, List.map_map]
    rfl
  have hblock : ∀ unit ∈ scope.units.zipIdx, ((ds.filter (Diagnostic.onLine unit.2)).filter (·.isError)).map
      (error Flow.language.marker scope ((rowsOf 0 scope.units).map Flow.Row.text)) = block ds unit.2 unit.1 := by
    intro unit hunit
    rw [List.filter_filter, block]
    refine List.map_congr_left fun d hd => ?_
    obtain ⟨hd, hboth⟩ := List.mem_filter.mp hd
    obtain ⟨herror, hline⟩ := Bool.and_eq_true_iff.mp hboth
    obtain ⟨i, -, h⟩ := hon d hd
    have hi : i = unit.2 := by rwa [h.onLine, beq_iff_eq] at hline
    exact error_attributed hlimit (List.mem_zipIdx_iff_getElem?.mp hunit) (hi ▸ h) herror
  rw [hmap]
  conv => lhs; rw [hlines]
  rw [List.filter_flatMap, List.map_flatMap, List.flatMap_def, List.map_congr_left hblock, ← List.flatMap_def]

end Attribution

/-! ### Whole batches -/

/-- A session that requires the core module. -/
def Session.core : Session := ⟨.empty, .ofList [Flow.coreModule 0]⟩

namespace Validator

/-- A validator over Flow that finds no files and no modules by name. -/
def bare : Validator Flow.SourceTree := plain (.exportTables fun _ => none) .default (fun _ => none) .keepAll

variable (provider : ReferenceProvider) (config : Config) (loader : ModuleLoader)

/-- The validation of a scope always comes to an end, and what it gives is, expression by expression, the errors
that the compiler has on the line of the expression. -/
theorem validate_by_expression (session : Session) (scope : ValidationScope)
    (hlimit : scope.units.length ≤ Marker.indexLimit) :
    ∃ ds errors, (plain provider config loader .keepAll).diagnostics session scope = .ok ds ∧
      ((plain provider config loader .keepAll).validate session (some scope)).result = .ok errors ∧
      (∀ d ∈ ds, ∃ loc, d.location = some loc ∧ loc.line < scope.units.length) ∧
      errors = scope.units.zipIdx.flatMap (fun unit => Attribution.block ds unit.2 unit.1) ∧
      ∀ e ∈ errors, ∃ unit ∈ scope.units, e.source = some unit.activity ∧ e.expressionId = some unit.id := by
  have hon : ∀ d ∈ Diagnostic.sort (Flow.Row.problems (table provider config loader .keepAll session scope)
      (rowsOf 0 scope.units)), ∃ i < scope.units.length, Flow.Row.ProblemOn i d := by
    intro d hd
    obtain ⟨i, hi, h⟩ := Flow.Row.problems_on _ d (Diagnostic.mem_sort.mp hd)
    exact ⟨i, length_rowsOf 0 scope.units ▸ hi, h⟩
  refine ⟨_, _, diagnostics_plain .., validate_plain .., ?_,
    Attribution.errors_by_expression hlimit (Diagnostic.sorted_sort _) hon, ?_⟩
  · intro d hd
    obtain ⟨i, hi, p, loc, rfl, rfl⟩ := hon d hd
    exact ⟨loc, rfl, hi⟩
  · rw [Attribution.errors_by_expression hlimit (Diagnostic.sorted_sort _) hon]
    intro e he
    obtain ⟨unit, hunit, he⟩ := List.mem_flatMap.mp he
    obtain ⟨d, -, rfl⟩ := List.mem_map.mp he
    exact ⟨unit.1, List.fst_mem_of_mem_zipIdx hunit, rfl, rfl⟩

/-- Two expressions of one id, neither of which is whole. -/
theorem validate_by_expression_twins :
    let scope : ValidationScope := ⟨[.ofText "e" "1 +" "Core.Int", .ofText "e" "2 /* 3" "Core.Int"], [], []⟩
    scope.units.length ≤ Marker.indexLimit ∧ ∃ errors, (bare.validate .core (some scope)).result = .ok errors ∧
      ∀ e ∈ errors, ∃ unit ∈ scope.units, e.source = some unit.activity ∧ e.expressionId = some unit.id := by
  refine ⟨by decide +kernel, ?_⟩
  obtain ⟨_, errors, -, hresult, -, -, hall⟩ := validate_by_expression (.exportTables fun _ => none) .default
    (fun _ => none) .core ⟨[.ofText "e" "1 +" "Core.Int", .ofText "e" "2 /* 3" "Core.Int"], [], []⟩ (by decide +kernel)
  exact ⟨errors, hresult, hall⟩

/-- What the compiler says on the line of an expression depends on the expression and on what is linked; of the
other expressions only the types of their results are linked. -/
theorem diagnostics_independent (curator : Curator) (session : Session) {s t : ValidationScope}
    (hnamespaces : s.namespaces = t.namespaces) (hmodules : s.modules = t.modules)
    (htypes : s.units.map (·.resultType) = t.units.map (·.resultType)) {i : Nat} (hi : s.units[i]? = t.units[i]?) :
    ∃ ds es, (plain provider config loader curator).diagnostics session s = .ok ds ∧
      (plain provider config loader curator).diagnostics session t = .ok es ∧
      ds.filter (Diagnostic.onLine i) = es.filter (Diagnostic.onLine i) := by
  have hlength : s.units.length = t.units.length := by simpa using congrArg List.length htypes
  have htable : table provider config loader curator session s = table provider config loader curator session t := by
    simp only [table, assembled, modules, hnamespaces, hmodules, htypes]
  refine ⟨_, _, diagnostics_plain .., diagnostics_plain .., ?_⟩
  rw [Diagnostic.filter_sort, Diagnostic.filter_sort, Flow.Row.filter_problems, Flow.Row.filter_problems, htable,
    getElem?_rowsOf, getElem?_rowsOf, hi, length_rowsOf, length_rowsOf, hlength]

/-- A comment that is left open before an expression changes nothing of it. -/
theorem diagnostics_independent_comment :
    let s : ValidationScope := ⟨[.ofText "d" "1" "Core.Int", .ofText "e" "2 +" "Core.Int"], [], []⟩
    let t : ValidationScope := ⟨[.ofText "z" "fn /* \"" "Core.Int", .ofText "e" "2 +" "Core.Int"], [], []⟩
    s.namespaces = t.namespaces ∧ s.modules = t.modules ∧
      s.units.map (·.resultType) = t.units.map (·.resultType) ∧ s.units[1]? = t.units[1]? ∧
      ∃ ds es, bare.diagnostics .core s = .ok ds ∧ bare.diagnostics .core t = .ok es ∧
        ds.filter (Diagnostic.onLine 1) = es.filter (Diagnostic.onLine 1) := by
  intro s t
  have htypes : s.units.map (·.resultType) = t.units.map (·.resultType) := by
    simp only [s, t, ExpressionUnit.ofText, List.map]
  exact ⟨rfl, rfl, htypes, rfl, diagnostics_independent (s := s) (t := t) (.exportTables fun _ => none)
    .default (fun _ => none) .keepAll .core rfl rfl htypes rfl⟩

end Validator

end FlowCheck

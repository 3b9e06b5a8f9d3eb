import FlowCheck.Proofs.Acceptance
import FlowCheck.Proofs.Flow.Names
import FlowCheck.Proofs.Flow.OneLine

/-! Names for which an expression has no variable. Of an expression by itself each such name is reported once for each
    time it occurs, in the order of the text, and no other name is. -/

namespace FlowCheck

namespace Flow

open FlowCheck.Text FlowCheck.Flow.Parser

/-! ### Places in their order -/

/-- Of two tokens the first starts before the second. -/
abbrev InOrder (t u : Token) : Prop := t.start.le u.start = true

theorem Lexeme.placed_inOrder (start : Location) (last : Option Location) (ls : List Lexeme) :
    (Lexeme.placed start last ls).Pairwise InOrder := by
  refine (placed_apart start last ls).imp_of_mem fun ht _ hstop => ?_
  exact Location.le_trans (placed_within ht).2.1 hstop

theorem Row.tokens_inOrder (k : Nat) (final : Bool) (r : Row) :
    (r.tokens k ++ [r.ahead k final]).Pairwise InOrder := by
  have hline := (Lexeme.placed_line (r.start k) (some (r.start k)) (Row.start_flat (r := r)) (by simp)).1
  refine List.pairwise_append.mpr ⟨Lexeme.placed_inOrder .., List.pairwise_singleton .., ?_⟩
  intro t ht u hu
  obtain rfl := List.mem_singleton.mp hu
  have hk : t.start.line = k := (hline t ht).1
  simp [InOrder, Location.le, Row.ahead, hk]

/-- The names in the body of an item stand in the order of its tokens. -/
theorem names_inOrder {start : Location} {ts rest : List Token} {i : Item} (h : Reads (item start) ts i rest)
    (hts : ts.Pairwise InOrder) : i.body.names.Pairwise fun x y => x.2.le y.2 = true := by
  obtain ⟨s, arrow, more, semicolon, hsignature, -, hbody, -⟩ := reads_item h
  have hmore : more <:+ ts := (List.suffix_cons _ _).trans hsignature.suffix
  have hnames := namesOf_sublist false more
  rw [keepsNames_expression hbody, List.map_append] at hnames
  have hsub : (i.body.names.map (·.2)).Sublist (ts.map (·.start)) :=
    ((List.sublist_append_left ..).trans hnames).trans (hmore.sublist.map _)
  have hstarts : (ts.map (·.start)).Pairwise fun x y => x.le y = true := List.pairwise_map.mpr hts
  exact List.pairwise_map.mp (hstarts.sublist hsub)

/-! ### Lines of whole expressions -/

/-- A line that says an item, and whose lexemes are right, is read as that item and no more. -/
theorem Row.read_whole {r : Row} (k : Nat) (final : Bool) (name : String) {xs : List Parameter}
    (hxs : ∀ x ∈ xs, IsType x.typeName) (kind : ExpressionKind) {type : String} {t : TypeExpr}
    (ht : TypeExpr.ofText? type = some t) {text : String} {body : Expr} (hbody : Expr.ofText? text = some body)
    (h : content r.inner = ⟨itemKinds name xs kind type text.toList, []⟩) :
    r.lexical k final = [] ∧ ∃ start item, r.read k final = ([item], []) ∧ ItemAs name xs kind t body item ∧
      Reads (Flow.item start) (r.tokens k ++ [r.ahead k final]) item [r.ahead k final] := by
  have hnone : ∀ l ∈ Lexeme.all r.inner, l.problems = [] :=
    List.flatMap_eq_nil_iff.mp (congrArg Content.problems h)
  have hclosed : (Lexeme.all r.inner).map Row.resumed = Lexeme.all r.inner :=
    Row.resumed_of_closed fun l hl => by simp [hnone l hl]
  have hkinds : (r.tokens k).map (·.kind) = itemKinds name xs kind type text.toList :=
    (Lexeme.placed_kind ..).trans (congrArg Content.kinds h)
  obtain ⟨item, hitem, has⟩ : ∃ item, Reads (Flow.item (r.head k none).start) (r.tokens k ++ [r.ahead k final]) item
      [r.ahead k final] ∧ ItemAs name xs kind t body item := item_pasted name hxs kind ht hbody _ hkinds
  have hround : round (r.head k none) (r.tokens k ++ [r.ahead k final]) = ([item], [], [r.ahead k final]) := by
    obtain ⟨_, hread⟩ := hitem
    have hfn : (r.head k none).kind = .symbol .keywordFn := rfl
    rw [round, if_pos hfn, hread]
  refine ⟨?_, _, item, ?_, has, hitem⟩
  · rw [Row.lexical, hclosed, ite_self]
    exact diagnostics_eq_nil.mpr (congrArg Content.problems h)
  · show itemsBefore [r.ahead k final].length _ = _
    rw [itemsBefore_cons (List.suffix_append ..), hround, itemsBefore_length]
    rfl

/-- The names of a text that is an expression are those that a scan of the text finds. -/
theorem names_ofText {text : String} {body : Expr} (h : Expr.ofText? text = some body) :
    body.names.map (·.1) = freeIdentifiers text := by
  obtain ⟨-, rest, hreads, hend⟩ := wholeText?_iff.mp h
  obtain ⟨w, last, htokens, hlast, hkinds⟩ := tokenize_tokens text
  rw [htokens] at hreads
  obtain rfl := reads_whole (V := Expr.Alike) (fun A => A.respects_expression) hlast (hkinds ▸ endOfFile_notMem _)
    hreads hend
  have hrest : namesOf false [last] = [] := by simp [namesOf, hlast]
  rw [freeIdentifiers, freeIdentifiers_go_eq, htokens, keepsNames_expression hreads, hrest, List.append_nil]

end Flow

namespace ExpressionUnit

open FlowCheck.Text FlowCheck.Flow

variable (unit : ExpressionUnit)

/-- The types of the line of an expression are types to read, and on one line no comment goes on behind one. -/
def HasTypes : Prop := ∀ source ∈ unit.types, IsType source ∧ endsInComment (oneLine source).toList = false

instance : Decidable unit.HasTypes := inferInstanceAs (Decidable (∀ source ∈ unit.types, _ ∧ _))

theorem HasTypes.isType {unit : ExpressionUnit} (h : unit.HasTypes) :
    ∀ source ∈ unit.types, IsType (oneLine source) := fun source hsource =>
  isType_oneLine (h source hsource).1 (h source hsource).2

/-- The names of an expression for which it has no variable, each time they occur. -/
def undefinedNames : List String :=
  (freeIdentifiers unit.text).filter fun name => (unit.environment.resolve name).isNone

theorem content_inner_whole (index : Nat) {body : Expr} (hbody : Expr.ofText? (oneLine unit.text) = some body)
    (hopen : endsInComment (oneLine unit.text).toList = false) (htypes : unit.HasTypes) :
    content (unit.row index).inner = ⟨itemKinds (itemName index) (unit.resolved.map flatParam) unit.kind
      (oneLine unit.resultType.display) (oneLine unit.text).toList, []⟩ := by
  have hnames : ∀ x ∈ unit.resolved.map flatParam, Named x.name := by
    intro x hx
    obtain ⟨y, hy, rfl⟩ := List.mem_map.mp hx
    exact unit.named_resolved y hy
  have hclosed : (∃ source ∈ oneLine unit.resultType.display :: (unit.resolved.map flatParam).map (·.typeName),
      endsInComment source.toList = true) → False := by
    rintro ⟨source, hsource, hends⟩
    rw [List.map_map] at hsource
    rcases List.mem_cons.mp hsource with rfl | hsource
    · exact Bool.false_ne_true ((htypes _ (.head _)).2.symm.trans hends)
    · obtain ⟨x, hx, rfl⟩ := List.mem_map.mp hsource
      exact Bool.false_ne_true ((htypes _ (.tail _ (List.mem_map_of_mem hx))).2.symm.trans hends)
  have hsig := says_signature (S := False) (named_itemName index) hnames
    (unit.isType_flatParam htypes.isType) (htypes.isType _ (.head _)) hclosed unit.kind
  obtain ⟨hproblems, -⟩ := Expr.ofText?_spec hbody
  have htext : content (oneLine unit.text ++ ";").toList =
      ⟨(content (oneLine unit.text).toList).kinds ++ [.symbol .semicolon], []⟩ := by
    rw [String.toList_append, show ";".toList = [';'] from rfl, content_append (by decide) hproblems hopen,
      content_sign (s := .semicolon) (by decide), content_nil]
    show Content.mk _ _ = Content.mk _ _
    rw [hproblems]
    rfl
  rw [inner_eq, (content_item hsig _).resolve_right fun h => h.1, htext]
  show Content.mk _ _ = Content.mk _ _
  simp [itemKinds]

/-- What is reported on the line of an expression by itself of unknown names: its undefined names, in their order. -/
theorem unknown_on_line (table : ExportTable) (index : Nat) (final : Bool) {body : Expr}
    (hflat : Line.Flat unit.text.toList) (hbody : Expr.ofText? unit.text = some body)
    (hopen : endsInComment unit.text.toList = false) (htypes : unit.HasTypes) :
    ∃ names : List (String × Location), names.map (·.1) = unit.undefinedNames ∧
      names.Pairwise (fun x y => x.2.le y.2 = true) ∧
      ((unit.row index).diagnostics table index final).filter isUnknownName = names.map unknownAt := by
  have hline : oneLine unit.text = unit.text := by rw [oneLine, Line.collapse_flat hflat, String.ofList_toList]
  obtain ⟨t, ht⟩ := (htypes.isType _ (.head _)).spec
  obtain ⟨hlexical, start, item, hread, has, hitem⟩ := Row.read_whole (r := unit.row index) index final (itemName index)
    (unit.isType_flatParam htypes.isType) unit.kind ht (hline.symm ▸ hbody)
    (unit.content_inner_whole index (hline.symm ▸ hbody) (hline.symm ▸ hopen) htypes)
  have hparams : item.params.map (·.name) = unit.boundNames := by
    rw [names_of_readAs has.params, ← unit.names_resolved, List.map_map]
    rfl
  have hdiagnostics : (unit.row index).diagnostics table index final = checkItem table item := by
    simp [Row.diagnostics, Row.syntactic, Row.semantic, hread, hlexical]
  have hnames : (item.body.names.map (·.1)).filter (fun name => name ∉ item.params.map (·.name)) =
      unit.undefinedNames := by
    rw [← has.body.names, names_ofText hbody, undefinedNames, hparams]
    refine List.filter_congr fun name hname => ?_
    cases hresolve : unit.environment.resolve name <;> simp [boundNames, hname, hresolve]
  refine ⟨item.body.names.filter fun x => x.1 ∉ item.params.map (·.name), ?_, ?_, ?_⟩
  · rw [← hnames, List.filter_map]
    rfl
  · exact (names_inOrder hitem (Row.tokens_inOrder index final _)).filter _
  · rw [hdiagnostics, filter_checkItem]

end ExpressionUnit

namespace Validator

open FlowCheck.Text FlowCheck.Flow

variable (provider : ReferenceProvider) (config : Config) (loader : ModuleLoader)

theorem block_unknown {table : ExportTable} {units : List ExpressionUnit} {i : Nat} {unit : ExpressionUnit}
    (hunit : units[i]? = some unit) {names : List (String × Location)}
    (hsorted : names.Pairwise fun x y => x.2.le y.2 = true)
    (hnames : ((unit.row i).diagnostics table i (i + 1 == units.length)).filter isUnknownName = names.map unknownAt) :
    Attribution.block ((Diagnostic.sort (Row.problems table (rowsOf 0 units))).filter isUnknownName) i unit =
      names.map fun x => Attribution.attributed unit (unknownAt x) := by
  have hline : (Row.problems table (rowsOf 0 units)).filter (Diagnostic.onLine i) =
      (unit.row i).diagnostics table i (i + 1 == units.length) := by
    rw [Row.filter_problems, getElem?_rowsOf, hunit, length_rowsOf]
    rfl
  have hpairs : (names.map unknownAt).Pairwise fun a b => a.le b = true := List.pairwise_map.mpr hsorted
  have hunknown : ((Diagnostic.sort (Row.problems table (rowsOf 0 units))).filter isUnknownName).filter
      (Diagnostic.onLine i) = names.map unknownAt := by
    rw [Diagnostic.filter_sort, Diagnostic.filter_sort, List.filter_comm, hline, hnames]
    exact List.mergeSort_of_pairwise hpairs
  have herrors : (names.map unknownAt).filter (·.isError) = names.map unknownAt :=
    List.filter_eq_self.mpr fun d hd => by
      obtain ⟨x, -, rfl⟩ := List.mem_map.mp hd
      rfl
  rw [Attribution.block, ← List.filter_filter, hunknown, herrors, List.map_map]
  rfl

/-- The unknown names that validation reports of an expression by itself are the names for which it has no variable,
one report for each time such a name occurs, in the order of the text. -/
theorem undefined_by_expression (session : Session) (scope : ValidationScope)
    (hlimit : scope.units.length ≤ Marker.indexLimit) :
    ∃ ds errors, (plain provider config loader .keepAll).diagnostics session scope = .ok ds ∧
      ((plain provider config loader .keepAll).validate session (some scope)).result = .ok errors ∧
      errors = scope.units.zipIdx.flatMap (fun unit => Attribution.block ds unit.2 unit.1) ∧
      ∀ i unit body, scope.units[i]? = some unit → Line.Flat unit.text.toList → Expr.ofText? unit.text = some body →
        endsInComment unit.text.toList = false → unit.HasTypes →
          body.names.map (·.1) = freeIdentifiers unit.text ∧
          Attribution.block (ds.filter isUnknownName) i unit = unit.undefinedNames.map fun name =>
            ⟨(Problem.unknownName name).message, false, some unit.activity, some unit.id⟩ := by
  refine ⟨_, _, diagnostics_plain .., validate_plain .., Attribution.errors_by_expression hlimit
    (Diagnostic.sorted_sort _) ?_, ?_⟩
  · intro d hd
    obtain ⟨i, hi, h⟩ := Row.problems_on _ d (Diagnostic.mem_sort.mp hd)
    exact ⟨i, length_rowsOf 0 scope.units ▸ hi, h⟩
  · intro i unit body hunit hflat hbody hopen htypes
    obtain ⟨names, hundefined, hsorted, hnames⟩ := unit.unknown_on_line _ i (i + 1 == scope.units.length) hflat hbody
      hopen htypes
    rw [block_unknown hunit hsorted hnames, ← hundefined, List.map_map]
    exact ⟨names_ofText hbody, rfl⟩

/-- A name without a variable that occurs twice, and one with a variable, behind a text with an open comment. -/
theorem undefined_by_expression_twice :
    let unit : ExpressionUnit := { ExpressionUnit.ofText "e" "gone ? -size : gone.size" "Core.Int" with
      environment := .declare .empty "size" (.ofFullName "Core.Int" (coreModule 0) none []) }
    let scope : ValidationScope := ⟨[.ofText "d" "1 /*" "Core.Int", unit], [], []⟩
    scope.units.length ≤ Marker.indexLimit ∧ Line.Flat unit.text.toList ∧ endsInComment unit.text.toList = false ∧
      unit.HasTypes ∧ ∃ body ds, Expr.ofText? unit.text = some body ∧ bare.diagnostics .core scope = .ok ds ∧
        (Attribution.block (ds.filter isUnknownName) 1 unit).map (·.message) =
          [(Problem.unknownName "gone").message, (Problem.unknownName "gone").message] := by
  intro unit scope
  have hlimit : scope.units.length ≤ Marker.indexLimit := by decide +kernel
  have hflat : Line.Flat unit.text.toList := by simp [Line.Flat, unit, ExpressionUnit.ofText]
  have hopen : endsInComment unit.text.toList = false := by decide +kernel
  have htypes : unit.HasTypes := by decide +kernel
  have hnames : unit.undefinedNames = ["gone", "gone"] := by decide +kernel
  obtain ⟨body, hbody⟩ := Option.isSome_iff_exists.mp (show (Expr.ofText? unit.text).isSome = true by decide +kernel)
  obtain ⟨ds, errors, hds, -, -, hundefined⟩ :=
    undefined_by_expression (.exportTables fun _ => none) .default (fun _ => none) .core scope hlimit
  obtain ⟨-, hblock⟩ := hundefined 1 unit body rfl hflat hbody hopen htypes
  refine ⟨hlimit, hflat, hopen, htypes, body, ds, hbody, hds, ?_⟩
  rw [hblock, hnames]
  rfl

/-- A comment at the end of a type goes on behind it, and then no unknown name is reported. -/
theorem undefined_swallowed :
    let unit : ExpressionUnit := .ofText "e" "gone" "Core.Int //"
    Line.Flat unit.text.toList ∧ (Expr.ofText? unit.text).isSome ∧ endsInComment unit.text.toList = false ∧
      (∀ source ∈ unit.types, IsType source) ∧ unit.undefinedNames = ["gone"] ∧
      (bare.diagnostics .core ⟨[unit], [], []⟩).map (fun ds => Attribution.block (ds.filter isUnknownName) 0 unit) =
        .ok [] := by
  intro unit
  have hflat : Line.Flat unit.text.toList := by simp [Line.Flat, unit, ExpressionUnit.ofText]
  exact ⟨hflat, by decide +kernel, by decide +kernel, by decide +kernel, by decide +kernel, by decide +kernel⟩

end Validator

end FlowCheck

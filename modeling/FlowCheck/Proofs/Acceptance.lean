import FlowCheck.Proofs.Template
import FlowCheck.Proofs.Validation

/-! What it means for a text that nothing is reported of it. The text starts with one expression, and is one
    expression unless it has a semicolon of its own: then further items follow. -/

namespace FlowCheck.Flow

open FlowCheck.Text FlowCheck.Flow.Parser

/-! ### Texts before a semicolon -/

/-- The text starts with one expression. A semicolon ends it, which is written behind the text or is the text's own;
then further items follow it in the text. A comment may be left open if this is not the last text. -/
structure StartsWithExpression (last : Bool) (text : String) : Prop where
  lexical : ∀ d ∈ (tokenize (text ++ ";")).diagnostics, last = false ∧ ∃ loc, d = Problem.unclosedComment.located loc
  items : ∃ body semicolon rest, Reads expression (tokenize (text ++ ";")).tokens body (semicolon :: rest) ∧
    semicolon.kind = .symbol .semicolon ∧ (itemsOf rest).2 = []
  whole : (∀ t ∈ (tokenize text).tokens, t.kind ≠ .symbol .semicolon) → (Expr.ofText? text).isSome

/-- An expression and items that are read before a further item are read at the end of a text as well. -/
theorem items_of_before {w : List Token} {ahead : Token} (hahead : startsItem ahead = true) {body : Expr}
    {semicolon : Token} {rest : List Token} (hsemicolon : semicolon.kind = .symbol .semicolon)
    (hbody : Reads expression (w ++ [ahead]) body (semicolon :: rest)) (hrest : (itemsBefore 1 rest).2 = [])
    {source : String} (hkinds : w.map (·.kind) = (content source.toList).kinds) :
    ∃ body semicolon rest, Reads expression (tokenize source).tokens body (semicolon :: rest) ∧
      semicolon.kind = .symbol .semicolon ∧ (itemsOf rest).2 = [] := by
  obtain ⟨v, last, htokens, hlast, hv⟩ := tokenize_tokens source
  have hkind : ahead.kind = .symbol .keywordFn ∨ ahead.kind = .endOfFile := by simpa [startsItem] using hahead
  have hinert : ahead.kind.Inert := hkind.imp_right fun h => .inr (.inr h)
  have hstarts : startsItem last = true := by simp [startsItem, hlast]
  let A := Alignment.free [ahead] [last] hinert (.inr (.inr (.inr hlast)))
  have haligned : A.Aligned (w ++ [ahead]) (v ++ [last]) :=
    .of_kinds (fun _ _ => trivial) (hkinds.trans hv.symm) (hkinds ▸ endOfFile_notMem _)
  obtain ⟨body', rest', hbody', -, hafter⟩ := A.respects_expression.reads haligned hbody
  rw [htokens]
  generalize hts : semicolon :: rest = ts at hafter
  cases hafter with
  | stop =>
    obtain ⟨rfl, -⟩ := List.cons_eq_cons.mp hts
    simp [hsemicolon] at hkind
  | @cons t t' ts ts' ht hkind hafter =>
    obtain ⟨rfl, rfl⟩ := List.cons_eq_cons.mp hts
    refine ⟨body', t', ts', hbody', ht.kind ▸ hsemicolon, ?_⟩
    have hproblems := (Alignment.itemsBefore_aligned (A := A) hahead hstarts hafter).2
    have hnone : (itemsBefore 1 ts').2 = [] := by
      have hleft : (itemsBefore A.left.length rest).2 = [] := hrest
      rw [hleft] at hproblems
      exact List.forall₂_nil_left_iff.mp hproblems
    let B := Alignment.free [last] [last] (.inr (.inr (.inr hlast))) (.inr (.inr (.inr hlast)))
    have hself : B.Aligned ts' ts' := hafter.right_self fun _ _ => trivial
    have hall : (itemsOf ts').2 = (itemsBefore 1 ts').2 ++ (itemsOf [last]).2 :=
      congrArg Prod.snd (Alignment.itemsOf_eq_before (A := B) hstarts hstarts hself)
    rw [hall, hnone, itemsOf_end hlast, List.nil_append]

/-- A text without a semicolon of its own that is read up to the one behind it is an expression by itself. -/
theorem isSome_ofText? {text : String}
    (hproblems : ∀ p ∈ (content (text ++ ";").toList).problems, p = .unclosedComment)
    {body : Expr} {semicolon : Token} {rest : List Token} (hsemicolon : semicolon.kind = .symbol .semicolon)
    (hbody : Reads expression (tokenize (text ++ ";")).tokens body (semicolon :: rest))
    (hnone : ∀ t ∈ (tokenize text).tokens, t.kind ≠ .symbol .semicolon) : (Expr.ofText? text).isSome := by
  obtain ⟨v, last, htokens, hlast, hv⟩ := tokenize_tokens (text ++ ";")
  obtain ⟨u, stop, htext, hstop, hu⟩ := tokenize_tokens text
  have hlist : (text ++ ";").toList = text.toList ++ [';'] := by simp
  rw [hlist] at hv hproblems
  rw [htokens] at hbody
  have hown : .symbol .semicolon ∉ (content text.toList).kinds := by
    intro hm
    rw [← hu] at hm
    obtain ⟨t, ht, hkind⟩ := List.mem_map.mp hm
    exact hnone t (htext ▸ List.mem_append_left _ ht) hkind
  have hwritten : .symbol .semicolon ∈ (content (text.toList ++ [';'])).kinds := by
    rcases List.mem_append.mp (hbody.suffix.mem (List.mem_cons_self ..)) with hm | hm
    · exact hv ▸ hsemicolon ▸ List.mem_map_of_mem hm
    · rw [List.mem_singleton.mp hm, hlast] at hsemicolon
      cases hsemicolon
  rcases content_semicolon text.toList with ⟨happend, hclosed⟩ | hsame | hstring
  · rw [happend] at hv hproblems
    have hclean : (content text.toList).problems = [] := by
      refine List.eq_nil_iff_forall_not_mem.mpr fun p hp => ?_
      exact hclosed (hproblems p (List.mem_append_left _ hp) ▸ hp)
    obtain ⟨w, w', rfl, hw, hw'⟩ := List.map_eq_append_iff.mp hv
    obtain ⟨mark, rfl, hmark⟩ := List.map_eq_singleton_iff.mp hw'
    have heof : .endOfFile ∉ w.map (·.kind) := hw ▸ endOfFile_notMem _
    rw [List.append_assoc, List.singleton_append] at hbody
    have hbefore : mark :: [last] <:+ semicolon :: rest :=
      reads_before (V := Expr.Alike) (fun A => A.respects_expression) (.inr (.inl hmark)) heof hbody
    have hrest : semicolon :: rest = mark :: [last] := by
      refine eq_of_current hbefore hbody.suffix ?_
      show semicolon.kind ∉ _
      rwa [hsemicolon, hw]
    rw [hrest] at hbody
    let A := Alignment.free (mark :: [last]) [stop] (.inr (.inl hmark)) (.inr (.inr (.inr hstop)))
    have haligned : A.Aligned (w ++ mark :: [last]) (u ++ [stop]) :=
      .of_kinds (fun _ _ => trivial) (hw.trans hu.symm) heof
    obtain ⟨body', rest', hbody', -, hafter⟩ := A.respects_expression.reads haligned hbody
    obtain rfl : rest' = [stop] := hafter.of_left
    have hwhole : Expr.ofText? text = some body' :=
      wholeText?_iff.mpr ⟨tokenize_diagnostics.mpr hclean, [stop], htext ▸ hbody', hstop⟩
    rw [hwhole]
    rfl
  · exact absurd (hsame ▸ hwritten) hown
  · exact nomatch hproblems _ hstring

/-! ### Lines without problems -/

namespace Row

variable {k : Nat} {final : Bool} {r : Row}

theorem problems_of_lexical (h : r.lexical k final = []) :
    ∀ p ∈ (content r.inner).problems, final = false ∧ p = .unclosedComment := by
  intro p hp
  obtain ⟨l, hl, hp⟩ := List.mem_flatMap.mp hp
  cases final with
  | true =>
    have hnone : (Content.ofLexemes (Lexeme.all r.inner)).problems = [] := diagnostics_eq_nil.mp h
    exact absurd (List.mem_flatMap.mpr ⟨l, hl, hp⟩) (List.eq_nil_iff_forall_not_mem.mp hnone p)
  | false =>
    have hnone : (Content.ofLexemes ((Lexeme.all r.inner).map resumed)).problems = [] := diagnostics_eq_nil.mp h
    by_contra hne
    have hm : p ∈ (resumed l).problems := List.mem_filter.mpr ⟨hp, by simpa using hne⟩
    have hmem := List.mem_flatMap.mpr ⟨_, List.mem_map_of_mem hl, hm⟩
    exact absurd hmem (List.eq_nil_iff_forall_not_mem.mp hnone p)

theorem item_of_syntactic (h : r.syntactic k final = []) :
    ∃ start i rest, Reads (item start) (r.tokens k ++ [r.ahead k final]) i rest ∧ (itemsBefore 1 rest).2 = [] := by
  have hsuffix : [r.ahead k final] <:+ r.tokens k ++ [r.ahead k final] := List.suffix_append ..
  have hall : (itemsBefore [r.ahead k final].length (r.head k none :: (r.tokens k ++ [r.ahead k final]))).2 = [] := h
  rw [itemsBefore_cons hsuffix] at hall
  obtain ⟨hfirst, hlater⟩ := List.append_eq_nil_iff.mp hall
  obtain ⟨i, hitem⟩ := round_item rfl hfirst
  exact ⟨_, i, _, hitem, hlater⟩

end Row

end FlowCheck.Flow

namespace FlowCheck.ExpressionUnit

open FlowCheck.Text FlowCheck.Flow FlowCheck.Flow.Parser

variable (unit : ExpressionUnit) (index : Nat)

theorem inner_eq : (unit.row index).inner = signatureText (itemName index) (unit.resolved.map flatParam) unit.kind
    (oneLine unit.resultType.display) ++ ([' ', '=', '>', ' '] ++ (oneLine unit.text ++ ";").toList) := by
  have hflat : Line.Flat ('=' :: '>' :: ' ' :: (Line.collapse unit.text.toList ++ [';'])) :=
    List.forall_mem_cons.mpr ⟨by decide, List.forall_mem_cons.mpr ⟨by decide, List.forall_mem_cons.mpr ⟨by decide,
      (Line.flat_collapse _).append (by simp [Line.Flat])⟩⟩⟩
  show Line.collapse (unit.header index ++ Line.collapse unit.text.toList ++ [';']) = _
  rw [header_eq, List.append_assoc, List.append_assoc]
  show Line.collapse (_ ++ ' ' :: '=' :: '>' :: ' ' :: (Line.collapse unit.text.toList ++ [';'])) = _
  rw [Line.collapse_append_cons (by decide), collapse_signature (named_itemName index) unit.named_resolved,
    Line.collapse_flat hflat]
  simp [oneLine]

theorem isType_flatParam (htypes : ∀ source ∈ unit.types, IsType (oneLine source)) :
    ∀ x ∈ unit.resolved.map flatParam, IsType x.typeName := by
  intro x hx
  obtain ⟨y, hy, rfl⟩ := List.mem_map.mp hx
  exact htypes _ (.tail _ (List.mem_map_of_mem hy))

/-- What the line of an expression says behind `fn`, when the types are types to read. -/
theorem content_inner (htypes : ∀ source ∈ unit.types, IsType (oneLine source)) :
    content (unit.row index).inner = ⟨signatureKinds (itemName index) (unit.resolved.map flatParam) unit.kind
        (oneLine unit.resultType.display) ++ [.symbol .fatArrow], []⟩ ++ content (oneLine unit.text ++ ";").toList ∨
      .symbol .fatArrow ∉ (content (unit.row index).inner).kinds := by
  have hnames : ∀ x ∈ unit.resolved.map flatParam, Named x.name := by
    intro x hx
    obtain ⟨y, hy, rfl⟩ := List.mem_map.mp hx
    exact unit.named_resolved y hy
  have hsig := says_signature (S := True) (named_itemName index) hnames (unit.isType_flatParam htypes)
    (htypes _ (.head _)) (fun _ => trivial) unit.kind
  have hflat := (unit.row index).flat
  rw [inner_eq] at hflat ⊢
  exact (content_item hsig _).imp_right fun h => h.2 hflat

/-- A line of which nothing is reported, with types to read, has a text that starts with one expression. -/
theorem startsWithExpression (htypes : ∀ source ∈ unit.types, IsType (oneLine source)) {final : Bool}
    (hlexical : (unit.row index).lexical index final = []) (hsyntactic : (unit.row index).syntactic index final = []) :
    StartsWithExpression final (oneLine unit.text) := by
  have hproblems := Row.problems_of_lexical hlexical
  obtain ⟨start, i, rest, hitem, hrest⟩ := Row.item_of_syntactic hsyntactic
  have hkinds : ((unit.row index).tokens index).map (·.kind) = (content (unit.row index).inner).kinds :=
    Lexeme.placed_kind ..
  have hahead : startsItem ((unit.row index).ahead index final) = true :=
    Row.startsItem_of_ahead ((unit.row index).ahead_self index final)
  rcases unit.content_inner index htypes with hinner | hswallowed
  · rw [hinner] at hkinds hproblems
    obtain ⟨w, semicolon, hw, hbody, hsemicolon⟩ :=
      body_of_item (unit.isType_flatParam htypes) (htypes _ (.head _)) hkinds hitem
    have hitems := items_of_before hahead hsemicolon hbody hrest hw
    refine ⟨fun d hd => ?_, hitems, fun hnone => ?_⟩
    · obtain ⟨p, hp, loc, rfl⟩ := mem_diagnostics hd
      obtain ⟨hfinal, rfl⟩ := hproblems p hp
      exact ⟨hfinal, loc, rfl⟩
    · obtain ⟨_, semicolon, _, hbody, hsemicolon, -⟩ := hitems
      exact isSome_ofText? (fun p hp => (hproblems p hp).2) hsemicolon hbody hnone
  · obtain ⟨arrow, hm, harrow⟩ := fatArrow_of_item hitem
    rcases List.mem_append.mp hm with hm | hm
    · exact absurd (hkinds ▸ harrow ▸ List.mem_map_of_mem hm) hswallowed
    · rw [List.mem_singleton.mp hm] at harrow
      exact absurd harrow (Alignment.startsItem_ne hahead nofun)

end FlowCheck.ExpressionUnit

namespace FlowCheck.Validator

open FlowCheck.Flow

variable (provider : ReferenceProvider) (config : Config) (loader : ModuleLoader)

/-- Nothing is wrong with the lexemes and the form of a line when no error is reported of its expression. -/
theorem row_of_block {table : ExportTable} {units : List ExpressionUnit} {i : Nat} {unit : ExpressionUnit}
    (hunit : units[i]? = some unit)
    (hnone : Attribution.block (Diagnostic.sort (Row.problems table (rowsOf 0 units))) i unit = []) :
    (unit.row i).lexical i (i + 1 == units.length) = [] ∧ (unit.row i).syntactic i (i + 1 == units.length) = [] := by
  have hline : (Row.problems table (rowsOf 0 units)).filter (Diagnostic.onLine i) =
      (unit.row i).diagnostics table i (i + 1 == units.length) := by
    rw [Row.filter_problems, getElem?_rowsOf, hunit, length_rowsOf]
    rfl
  have hno : ∀ d ∈ (unit.row i).diagnostics table i (i + 1 == units.length), d.isError = true → False := by
    intro d hd herror
    obtain ⟨hd, hon⟩ := List.mem_filter.mp (hline ▸ hd)
    have hfilter := List.map_eq_nil_iff.mp hnone
    exact absurd (List.mem_filter.mpr ⟨Diagnostic.mem_sort.mpr hd, Bool.and_eq_true_iff.mpr ⟨herror, hon⟩⟩)
      (List.eq_nil_iff_forall_not_mem.mp hfilter d)
  constructor
  · refine List.eq_nil_iff_forall_not_mem.mpr fun d hd => hno d ?_ (Row.lexical_form.error_of_form d hd)
    exact List.mem_append_left _ (List.mem_append_left _ hd)
  · refine List.eq_nil_iff_forall_not_mem.mpr fun d hd => hno d ?_ (Row.syntactic_form.error_of_form d hd)
    exact List.mem_append_left _ (List.mem_append_right _ hd)

/-- An expression of which validation reports nothing has a text that starts with one expression, if the types on its
line are types to read. -/
theorem accepted_by_expression (session : Session) (scope : ValidationScope)
    (hlimit : scope.units.length ≤ Marker.indexLimit) :
    ∃ ds errors, (plain provider config loader .keepAll).diagnostics session scope = .ok ds ∧
      ((plain provider config loader .keepAll).validate session (some scope)).result = .ok errors ∧
      errors = scope.units.zipIdx.flatMap (fun unit => Attribution.block ds unit.2 unit.1) ∧
      ∀ i unit, scope.units[i]? = some unit → (∀ source ∈ unit.types, IsType (oneLine source)) →
        Attribution.block ds i unit = [] → StartsWithExpression (i + 1 == scope.units.length) (oneLine unit.text) := by
  refine ⟨_, _, diagnostics_plain .., validate_plain .., Attribution.errors_by_expression hlimit
    (Diagnostic.sorted_sort _) ?_, ?_⟩
  · intro d hd
    obtain ⟨i, hi, h⟩ := Row.problems_on _ d (Diagnostic.mem_sort.mp hd)
    exact ⟨i, length_rowsOf 0 scope.units ▸ hi, h⟩
  · intro i unit hunit htypes hnone
    obtain ⟨hlexical, hsyntactic⟩ := row_of_block hunit hnone
    exact unit.startsWithExpression i htypes hlexical hsyntactic

/-- Two texts of which nothing is reported: the comment of the first one ends on the line of the second. -/
theorem accepted_by_expression_comment :
    let scope : ValidationScope := ⟨[.ofText "e" "1; /*" "Core.Int", .ofText "f" "2 + 3" "Core.Int"], [], []⟩
    scope.units.length ≤ Marker.indexLimit ∧ (bare.validate .core (some scope)).result = .ok [] ∧
      StartsWithExpression false (oneLine "1; /*") ∧ StartsWithExpression true (oneLine "2 + 3") := by
  intro scope
  have hnone : bare.diagnostics .core scope = .ok [] := by decide +kernel
  have hlimit : scope.units.length ≤ Marker.indexLimit := by decide +kernel
  obtain ⟨ds, errors, hds, hresult, herrors, haccepted⟩ :=
    accepted_by_expression (.exportTables fun _ => none) .default (fun _ => none) .core scope hlimit
  obtain rfl : ds = [] := Except.ok.inj (hds.symm.trans hnone)
  obtain rfl : errors = [] := herrors
  exact ⟨hlimit, hresult, haccepted 0 _ rfl (by decide +kernel) rfl, haccepted 1 _ rfl (by decide +kernel) rfl⟩

/-- Texts that are accepted and are no expression: one has a further item, one leaves a comment open, and one stands
behind a type that is none. -/
theorem accepted_no_expression :
    (bare.validate .core (some ⟨[.ofText "e" "1; fn more() -> Core.Int => 2" "Core.Int"], [], []⟩)).result = .ok [] ∧
      Expr.ofText? (oneLine "1; fn more() -> Core.Int => 2") = none ∧
    (bare.validate .core
        (some ⟨[.ofText "e" "1; /*" "Core.Int", .ofText "f" "2" "Core.Int"], [], []⟩)).result = .ok [] ∧
      Expr.ofText? (oneLine "1; /*") = none ∧
    (bare.validate .core (some ⟨[.ofText "e" ") (" "Core.Int => 1; //"], [], []⟩)).result = .ok [] ∧
      Expr.ofText? (oneLine ") (") = none :=
  ⟨by decide +kernel, by decide +kernel, by decide +kernel, by decide +kernel, by decide +kernel, by decide +kernel⟩

end FlowCheck.Validator

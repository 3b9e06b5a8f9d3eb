import FlowCheck.Proofs.Flow.Items
import FlowCheck.Proofs.Flow.Signature

/-! The line of an expression as it is read. An expression by itself, with types that no comment goes on behind,
    is read back as the one item that was made of it: with its name, its variables, its type and its tree. -/

namespace FlowCheck

open FlowCheck.Text FlowCheck.Flow

/-! ### Variables -/

theorem distinctBy_go (met xs : List String) : distinctBy.go id met xs = (xs.filter (· ∉ met)).eraseDups := by
  induction xs generalizing met with
  | nil => rfl
  | cons x xs ih =>
    simp only [distinctBy.go, id_eq]
    by_cases hx : x ∈ met
    · rw [if_pos hx, ih, List.filter_cons_of_neg (by simpa using hx)]
    · rw [if_neg hx, ih, List.filter_cons_of_pos (by simpa using hx), List.eraseDups_cons, List.filter_filter]
      congr 2
      exact List.filter_congr fun y _ => by simp [Bool.beq_eq_decide_eq]

theorem distinctBy_id (xs : List String) : distinctBy id xs = xs.eraseDups := by
  rw [distinctBy, distinctBy_go]
  simp

namespace Flow

theorem freeIdentifiers_go {member : Bool} {ts : List Token} {name : String} (h : name ∈ freeIdentifiers.go member ts) :
    .identifier name ∈ ts.map (·.kind) := by
  fun_induction freeIdentifiers.go member ts with
  | case1 => cases h
  | case3 _ t ts other hkind _ ih =>
    rcases List.mem_cons.mp h with rfl | h
    · exact hkind ▸ .head _
    · exact .tail _ (ih h)
  | case2 _ _ _ _ ih | case4 _ _ _ _ ih | case5 _ _ _ _ _ ih => exact .tail _ (ih h)

/-- An identifier of a text is a name. -/
theorem named_of_freeIdentifiers {source name : String} (h : name ∈ freeIdentifiers source) : Named name := by
  obtain ⟨w, last, htokens, hlast, hkinds⟩ := tokenize_tokens source
  have hm := freeIdentifiers_go h
  rw [htokens, List.map_append, hkinds] at hm
  rcases List.mem_append.mp hm with hm | hm
  · exact named_of_content hm
  · exact absurd (List.mem_singleton.mp hm) (by simp [hlast])

end Flow

namespace ExpressionUnit

variable (unit : ExpressionUnit)

/-- The identifiers of an expression that are variables, each at its first place. -/
def boundNames : List String :=
  (freeIdentifiers unit.text).eraseDups.filter fun name => (unit.environment.resolve name).isSome

/-- The types that the line of an expression has, as they are written. -/
def types : List String := unit.resultType.display :: unit.resolved.map (·.typeName)

theorem resolved_eq : unit.resolved = (freeIdentifiers unit.text).eraseDups.filterMap fun name =>
    (unit.environment.resolve name).map fun type => ⟨name, type.display⟩ :=
  congrArg (List.filterMap _) (distinctBy_id _)

theorem names_resolved : unit.resolved.map (·.name) = unit.boundNames := by
  rw [resolved_eq, boundNames, List.map_filterMap, ← List.filterMap_eq_filter]
  refine List.filterMap_congr fun name _ => ?_
  cases hname : unit.environment.resolve name <;> simp [Option.guard, hname]

theorem mem_resolved {x : Parameter} (h : x ∈ unit.resolved) : x.name ∈ freeIdentifiers unit.text ∧
    ∃ type, unit.environment.resolve x.name = some type ∧ x.typeName = type.display := by
  rw [resolved_eq] at h
  obtain ⟨name, hname, h⟩ := List.mem_filterMap.mp h
  obtain ⟨type, htype, rfl⟩ := Option.map_eq_some_iff.mp h
  exact ⟨List.mem_eraseDups.mp hname, type, htype, rfl⟩

theorem named_resolved : ∀ x ∈ unit.resolved, Named x.name := fun _ hx =>
  named_of_freeIdentifiers (unit.mem_resolved hx).1

/-! ### The item of an expression -/

/-- The name of the item at a place. -/
def itemName (index : Nat) : String := "__expr" ++ Numeral.text index

end ExpressionUnit

open ExpressionUnit (itemName)

theorem named_itemName (index : Nat) : Named (itemName index) := by
  have hlist : (itemName index).toList = '_' :: ('_' :: 'e' :: 'x' :: 'p' :: 'r' :: Numeral.digits index) := by
    simp [itemName, Numeral.text]
  have hdigit : ∀ c, isDigit c = true → continuesName c = true := by
    intro c hc
    have hsmall : c.toNat < 128 := by
      simp only [isDigit, Bool.and_eq_true, decide_eq_true_eq] at hc
      exact Nat.lt_of_le_of_lt (show c.toNat ≤ 57 from hc.2) (by decide)
    simp [continuesName, isNumeral, hsmall, hc]
  refine ⟨⟨'_', _, hlist, by decide, by decide, by decide, by decide, by decide, ?_⟩, ?_⟩
  · simp only [List.forall_mem_cons]
    refine ⟨by decide, by decide, by decide, by decide, by decide, fun c hc => hdigit c (Numeral.isDigit_of_mem hc)⟩
  · unfold keyword?
    split <;> first | rfl | (rename_i h; rw [h] at hlist; cases hlist)

namespace ExpressionUnit

variable (unit : ExpressionUnit) (index : Nat)

theorem paramsText_eq (xs : List Parameter) : (", ".intercalate (xs.map parameterText)).toList = paramsText xs := by
  have hparam : ∀ x, (parameterText x).toList = paramText x := fun x => by simp [parameterText, paramText]
  cases xs with
  | nil => rfl
  | cons x xs =>
    rw [String.toList_intercalate, List.map_cons, List.map_cons, hparam, paramsText]
    induction xs generalizing x with
    | nil => simp
    | cons y ys ih => rw [List.map_cons, List.map_cons, List.intercalate_cons_cons, hparam, ih]; simp

theorem header_eq : unit.header index =
    signatureText (itemName index) unit.resolved unit.kind unit.resultType.display ++ [' ', '=', '>', ' '] := by
  unfold header signatureText
  rw [paramsText_eq]
  cases unit.kind <;> simp [itemName, Numeral.text]

/-- The line says `fn` and what the rest of it says. -/
theorem content_fragment : content (Flow.fragment (unit.parts index)).toList = ⟨[.symbol .keywordFn], []⟩ ++
    content (unit.header index ++ Line.collapse unit.text.toList ++ [';']) := by
  rw [parts_toList, ← comment_row, content, Flow.Row.all_comment, Content.ofLexemes_cons, ← content, content_space,
    header, List.cons_append, List.cons_append, content_fn]
  rfl

/-- The words of the line behind `fn`, when nothing swallows the expression. -/
theorem content_item {S : Prop} {sig : List Char} {K : List TokenKind} (hsig : Says S sig K) (text : List Char) :
    content (sig ++ ([' ', '=', '>', ' '] ++ text)) = ⟨K ++ [.symbol .fatArrow], []⟩ ++ content text ∨
      S ∧ ('\n' ∉ sig ++ ([' ', '=', '>', ' '] ++ text) →
        .symbol .fatArrow ∉ (content (sig ++ ([' ', '=', '>', ' '] ++ text))).kinds) := by
  refine (hsig.before (d := ' ') (by decide) ('=' :: '>' :: ' ' :: text)).imp_left fun h => ?_
  show content (sig ++ ' ' :: '=' :: '>' :: ' ' :: text) = _
  rw [h, content_space, content_fatArrow, content_space, ← Content.append_assoc]
  rfl

end ExpressionUnit

namespace Flow

/-- A text that says an item is read as that item. -/
theorem ofText_item (name : String) {xs : List Parameter} (hxs : ∀ x ∈ xs, IsType x.typeName) (kind : ExpressionKind)
    {type : String} {t : TypeExpr} (ht : TypeExpr.ofText? type = some t) {text : String} {body : Expr}
    (hbody : Expr.ofText? text = some body) {source : String} (h : content source.toList =
      ⟨.symbol .keywordFn :: itemKinds name xs kind type text.toList, []⟩) :
    ∃ item, (SourceTree.ofText source).items = [item] ∧ (SourceTree.ofText source).diagnostics = [] ∧
      ItemAs name xs kind t body item := by
  obtain ⟨w, last, htokens, hlast, hkinds⟩ := tokenize_tokens source
  have hlexical : (tokenize source).diagnostics = [] := tokenize_diagnostics.mpr (by rw [h])
  rw [h] at hkinds
  obtain ⟨fn, w, rfl, hfn, hw⟩ := List.map_eq_cons_iff.mp hkinds
  obtain ⟨item, hitem, has⟩ := item_pasted name hxs kind ht hbody fn.start hw
  have hround : round fn (w ++ [last]) = ([item], [], [last]) := by
    obtain ⟨_, hitem⟩ := hitem
    rw [round, if_pos hfn, hitem]
  have hread : itemsOf (tokenize source).tokens = ([item], []) := by
    rw [htokens, List.cons_append, itemsOf_cons (by simp [hfn]), hround, itemsOf_end hlast]
    rfl
  refine ⟨item, ?_, ?_, has⟩
  · simp only [SourceTree.ofText, hread]
  · simp only [SourceTree.ofText, hread, hlexical, List.append_nil]

end Flow

namespace ExpressionUnit

variable (unit : ExpressionUnit) (index : Nat)

/-- The line of an expression by itself is read, without anything being wrong, as one item that has all of the
expression: what it is for, its type, its variables and its tree. The types must be types to read, and no comment at
the end of one may go on behind it. -/
theorem fragment_read {body : Expr} (hbody : Expr.ofText? (oneLine unit.text) = some body)
    (hopen : endsInComment (oneLine unit.text).toList = false) (htypes : ∀ source ∈ unit.types, IsType source)
    (hclosed : ∀ source ∈ unit.types, endsInComment source.toList = false) :
    ∃ line item, unit.fragment Flow.language index = .ok line ∧ (SourceTree.ofText line).diagnostics = [] ∧
      (SourceTree.ofText line).items = [item] ∧ item.name = itemName index ∧ item.byRef = (unit.kind == .reference) ∧
      (∃ t, TypeExpr.ofText? unit.resultType.display = some t ∧ t.Alike anywhere item.returnType) ∧
      item.params.map (·.name) = unit.boundNames ∧
      (∀ p ∈ item.params, ∃ type t, unit.environment.resolve p.name = some type ∧
        TypeExpr.ofText? type.display = some t ∧ t.Alike anywhere p.type) ∧
      body.Alike anywhere item.body := by
  obtain ⟨hresult, hparams⟩ := List.forall_mem_cons.mp htypes
  obtain ⟨t, ht⟩ := hresult.spec
  have hxs : ∀ x ∈ unit.resolved, IsType x.typeName := fun x hx => hparams _ (List.mem_map_of_mem hx)
  have hsig := says_signature (S := False) (named_itemName index) unit.named_resolved hxs hresult
    (fun ⟨source, hsource, h⟩ => Bool.false_ne_true ((hclosed source hsource).symm.trans h)) unit.kind
  rw [oneLine, String.toList_ofList] at hopen
  have htext : content (Line.collapse unit.text.toList ++ [';']) =
      content (Line.collapse unit.text.toList) ++ ⟨[.symbol .semicolon], []⟩ := by
    obtain ⟨hproblems, -⟩ := Expr.ofText?_spec hbody
    rw [oneLine, String.toList_ofList] at hproblems
    rw [content_append (by decide) hproblems hopen, content_sign (s := .semicolon) (by decide), content_nil]
    rfl
  have hcontent : content (Flow.fragment (unit.parts index)).toList = ⟨.symbol .keywordFn ::
      itemKinds (itemName index) unit.resolved unit.kind unit.resultType.display (oneLine unit.text).toList, []⟩ := by
    obtain ⟨hproblems, -⟩ := Expr.ofText?_spec hbody
    have hitem := (content_item hsig (Line.collapse unit.text.toList ++ [';'])).resolve_right fun h => h.1
    have hkinds : content (Line.collapse unit.text.toList) = ⟨(content (oneLine unit.text).toList).kinds, []⟩ := by
      rw [← hproblems, oneLine, String.toList_ofList]
    rw [content_fragment, header_eq, List.append_assoc, List.append_assoc, hitem, htext, hkinds]
    show Content.mk _ _ = Content.mk _ _
    simp [itemKinds]
  obtain ⟨item, hitems, hdiagnostics, has⟩ := ofText_item (itemName index) hxs unit.kind ht hbody hcontent
  refine ⟨_, item, unit.fragment_flow index, hdiagnostics, hitems, has.name, has.byRef, ⟨t, ht, has.returnType⟩, ?_, ?_,
    has.body⟩
  · rw [← unit.names_resolved]
    exact names_of_readAs has.params
  · intro p hp
    obtain ⟨x, hx, hname, t, ht, halike⟩ := readAs_of_mem has.params hp
    obtain ⟨-, type, htype, hdisplay⟩ := unit.mem_resolved hx
    exact ⟨type, t, hname ▸ htype, hdisplay ▸ ht, halike⟩

/-- An expression with a variable. -/
theorem fragment_read_variable :
    let unit : ExpressionUnit := { ofText "e" "count > 1 ? count : 2" "Core.Int" with
      environment := .declare .empty "count" (.ofFullName "Core.Int" (coreModule 0) none []) }
    endsInComment (oneLine unit.text).toList = false ∧ (∀ source ∈ unit.types, IsType source) ∧
      (∀ source ∈ unit.types, endsInComment source.toList = false) ∧ ∃ body line item,
        Expr.ofText? (oneLine unit.text) = some body ∧ unit.fragment Flow.language 3 = .ok line ∧
          (SourceTree.ofText line).diagnostics = [] ∧ (SourceTree.ofText line).items = [item] ∧
            item.params.map (·.name) = ["count"] ∧ body.Alike anywhere item.body := by
  intro unit
  have hopen : endsInComment (oneLine unit.text).toList = false := by decide +kernel
  have htypes : ∀ source ∈ unit.types, IsType source := by decide +kernel
  have hclosed : ∀ source ∈ unit.types, endsInComment source.toList = false := by decide +kernel
  have hnames : unit.boundNames = ["count"] := by decide +kernel
  obtain ⟨body, hbody⟩ := Option.isSome_iff_exists.mp
    (show (Expr.ofText? (oneLine unit.text)).isSome = true by decide +kernel)
  obtain ⟨line, item, hline, hdiagnostics, hitems, -, -, -, hparams, -, halike⟩ :=
    fragment_read unit 3 hbody hopen htypes hclosed
  exact ⟨hopen, htypes, hclosed, body, line, item, hbody, hline, hdiagnostics, hitems, hparams.trans hnames, halike⟩

/-- A comment at the end of a type goes on behind it, and then the line is no item. -/
theorem fragment_swallowed : let unit := ofText "e" "1" "Core.Int //"
    (Expr.ofText? (oneLine unit.text)).isSome ∧ endsInComment (oneLine unit.text).toList = false ∧
      (∀ source ∈ unit.types, IsType source) ∧ ∃ line, unit.fragment Flow.language 0 = .ok line ∧
        (SourceTree.ofText line).diagnostics ≠ [] ∧ (SourceTree.ofText line).items.length = 0 :=
  ⟨by decide +kernel, by decide +kernel, by decide +kernel, _, fragment_flow _ _, by decide +kernel, by decide +kernel⟩

end ExpressionUnit

end FlowCheck

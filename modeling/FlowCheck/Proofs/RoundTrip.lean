import FlowCheck.Proofs.Flow.Minimal
import FlowCheck.Proofs.Flow.Recovery
import FlowCheck.Proofs.Template

/-! Expressions from text to tree and back. An item is read just if its body is written properly and stays within the
    limits, and then as the tree that is written; and whatever is read as the body of an item can be written with no
    parentheses but those that are required, stays within the limits and is read as the same tree again. -/

namespace FlowCheck.Flow

open FlowCheck.Flow.Parser

/-! ### Expressions -/

/-- What is written properly and stays within the limits is one expression. -/
theorem Written.ofText?_text {w : Written} (h : w.Proper) (hlevels : w.levels ≤ maxNesting)
    (hheight : w.tree.height ≤ maxHeight) :
    ∃ body, Expr.ofText? (String.ofList w.text) = some body ∧ w.tree.Alike anywhere body := by
  have hcontent := (content_text h).1
  rw [← String.toList_ofList (l := w.text)] at hcontent
  obtain ⟨v, last, htokens, hlast, hkinds⟩ := tokenize_tokens (String.ofList w.text)
  rw [hcontent] at hkinds
  obtain ⟨body, hbody, halike⟩ := (readable h hheight).expression 63 (Nat.le_of_succ_le_succ hlevels) hkinds
    (endsExpression_of_closing [] (.inr (.inr hlast)))
  rw [← htokens] at hbody
  exact ⟨body, wholeText?_iff.mpr ⟨tokenize_diagnostics.mpr (by rw [hcontent]), [last], hbody, hlast⟩, halike⟩

/-! ### Items -/

/-- What stands in an item before its body. -/
structure Header where
  name : String
  params : List Parameter
  kind : ExpressionKind
  type : String
  named : Named name
  paramsNamed : ∀ x ∈ params, Named x.name
  typed : ∀ source ∈ type :: params.map (·.typeName), IsType source ∧ endsInComment source.toList = false

/-- An item with this body. -/
def Header.item (header : Header) (body : List Char) : String :=
  String.ofList ('f' :: 'n' :: (signatureText header.name header.params header.kind header.type ++
    ([' ', '=', '>', ' '] ++ (body ++ [';']))))

/-- The words of an item before its body. -/
def Header.words (header : Header) : List TokenKind :=
  .symbol .keywordFn :: (signatureKinds header.name header.params header.kind header.type ++ [.symbol .fatArrow])

/-- Nothing is wrong with the text, and it is one item with this tree as its body, up to places. -/
def ReadsAs (source : String) (e : Expr) : Prop :=
  ∃ i, (SourceTree.ofText source).items = [i] ∧ (SourceTree.ofText source).diagnostics = [] ∧ e.Alike anywhere i.body

namespace Header

variable (header : Header)

theorem isType : IsType header.type := (header.typed _ (.head _)).1

theorem isType_param : ∀ x ∈ header.params, IsType x.typeName :=
  fun _ hx => (header.typed _ (.tail _ (List.mem_map_of_mem hx))).1

theorem says_header : Says False (signatureText header.name header.params header.kind header.type)
    (signatureKinds header.name header.params header.kind header.type) :=
  says_signature header.named header.paramsNamed header.isType_param header.isType
    (fun ⟨source, hsource, h⟩ => Bool.false_ne_true ((header.typed source hsource).2.symm.trans h)) header.kind

theorem content_item {w : Written} (h : w.Proper) :
    content (header.item w.text).toList = ⟨header.words ++ (w.words ++ [.symbol .semicolon]), []⟩ := by
  have hbody : content (w.text ++ [';']) = ⟨w.words ++ [.symbol .semicolon], []⟩ := by
    rw [(Written.content_text h).2 ';' (by decide), content_sign (s := .semicolon) (by decide), content_nil]
    rfl
  have hitem := (ExpressionUnit.content_item header.says_header (w.text ++ [';'])).resolve_right fun h => h.1
  rw [item, String.toList_ofList]
  refine (content_fn _).trans ?_
  refine (congrArg (Content.mk [.symbol .keywordFn] [] ++ ·) hitem).trans ?_
  rw [hbody, words]
  show Content.mk _ _ = Content.mk _ _
  simp

variable {source : String} {K : List TokenKind} {e : Expr}

theorem readsAs_of_written (h : content source.toList = ⟨header.words ++ (K ++ [.symbol .semicolon]), []⟩) {w : Written}
    (hwords : w.words = K) (hproper : w.Proper) (hlevels : w.levels ≤ maxNesting) (hheight : w.tree.height ≤ maxHeight)
    (htree : w.tree.Alike anywhere e) : ReadsAs source e := by
  obtain ⟨body, hbody, halike⟩ := Written.ofText?_text hproper hlevels hheight
  obtain ⟨t, ht⟩ := header.isType.spec
  have hkinds : (content (String.ofList w.text).toList).kinds = K := by
    rw [String.toList_ofList, (Written.content_text hproper).1, hwords]
  have hsource : content source.toList = ⟨.symbol .keywordFn ::
      itemKinds header.name header.params header.kind header.type (String.ofList w.text).toList, []⟩ := by
    rw [h, itemKinds, hkinds, words]
    simp
  obtain ⟨i, hitems, hdiagnostics, has⟩ := ofText_item header.name header.isType_param header.kind ht hbody hsource
  exact ⟨i, hitems, hdiagnostics,
    ((htree.symm fun _ => trivial).trans (fun _ _ => trivial) halike).trans (fun _ _ => trivial) has.body⟩

theorem written_of_readsAs (h : content source.toList = ⟨header.words ++ (K ++ [.symbol .semicolon]), []⟩)
    (hreads : ReadsAs source e) : ∃ w : Written, w.words = K ∧ w.Proper ∧ w.levels ≤ maxNesting ∧
      w.tree.height ≤ maxHeight ∧ w.tree.Alike anywhere e := by
  obtain ⟨i, hitems, hdiagnostics, halike⟩ := hreads
  obtain ⟨v, last, htokens, hlast, hkinds⟩ := tokenize_tokens source
  have hall : itemsOf (tokenize source).tokens = ([i], []) :=
    Prod.ext hitems (List.append_eq_nil_iff.mp hdiagnostics).2
  have hlater : K ++ [.symbol .semicolon] ⊆ (content source.toList).kinds := h ▸ List.subset_append_right ..
  rw [h] at hkinds
  obtain ⟨fn, v, rfl, hfn, hv⟩ := List.map_eq_cons_iff.mp hkinds
  rw [htokens] at hall
  obtain ⟨rest, hitem, hrest⟩ := item_of_itemsOf hfn hall
  obtain ⟨body, semicolon, hkinds, hbody, hsemicolon⟩ :=
    body_of_item header.isType_param header.isType hv hitem
  rw [← hkinds] at hlater
  obtain ⟨w, hw⟩ := recovers_expression hbody (spelled_of_kinds hlater hlast)
  -- Nothing but the end of the file is left behind the semicolon, so what is written is all of the body.
  have hsuffix : [last] <:+ semicolon :: rest :=
    List.suffix_of_suffix_length_le (List.suffix_append body [last]) hbody.suffix (by simp)
  obtain hsame | hsuffix := List.suffix_cons_iff.mp hsuffix
  · obtain ⟨rfl, -⟩ := List.cons_eq_cons.mp hsame
    cases hsemicolon.symm.trans hlast
  obtain rfl := eq_of_current hsuffix ((List.suffix_cons _ _).trans hbody.suffix)
    (hrest ▸ fun hm => endOfFile_notMem source.toList (hlater hm))
  obtain ⟨front, hfront, hsplit⟩ := hw.words
  have hfront' : body = front ++ [semicolon] :=
    List.append_cancel_right (hsplit.trans (List.append_cons front semicolon [last]))
  rw [hfront', List.map_append, List.map_singleton, hsemicolon, hfront] at hkinds
  exact ⟨w, List.append_cancel_right hkinds, hw.proper, hw.depth, hw.tree.height ▸ hw.height,
    hw.tree.trans (fun _ _ => trivial) (halike.symm fun _ => trivial)⟩

/-- An item with such a header is read just if its body is written properly and stays within the limits. -/
theorem readsAs_iff (h : content source.toList = ⟨header.words ++ (K ++ [.symbol .semicolon]), []⟩) :
    ReadsAs source e ↔ ∃ w : Written, w.words = K ∧ w.Proper ∧ w.levels ≤ maxNesting ∧ w.tree.height ≤ maxHeight ∧
      w.tree.Alike anywhere e :=
  ⟨header.written_of_readsAs h, fun ⟨_, hwords, hproper, hlevels, hheight, htree⟩ =>
    header.readsAs_of_written h hwords hproper hlevels hheight htree⟩

end Header

/-! ### Items of a text -/

/-- Each item is read off some of the tokens. -/
theorem mem_itemsOf {ts : List Token} {i : Item} (h : i ∈ (itemsOf ts).1) :
    ∃ start ts' rest, ts' <:+ ts ∧ Reads (item start) ts' i rest := by
  fun_induction itemsOf ts with
  | case1 => cases h
  | case2 => cases h
  | case3 t ts _ _ read hread _ _ ih =>
    rcases List.mem_cons.mp h with rfl | h
    · exact ⟨t.start, ts, read.rest, List.suffix_cons t ts, .of_eq hread⟩
    · obtain ⟨start, ts', rest, hsuffix, hreads⟩ := ih h
      exact ⟨start, ts', rest, hsuffix.trans (read.suffix.trans (List.suffix_cons t ts)), hreads⟩
  | case4 t ts _ _ d _ _ _ ih | case5 t ts _ _ _ _ ih =>
    obtain ⟨start, ts', rest, hsuffix, hreads⟩ := ih h
    exact ⟨start, ts', rest, hsuffix.trans ((List.dropWhile_suffix _).trans (List.suffix_cons t ts)), hreads⟩

/-- The body of an item of a text is written there. -/
theorem written_body {source : String} {i : Item} (h : i ∈ (SourceTree.ofText source).items) :
    i.body.height ≤ maxHeight ∧ ∃ w : Written, w.Proper ∧ w.levels ≤ maxNesting ∧ w.tree.Alike anywhere i.body := by
  obtain ⟨start, ts, rest, hts, hitem⟩ := mem_itemsOf h
  obtain ⟨s, arrow, more, semicolon, hsignature, -, hbody, -⟩ := reads_item hitem
  obtain ⟨w, last, htokens, hlast, hkinds⟩ := tokenize_tokens source
  have hmore : ∀ t ∈ more, t.kind.Spelled := fun t ht =>
    spelled_of_kinds (fun _ hm => hkinds ▸ hm) hlast t (htokens ▸ hts.mem (hsignature.suffix.mem (.tail _ ht)))
  obtain ⟨w, hw⟩ := recovers_expression hbody hmore
  exact ⟨hw.height, w, hw.proper, hw.depth, hw.tree⟩

/-! ### The grammar -/

section Grammar

open Written (minimal)

/-- Expressions are read by the grammar and its precedences, up to places. An item without problems is one whose body
has the words of an expression that is written properly and stays within the limits, and it is read as the tree that is
written: so what is printed is read back, with any number of parentheses that are not required. All trees whose leaves
can be written can be written properly. And what is read as the body of an item, whatever else is wrong with the text,
is such a tree; written with no parentheses but those that are required it stays within the limits and is read as this
tree again. -/
theorem expression_round_trip (header : Header) :
    (∀ source K e, content source.toList = ⟨header.words ++ (K ++ [.symbol .semicolon]), []⟩ →
      (ReadsAs source e ↔ ∃ w : Written, w.words = K ∧ w.Proper ∧ w.levels ≤ maxNesting ∧ w.tree.height ≤ maxHeight ∧
        w.tree.Alike anywhere e)) ∧
    (∀ w : Written, w.Proper → w.levels ≤ maxNesting → w.tree.height ≤ maxHeight →
      ReadsAs (header.item w.text) w.tree) ∧
    (∀ spell e, e.Writable spell → (minimal spell e).Proper ∧ (minimal spell e).tree.Alike anywhere e ∧
      ∀ w : Written, w.Proper → w.tree.Alike anywhere e → (minimal spell e).pairs ≤ w.pairs) ∧
    ∀ source, ∀ i ∈ (SourceTree.ofText source).items, (∃ spell, i.body.Writable spell) ∧
      ∀ spell, i.body.Writable spell → (minimal spell i.body).levels ≤ maxNesting ∧ i.body.height ≤ maxHeight ∧
        ReadsAs (header.item (minimal spell i.body).text) i.body := by
  -- The tree alone fixes the minimal way to write it, so any proper way bounds its levels.
  have hsame (spell : Binary64 → List Char) {w : Written} {e : Expr} (hw : w.Proper)
      (halike : w.tree.Alike anywhere e) :
      (minimal spell e).depth ≤ w.depth ∧ (minimal spell e).pairs ≤ w.pairs := by
    have hle := Written.minimal_le spell hw (Nat.zero_le w.rank)
    rwa [Written.within_of_le (Nat.zero_le _), Written.minimal_of_alike halike] at hle
  refine ⟨fun source K e => header.readsAs_iff, fun w hproper hlevels hheight => ?_, fun spell e he => ?_,
    fun source i hi => ?_⟩
  · exact header.readsAs_of_written (header.content_item hproper) rfl hproper hlevels hheight (.refl fun _ => trivial)
  · exact ⟨Written.proper_minimal he, Written.tree_minimal spell e, fun w hw halike => (hsame spell hw halike).2⟩
  · obtain ⟨hheight, w, hw, hlevels, halike⟩ := written_body hi
    refine ⟨?_, fun spell hspell => ?_⟩
    · let spell (value : Binary64) : List Char := Classical.epsilon fun text => Spells text (.float value)
      exact ⟨spell, halike.writable.mp (Written.writable_tree hw fun text value h =>
        Classical.epsilon_spec (p := fun text => Spells text (.float value)) ⟨text, h⟩)⟩
    · have hminimal := Written.tree_minimal spell i.body
      have hlevels : (minimal spell i.body).levels ≤ maxNesting :=
        (Nat.succ_le_succ (hsame spell hw halike).1).trans hlevels
      have hproper := Written.proper_minimal hspell
      exact ⟨hlevels, hheight, header.readsAs_of_written (header.content_item hproper) rfl hproper hlevels
        (hminimal.height ▸ hheight) hminimal⟩

/-- The item `fn f() -> Core.Int`. -/
def Header.plain : Header := ⟨"f", [], .value, "Core.Int", by decide, nofun, by decide +kernel⟩

/-- The difference on the right keeps its parentheses, and the sum on the left loses those it does not require. -/
theorem expression_round_trip_difference :
    let spell : Binary64 → List Char := fun _ => []
    let w : Written := .binary .sub (.parens (.binary .add (.int 1) (.unary .neg (.member (.name "x") "y"))))
      (.parens (.binary .sub (.int 2) (.int 3)))
    let source := Header.plain.item w.text
    String.ofList w.text = "( 1 + - x . y ) - ( 2 - 3 )" ∧
      content source.toList = ⟨Header.plain.words ++ (w.words ++ [.symbol .semicolon]), []⟩ ∧ w.Proper ∧
      w.levels ≤ maxNesting ∧ w.tree.height ≤ maxHeight ∧ w.tree.Writable spell ∧
      (∃ v : Written, v.words = w.words ∧ v.Proper ∧ v.levels ≤ maxNesting ∧ v.tree.height ≤ maxHeight ∧
        v.tree.Alike anywhere w.tree) ∧
      (minimal spell w.tree).pairs ≤ w.pairs ∧
      ∃ i ∈ (SourceTree.ofText source).items, w.tree.Alike anywhere i.body ∧ i.body.Writable spell ∧
        String.ofList (minimal spell i.body).text = "1 + - x . y - ( 2 - 3 )" ∧
          ReadsAs (Header.plain.item (minimal spell i.body).text) i.body := by
  intro spell w source
  have hcontent : content source.toList = ⟨Header.plain.words ++ (w.words ++ [.symbol .semicolon]), []⟩ := by
    decide +kernel
  have hproper : w.Proper := by decide +kernel
  have hlevels : w.levels ≤ maxNesting := by decide
  have hheight : w.tree.height ≤ maxHeight := by decide
  have hwritable : w.tree.Writable spell :=
    have hx : Named "x" := by decide +kernel
    have hy : Named "y" := by decide +kernel
    ⟨⟨show 1 < intLimit by decide, hx, hy⟩, show 2 < intLimit by decide, show 3 < intLimit by decide⟩
  obtain ⟨hexact, hprinted, hwritten, hitems⟩ := expression_round_trip Header.plain
  have hreads : ReadsAs source w.tree := hprinted w hproper hlevels hheight
  have hread := (hexact source w.words w.tree hcontent).mp hreads
  have hleast := (hwritten spell w.tree hwritable).2.2 w hproper (.refl fun _ => trivial)
  obtain ⟨i, hi, -, hbody⟩ := hreads
  have hmem : i ∈ (SourceTree.ofText source).items := hi ▸ .head _
  have hsame : minimal spell w.tree = minimal spell i.body := Written.minimal_of_alike hbody
  refine ⟨by decide +kernel, hcontent, hproper, hlevels, hheight, hwritable, hread, hleast, i, hmem, hbody,
    hbody.writable.mp hwritable, ?_, ((hitems source i hmem).2 spell (hbody.writable.mp hwritable)).2.2⟩
  rw [← hsame]
  decide +kernel

end Grammar

end FlowCheck.Flow

import FlowCheck.Proofs.Batch
import FlowCheck.Proofs.Flow.Pasting

/-! Signatures as they are written. A signature that is put together from names and types says what it was put
    together from, unless a comment at the end of a type swallows what follows: then the sign `=>` is gone. -/

namespace FlowCheck.Flow

open FlowCheck.Text

/-! ### Texts that are pasted together -/

/-- The text says the words `K`, and what follows says what it says alone. If `Swallows` holds a comment at the end
of the text may go on behind it, but then no `=>` is left on the line. -/
structure Says (Swallows : Prop) (text : List Char) (K : List TokenKind) : Prop where
  quiet : .symbol .fatArrow ∉ K
  before : ∀ ⦃d : Char⦄, separates d = true → ∀ more,
    content (text ++ d :: more) = ⟨K, []⟩ ++ content (d :: more) ∨
      Swallows ∧ ('\n' ∉ text ++ d :: more → .symbol .fatArrow ∉ (content (text ++ d :: more)).kinds)

section Says

variable {S : Prop} {text back : List Char} {K L : List TokenKind}

theorem says_nil : Says S [] [] := ⟨nofun, fun _ _ _ => .inl rfl⟩

/-- What a text says behind words that do not see it. -/
theorem Says.behind_words (h : Says S back L) (hquiet : .symbol .fatArrow ∉ K) {d : Char} (hd : separates d = true)
    {more : List Char} (htext : content (text ++ (back ++ d :: more)) = ⟨K, []⟩ ++ content (back ++ d :: more)) :
    content (text ++ (back ++ d :: more)) = ⟨K ++ L, []⟩ ++ content (d :: more) ∨
      S ∧ ('\n' ∉ text ++ (back ++ d :: more) →
        .symbol .fatArrow ∉ (content (text ++ (back ++ d :: more))).kinds) := by
  rcases h.before hd more with hback | ⟨hs, hback⟩
  · rw [htext, hback, ← Content.append_assoc]
    exact .inl rfl
  · refine .inr ⟨hs, fun hflat hm => ?_⟩
    rw [htext] at hm
    rcases List.mem_append.mp hm with hm | hm
    · exact hquiet hm
    · exact hback (fun hn => hflat (List.mem_append_right _ hn)) hm

/-- Behind words that are the same whatever follows. -/
theorem Says.behind (front : List Char) (hquiet : .symbol .fatArrow ∉ K)
    (hfront : ∀ more, content (front ++ more) = ⟨K, []⟩ ++ content more) (h : Says S back L) :
    Says S (front ++ back) (K ++ L) := by
  refine ⟨List.not_mem_append hquiet h.quiet, fun d hd more => ?_⟩
  rw [List.append_assoc]
  exact h.behind_words hquiet hd (hfront _)

theorem Says.append {d : Char} (hd : separates d = true) (ha : Says S text K) (hb : Says S (d :: back) L) :
    Says S (text ++ d :: back) (K ++ L) := by
  refine ⟨List.not_mem_append ha.quiet hb.quiet, fun e he more => ?_⟩
  rw [List.append_assoc]
  rcases ha.before hd (back ++ e :: more) with htext | hswallowed
  · exact hb.behind_words ha.quiet he htext
  · exact .inr hswallowed

theorem says_name {name : String} (h : Named name) : Says S name.toList [.identifier name] :=
  ⟨by simp, fun _ hd more => .inl (content_name h (separates_iff.mp hd).2.1 more)⟩

theorem says_type {source : String} {t : TypeExpr} (h : TypeExpr.ofText? source = some t)
    (hs : endsInComment source.toList = true → S) : Says S source.toList (content source.toList).kinds := by
  obtain ⟨hproblems, -⟩ := TypeExpr.ofText?_spec h
  refine ⟨fatArrow_notMem_type h, fun d hd more => ?_⟩
  rcases content_append_clean hd hproblems more with hclean | ⟨hcomment, hsame⟩
  · rw [← hproblems]
    exact .inl hclean
  · refine .inr ⟨hs hcomment, fun hflat => ?_⟩
    rw [hsame fun hn => hflat (List.mem_append_right _ hn)]
    exact fatArrow_notMem_type h

theorem Says.sign {c : Char} {s : Symbol} (hs : (c, s) ∈ bareSigns) (h : Says S back L) :
    Says S (c :: back) (.symbol s :: L) := by
  refine h.behind [c] (K := [.symbol s]) ?_ (content_sign hs)
  simp only [bareSigns, List.mem_cons, Prod.mk.injEq, List.not_mem_nil, or_false] at hs
  rcases hs with ⟨-, rfl⟩ | ⟨-, rfl⟩ | ⟨-, rfl⟩ | ⟨-, rfl⟩ | ⟨-, rfl⟩ <;> decide

theorem Says.space (h : Says S back L) : Says S (' ' :: back) L :=
  h.behind [' '] (K := []) nofun fun more => (content_space more).trans (Content.empty_append _).symm

theorem Says.arrow (h : Says S back L) : Says S ('-' :: '>' :: back) (.symbol .arrow :: L) :=
  h.behind ['-', '>'] (K := [.symbol .arrow]) (by decide) content_arrow

theorem Says.ref (h : Says S back L) : Says S ('r' :: 'e' :: 'f' :: ' ' :: back) (.symbol .keywordRef :: L) := by
  refine h.behind ['r', 'e', 'f', ' '] (K := [.symbol .keywordRef]) (by decide) fun more => ?_
  have hword : Lexeme.next 'r' ('e' :: 'f' :: ' ' :: more) =
      (⟨['r', 'e', 'f'], some (.symbol .keywordRef), []⟩, ' ' :: more) := rfl
  show content ('r' :: 'e' :: 'f' :: ' ' :: more) = _
  rw [content_cons, hword, ← content_space more]
  rfl

end Says

/-! ### Signatures -/

/-- A parameter as it is written. -/
def paramText (x : Parameter) : List Char := x.name.toList ++ ':' :: ' ' :: x.typeName.toList

/-- Some parameters as they are written. -/
def paramsText : List Parameter → List Char
  | [] => []
  | x :: xs => paramText x ++ xs.flatMap fun y => ',' :: ' ' :: paramText y

/-- A signature as it is written. -/
def signatureText (name : String) (xs : List Parameter) (kind : ExpressionKind) (type : String) : List Char :=
  ' ' :: (name.toList ++ '(' :: (paramsText xs ++ ')' :: ' ' :: '-' :: '>' :: ' ' ::
    ((match kind with | .value => [] | .reference => ['r', 'e', 'f', ' ']) ++ type.toList)))

section

variable {S : Prop}

theorem says_param {x : Parameter} (hname : Named x.name) {t : TypeExpr} (ht : TypeExpr.ofText? x.typeName = some t)
    (hs : endsInComment x.typeName.toList = true → S) : Says S (paramText x) (paramKinds x) :=
  .append (by decide) (says_name hname) (.sign (by decide) (.space (says_type ht hs)))

/-- Parameters behind the first one. -/
theorem says_others {xs : List Parameter} (h : ∀ x ∈ xs, Says S (paramText x) (paramKinds x)) :
    Says S (xs.flatMap fun y => ',' :: ' ' :: paramText y) (xs.flatMap fun y => .symbol .comma :: paramKinds y) := by
  induction xs with
  | nil => exact says_nil
  | cons x xs ih =>
    obtain ⟨hx, hxs⟩ := List.forall_mem_cons.mp h
    refine Says.sign (by decide) (.space ?_)
    cases xs with
    | nil => simpa using hx
    | cons y ys => exact hx.append (by decide) (ih hxs)

theorem says_params {xs : List Parameter} (hname : ∀ x ∈ xs, Named x.name) (htype : ∀ x ∈ xs, IsType x.typeName)
    (hs : ∀ x ∈ xs, endsInComment x.typeName.toList = true → S) : Says S (paramsText xs) (paramsKinds xs) := by
  have hparam : ∀ x ∈ xs, Says S (paramText x) (paramKinds x) := by
    intro x hx
    obtain ⟨t, ht⟩ := (htype x hx).spec
    exact says_param (hname x hx) ht (hs x hx)
  cases xs with
  | nil => exact says_nil
  | cons x xs =>
    obtain ⟨hx, hxs⟩ := List.forall_mem_cons.mp hparam
    cases xs with
    | nil => simpa [paramsText, paramsKinds] using hx
    | cons y ys => exact hx.append (by decide) (says_others hxs)

/-- A signature says its name, its parameters and the type of its result. -/
theorem says_signature {name : String} (hn : Named name) {xs : List Parameter} (hname : ∀ x ∈ xs, Named x.name)
    (htype : ∀ x ∈ xs, IsType x.typeName) {type : String} (ht : IsType type)
    (hs : (∃ source ∈ type :: xs.map (·.typeName), endsInComment source.toList = true) → S) (kind : ExpressionKind) :
    Says S (signatureText name xs kind type) (signatureKinds name xs kind type) := by
  obtain ⟨t, ht⟩ := ht.spec
  have hparams := says_params hname htype fun x hx hc => hs ⟨_, .tail _ (List.mem_map_of_mem hx), hc⟩
  have hresult : Says S ((match kind with | .value => [] | .reference => ['r', 'e', 'f', ' ']) ++ type.toList)
      ((match kind with | .value => [] | .reference => [.symbol .keywordRef]) ++ (content type.toList).kinds) := by
    have htype := says_type ht fun hc => hs ⟨_, .head _, hc⟩
    cases kind with
    | value => exact htype
    | reference => exact htype.ref
  refine Says.space ((says_name hn).append (by decide) (.sign (by decide) ?_))
  exact hparams.append (by decide) (.sign (by decide) (.space (.arrow (.space hresult))))

end

/-! ### Signatures on one line -/

theorem flat_of_continuesName {c : Char} (h : continuesName c = true) : c ≠ '\n' ∧ c ≠ '\r' := by
  constructor <;> rintro rfl <;> exact absurd h (by decide)

theorem Named.flat {name : String} (h : Named name) : Line.Flat name.toList := by
  obtain ⟨c, rest, hname, -, -, -, -, hstart, hrest⟩ := h.start
  have hc : continuesName c = true := by
    simp only [startsName, Bool.or_eq_true] at hstart
    rcases hstart with hstart | hstart <;> simp [continuesName, hstart]
  rw [hname]
  exact List.forall_mem_cons.mpr ⟨flat_of_continuesName hc, fun d hd => flat_of_continuesName (hrest d hd)⟩

/-- A parameter on one line. -/
def flatParam (x : Parameter) : Parameter := ⟨x.name, oneLine x.typeName⟩

theorem collapse_param {x : Parameter} (h : Named x.name) : Line.collapse (paramText x) = paramText (flatParam x) := by
  rw [paramText, Line.collapse_append_cons (by decide), Line.collapse_flat h.flat, Line.collapse_cons (by decide)]
  simp [paramText, flatParam, oneLine]

theorem collapse_others {xs : List Parameter} (h : ∀ x ∈ xs, Named x.name) (front : List Char) :
    Line.collapse (front ++ xs.flatMap fun x => ',' :: ' ' :: paramText x) =
      Line.collapse front ++ (xs.map flatParam).flatMap fun x => ',' :: ' ' :: paramText x := by
  induction xs generalizing front with
  | nil => simp
  | cons x xs ih =>
    obtain ⟨hx, hxs⟩ := List.forall_mem_cons.mp h
    rw [List.flatMap_cons, ← List.append_assoc, ih hxs, Line.collapse_append_cons (by decide),
      Line.collapse_cons (by decide), collapse_param hx]
    simp

theorem collapse_params {xs : List Parameter} (h : ∀ x ∈ xs, Named x.name) :
    Line.collapse (paramsText xs) = paramsText (xs.map flatParam) := by
  cases xs with
  | nil => rfl
  | cons x xs =>
    obtain ⟨hx, hxs⟩ := List.forall_mem_cons.mp h
    rw [paramsText, collapse_others hxs, collapse_param hx]
    rfl

theorem collapse_signature {name : String} (hn : Named name) {xs : List Parameter} (h : ∀ x ∈ xs, Named x.name)
    (kind : ExpressionKind) (type : String) : Line.collapse (signatureText name xs kind type) =
      signatureText name (xs.map flatParam) kind (oneLine type) := by
  have hresult : Line.collapse ((match kind with | .value => [] | .reference => ['r', 'e', 'f', ' ']) ++ type.toList) =
      (match kind with | .value => [] | .reference => ['r', 'e', 'f', ' ']) ++ (oneLine type).toList := by
    rw [oneLine, String.toList_ofList]
    cases kind with
    | value => rfl
    | reference => exact Line.collapse_append_cons (c := ' ') (by decide) ['r', 'e', 'f'] type.toList
  unfold signatureText
  rw [Line.collapse_cons (by decide), Line.collapse_append_cons (by decide), Line.collapse_flat hn.flat,
    Line.collapse_append_cons (by decide), collapse_params h]
  simp only [Line.collapse_cons (show ' ' ≠ '\r' by decide), Line.collapse_cons (show '-' ≠ '\r' by decide),
    Line.collapse_cons (show '>' ≠ '\r' by decide), hresult]
  rfl

end FlowCheck.Flow

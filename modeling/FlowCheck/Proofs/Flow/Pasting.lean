import FlowCheck.Language
import FlowCheck.Proofs.Flow.Content
import FlowCheck.Proofs.Flow.Words

/-! Texts pasted into an item. A text that is a whole type is read as that type where it is pasted, and a text that
    is a whole expression as that expression. -/

namespace FlowCheck.Flow

open FlowCheck.Flow.Parser

/-- No place matters. -/
abbrev anywhere (_ _ : Location) : Prop := True

/-! ### Whole texts -/

/-- Reads a text of which the parser leaves nothing. -/
def wholeText? {α : Type} (p : Parser α) (source : String) : Option α :=
  let text := tokenize source
  if text.diagnostics.isEmpty then
    match p text.tokens with
    | .ok read => if (current read.rest).kind = .endOfFile then some read.value else none
    | .error _ => none
  else none

/-- Reads a text that is a single expression. -/
def Expr.ofText? (source : String) : Option Expr := wholeText? expression source

theorem TypeExpr.ofText?_eq (source : String) : TypeExpr.ofText? source = wholeText? (typeExpr maxNesting) source := by
  simp only [TypeExpr.ofText?, wholeText?]
  cases typeExpr maxNesting (tokenize source).tokens <;> rfl

theorem wholeText?_iff {α : Type} {p : Parser α} {source : String} {a : α} : wholeText? p source = some a ↔
    (tokenize source).diagnostics = [] ∧
      ∃ rest, Reads p (tokenize source).tokens a rest ∧ (current rest).kind = .endOfFile := by
  constructor
  · intro h
    simp only [wholeText?] at h
    split at h
    · rename_i hnone
      split at h
      · rename_i read hread
        split at h
        · rename_i hend
          cases h
          exact ⟨List.isEmpty_iff.mp hnone, read.rest, .of_eq hread, hend⟩
        · cases h
      · cases h
    · cases h
  · rintro ⟨hnone, rest, ⟨_, hread⟩, hend⟩
    simp only [wholeText?, hnone, List.isEmpty_nil, ↓reduceIte, hread, hend]

section Whole

variable {α : Type} {V : (Location → Location → Prop) → α → α → Prop} {p : Parser α}
  (hp : ∀ A : Alignment, A.Respects (V A.place) p p) {a : α} {rest : List Token}
include hp

/-- No rule goes past a token that ends it. -/
theorem reads_before {w left : List Token} (hleft : (current left).kind.Inert) (hkinds : .endOfFile ∉ w.map (·.kind))
    (h : Reads p (w ++ left) a rest) : left <:+ rest := by
  let A := Alignment.free left left hleft hleft
  have hself : A.Aligned (w ++ left) (w ++ left) := .of_kinds (fun _ _ => trivial) rfl hkinds
  obtain ⟨_, _, -, -, haligned⟩ := (hp A).reads hself h
  exact haligned.suffix

/-- What is read up to the end of a text leaves that end. -/
theorem reads_whole {w : List Token} {last : Token} (hlast : last.kind = .endOfFile)
    (hkinds : .endOfFile ∉ w.map (·.kind)) (h : Reads p (w ++ [last]) a rest)
    (hrest : (current rest).kind = .endOfFile) : rest = [last] :=
  eq_of_current (reads_before hp (.inr (.inr (.inr hlast))) hkinds h) h.suffix (hrest ▸ hkinds)

theorem wholeText?_spec {source : String} (h : wholeText? p source = some a) :
    (content source.toList).problems = [] ∧ ∃ w last, w.map (·.kind) = (content source.toList).kinds ∧
      last.kind = .endOfFile ∧ Reads p (w ++ [last]) a [last] := by
  obtain ⟨hnone, rest, hreads, hend⟩ := wholeText?_iff.mp h
  obtain ⟨w, last, htokens, hlast, hkinds⟩ := tokenize_tokens source
  rw [htokens] at hreads
  obtain rfl := reads_whole hp hlast (hkinds ▸ endOfFile_notMem _) hreads hend
  exact ⟨tokenize_diagnostics.mp hnone, w, last, hkinds, hlast, hreads⟩

end Whole

theorem Expr.ofText?_spec {source : String} {body : Expr} (h : Expr.ofText? source = some body) :
    (content source.toList).problems = [] ∧ ∃ w last, w.map (·.kind) = (content source.toList).kinds ∧
      last.kind = .endOfFile ∧ Reads expression (w ++ [last]) body [last] :=
  wholeText?_spec (V := Expr.Alike) (fun A => A.respects_expression) h

theorem TypeExpr.ofText?_spec {source : String} {t : TypeExpr} (h : TypeExpr.ofText? source = some t) :
    (content source.toList).problems = [] ∧ ∃ w last, w.map (·.kind) = (content source.toList).kinds ∧
      last.kind = .endOfFile ∧ Reads (typeExpr maxNesting) (w ++ [last]) t [last] :=
  wholeText?_spec (V := TypeExpr.Alike) (fun A => A.respects_typeExpr maxNesting) (TypeExpr.ofText?_eq source ▸ h)

/-! ### Types -/

/-- The text is a single type. -/
def IsType (source : String) : Prop := (TypeExpr.ofText? source).isSome

instance : DecidablePred IsType := fun source => inferInstanceAs (Decidable ((TypeExpr.ofText? source).isSome = true))

theorem IsType.spec {source : String} (h : IsType source) : ∃ t, TypeExpr.ofText? source = some t :=
  Option.isSome_iff_exists.mp h

/-- No type has the sign between a signature and its expression. -/
theorem fatArrow_notMem_type {source : String} {t : TypeExpr} (h : TypeExpr.ofText? source = some t) :
    .symbol .fatArrow ∉ (content source.toList).kinds := by
  obtain ⟨-, w, last, hkinds, hlast, hreads⟩ := TypeExpr.ofText?_spec h
  intro hm
  rw [← hkinds] at hm
  obtain ⟨arrow, harrow, hkind⟩ := List.mem_map.mp hm
  obtain ⟨w₁, w₂, rfl⟩ := List.append_of_mem harrow
  have heof : .endOfFile ∉ w₁.map (·.kind) := fun hm' => endOfFile_notMem source.toList (by
    rw [← hkinds, List.map_append]
    exact List.mem_append_left _ hm')
  have hleft : (current (arrow :: (w₂ ++ [last]))).kind.Inert := .inr (.inr (.inl hkind))
  rw [List.append_assoc, List.cons_append] at hreads
  have hsuffix := reads_before (V := TypeExpr.Alike) (fun A => A.respects_typeExpr maxNesting) hleft heof hreads
  have hlength := hsuffix.length_le
  simp at hlength

theorem typeExpr_head {room : Nat} {ts rest : List Token} {t : TypeExpr} (h : Reads (typeExpr room) ts t rest) :
    ∃ name, (current ts).kind = .identifier name := by
  cases room with
  | zero =>
    obtain ⟨_, h⟩ := h
    cases h
  | succ room =>
    rw [typeExpr, reads_peek_bind] at h
    obtain ⟨name, _, hname, -⟩ := h.of_bind
    obtain ⟨first, rfl, hk⟩ := reads_identifier.mp hname
    exact ⟨name, hk⟩

/-- The first word of a type is a name. -/
theorem headD_type {source : String} {t : TypeExpr} (h : TypeExpr.ofText? source = some t) (kind : TokenKind) :
    ∃ name, (content source.toList).kinds.headD kind = .identifier name := by
  obtain ⟨-, w, last, hkinds, hlast, hreads⟩ := TypeExpr.ofText?_spec h
  obtain ⟨name, hname⟩ := typeExpr_head hreads
  rw [current_append, hkinds] at hname
  cases hc : (content source.toList).kinds with
  | nil => rw [hc] at hname; exact nomatch hlast.symm.trans hname
  | cons k ks => exact ⟨name, by rwa [hc] at hname⟩

/-- A text that is a type is read as that type wherever its words stand. -/
theorem yields_typeExpr {source : String} {t : TypeExpr} (h : TypeExpr.ofText? source = some t) :
    Yields (typeExpr maxNesting) (content source.toList).kinds endsType (t.Alike anywhere) := by
  obtain ⟨-, w, last, hkinds, hlast, hreads⟩ := TypeExpr.ofText?_spec h
  intro w' more hw' hmore
  let B : Border := ⟨anywhere, [last], more⟩
  have haligned : B.Aligned (w ++ [last]) (w' ++ more) :=
    .of_kinds (fun _ _ => trivial) (hkinds.trans hw'.symm) (hkinds ▸ endOfFile_notMem _)
  obtain ⟨t', rest, hreads', halike, hrest⟩ :=
    Border.carries_typeExpr (B := B) hlast maxNesting haligned hreads (List.suffix_refl _) fun _ => hmore
  obtain rfl : rest = more := hrest.of_left
  exact ⟨t', hreads', halike⟩

/-! ### Signatures -/

/-- The words of a parameter. -/
def paramKinds (x : Parameter) : List TokenKind :=
  .identifier x.name :: .symbol .colon :: (content x.typeName.toList).kinds

/-- The parameter is what its text says. -/
def ReadAs (x : Parameter) (p : Param) : Prop :=
  p.name = x.name ∧ ∃ t, TypeExpr.ofText? x.typeName = some t ∧ t.Alike anywhere p.type

theorem names_of_readAs {xs : List Parameter} {ps : List Param} (h : List.Forall₂ ReadAs xs ps) :
    ps.map (·.name) = xs.map (·.name) := by
  induction h with
  | nil => rfl
  | cons hx _ ih => rw [List.map_cons, List.map_cons, hx.1, ih]

theorem readAs_of_mem {xs : List Parameter} {ps : List Param} (h : List.Forall₂ ReadAs xs ps) {p : Param}
    (hp : p ∈ ps) : ∃ x ∈ xs, ReadAs x p := by
  induction h with
  | nil => cases hp
  | cons hx _ ih =>
    rcases List.mem_cons.mp hp with rfl | hp
    · exact ⟨_, .head _, hx⟩
    · obtain ⟨x, hx, h⟩ := ih hp
      exact ⟨x, .tail _ hx, h⟩

theorem yields_param {x : Parameter} {t : TypeExpr} (h : TypeExpr.ofText? x.typeName = some t) :
    Yields param (paramKinds x) endsType (ReadAs x) := by
  refine yields_peek fun first => ?_
  refine yields_bind (K := [_]) (N := fun _ => True) (yields_identifier x.name) (fun name hname => ?_)
    fun _ _ => trivial
  refine yields_bind (K := [_]) (N := fun _ => True) (yields_expect .colon) (fun _ _ => ?_) fun _ _ => trivial
  have htype := yields_bind (M := endsType) (f := fun type => pure (⟨name, type, first.start⟩ : Param))
    (W := ReadAs x) (yields_typeExpr h) (fun type htype => yields_pure ⟨hname, t, h, htype⟩) fun _ hk => hk
  rwa [List.append_nil] at htype

/-- The words of some parameters. -/
def paramsKinds : List Parameter → List TokenKind
  | [] => []
  | x :: xs => paramKinds x ++ xs.flatMap fun y => .symbol .comma :: paramKinds y

theorem yields_params {xs : List Parameter} (h : ∀ x ∈ xs, IsType x.typeName) :
    Yields params (paramsKinds xs) (· = .symbol .rightParen) (List.Forall₂ ReadAs xs) := by
  intro w more hw hmore
  unfold params
  simp only [reads_peek_bind]
  rw [current_append, hw]
  cases xs with
  | nil =>
    obtain rfl := List.map_eq_nil_iff.mp hw
    exact ⟨[], by simp [paramsKinds, hmore, reads_pure], .nil⟩
  | cons x xs =>
    have hparam : ∀ y ∈ x :: xs, Yields param (paramKinds y) endsType (ReadAs y) := by
      intro y hy
      obtain ⟨t, ht⟩ := (h y hy).spec
      exact yields_param ht
    obtain ⟨ps, hps, hV⟩ := yields_commaSeparated hparam ⟨nofun, nofun⟩ hw (by rw [hmore]; exact ⟨nofun, nofun, nofun⟩)
    exact ⟨ps, by simpa [paramsKinds, paramKinds] using hps, hV⟩

/-- The words of a signature. -/
def signatureKinds (name : String) (xs : List Parameter) (kind : ExpressionKind) (type : String) : List TokenKind :=
  .identifier name :: .symbol .leftParen :: (paramsKinds xs ++ .symbol .rightParen :: .symbol .arrow ::
    ((match kind with | .value => [] | .reference => [.symbol .keywordRef]) ++ (content type.toList).kinds))

/-- The signature is what its text says. -/
structure SignatureAs (name : String) (xs : List Parameter) (kind : ExpressionKind) (type : TypeExpr)
    (s : String × List Param × Bool × TypeExpr) : Prop where
  name : s.1 = name
  params : List.Forall₂ ReadAs xs s.2.1
  byRef : s.2.2.1 = (kind == .reference)
  returnType : type.Alike anywhere s.2.2.2

theorem yields_signature (name : String) {xs : List Parameter} (hxs : ∀ x ∈ xs, IsType x.typeName)
    (kind : ExpressionKind) {type : String} {t : TypeExpr} (ht : TypeExpr.ofText? type = some t) :
    Yields Alignment.signature (signatureKinds name xs kind type) endsType (SignatureAs name xs kind t) := by
  have always : ∀ kind : TokenKind, endsType kind → True := fun _ _ => trivial
  refine yields_bind (K := [_]) (N := fun _ => True) (yields_identifier name) (fun name' hname => ?_) always
  refine yields_bind (K := [_]) (N := fun _ => True) (yields_expect .leftParen) (fun _ _ => ?_) always
  refine yields_bind (yields_params hxs) (fun ps hps => ?_) fun _ _ => rfl
  refine yields_bind (K := [_]) (N := fun _ => True) (yields_expect .rightParen) (fun _ _ => ?_) always
  refine yields_bind (K := [_]) (N := fun _ => True) (yields_expect .arrow) (fun _ _ => ?_) always
  have htype : ∀ byRef : Bool, byRef = (kind == .reference) →
      Yields (typeExpr maxNesting >>= fun type => pure (name', ps, byRef, type)) (content type.toList).kinds endsType
        (SignatureAs name xs kind t) := by
    intro byRef hbyRef
    have h := yields_bind (M := endsType) (f := fun type => pure (name', ps, byRef, type))
      (W := SignatureAs name xs kind t) (yields_typeExpr ht)
      (fun type halike => yields_pure ⟨hname, hps, hbyRef, halike⟩) fun _ hk => hk
    rwa [List.append_nil] at h
  cases kind with
  | value =>
    refine yields_bind (K := []) (yields_eat_none .keywordRef) (fun byRef hbyRef => htype byRef hbyRef) fun kind _ => ?_
    obtain ⟨first, hfirst⟩ := headD_type ht kind
    rw [hfirst]
    exact nofun
  | reference =>
    exact yields_bind (K := [_]) (N := fun _ => True) (yields_eat .keywordRef) (fun byRef hbyRef => htype byRef hbyRef)
      always

/-! ### Items -/

/-- The words of an item behind its `fn`. -/
def itemKinds (name : String) (xs : List Parameter) (kind : ExpressionKind) (type : String) (text : List Char) :
    List TokenKind :=
  signatureKinds name xs kind type ++ .symbol .fatArrow :: ((content text).kinds ++ [.symbol .semicolon])

/-- The item is what its text says. -/
structure ItemAs (name : String) (xs : List Parameter) (kind : ExpressionKind) (type : TypeExpr) (body : Expr)
    (i : Item) : Prop where
  name : i.name = name
  params : List.Forall₂ ReadAs xs i.params
  byRef : i.byRef = (kind == .reference)
  returnType : type.Alike anywhere i.returnType
  body : body.Alike anywhere i.body

/-- An item is a signature, the sign behind it, and an expression up to a semicolon. -/
theorem reads_item {start : Location} {ts rest : List Token} {i : Item} (h : Reads (item start) ts i rest) :
    ∃ s arrow more semicolon, Reads Alignment.signature ts s (arrow :: more) ∧ arrow.kind = .symbol .fatArrow ∧
      Reads expression more i.body (semicolon :: rest) ∧ semicolon.kind = .symbol .semicolon := by
  rw [Alignment.item_eq] at h
  obtain ⟨s, _, hsignature, h₁⟩ := h.of_bind
  obtain ⟨_, more, h₁, h₂⟩ := h₁.of_bind
  obtain ⟨body, _, hbody, h₃⟩ := h₂.of_bind
  obtain ⟨_, _, h₃, h₄⟩ := h₃.of_bind
  obtain ⟨arrow, rfl, harrow⟩ := reads_expect.mp h₁
  obtain ⟨semicolon, rfl, hsemicolon⟩ := reads_expect.mp h₃
  obtain ⟨rfl, rfl⟩ := reads_pure.mp h₄
  exact ⟨s, arrow, more, semicolon, hsignature, harrow, hbody, hsemicolon⟩

/-- Without the sign between a signature and its expression there is no item. -/
theorem fatArrow_of_item {start : Location} {ts rest : List Token} {i : Item} (h : Reads (item start) ts i rest) :
    ∃ t ∈ ts, t.kind = .symbol .fatArrow := by
  obtain ⟨_, arrow, _, _, hsignature, harrow, -, -⟩ := reads_item h
  exact ⟨arrow, hsignature.suffix.mem (List.mem_cons_self ..), harrow⟩

/-- The expression of an item is read from the words behind those of the signature. -/
theorem body_of_item {name : String} {xs : List Parameter} (hxs : ∀ x ∈ xs, IsType x.typeName) {kind : ExpressionKind}
    {type : String} (ht : IsType type) {L : List TokenKind} {start : Location} {w more rest : List Token} {i : Item}
    (hw : w.map (·.kind) = signatureKinds name xs kind type ++ [.symbol .fatArrow] ++ L)
    (h : Reads (item start) (w ++ more) i rest) : ∃ w' semicolon, w'.map (·.kind) = L ∧
      Reads expression (w' ++ more) i.body (semicolon :: rest) ∧ semicolon.kind = .symbol .semicolon := by
  obtain ⟨s, arrow, behind, semicolon, hsignature, -, hbody, hsemicolon⟩ := reads_item h
  obtain ⟨w₁, w₂, rfl, hw₁, hw₂⟩ := List.map_eq_append_iff.mp hw
  obtain ⟨w₀, w₁, rfl, hw₀, hw₁⟩ := List.map_eq_append_iff.mp hw₁
  obtain ⟨sign, rfl, hsign⟩ := List.map_eq_singleton_iff.mp hw₁
  obtain ⟨t, ht⟩ := ht.spec
  have hnext : endsType (current (sign :: (w₂ ++ more))).kind := by
    show endsType sign.kind
    rw [hsign]
    exact ⟨nofun, nofun⟩
  obtain ⟨s', hs', -⟩ := yields_signature name hxs kind ht hw₀ hnext
  have hassoc : w₀ ++ [sign] ++ w₂ ++ more = w₀ ++ sign :: (w₂ ++ more) := by simp
  rw [hassoc] at hsignature
  obtain ⟨-, hrest⟩ := hsignature.unique hs'
  obtain ⟨rfl, rfl⟩ := List.cons_eq_cons.mp hrest
  exact ⟨w₂, semicolon, hw₂, hbody, hsemicolon⟩

/-- An item that is put together from types and an expression is read as it was put together. -/
theorem item_pasted (name : String) {xs : List Parameter} (hxs : ∀ x ∈ xs, IsType x.typeName)
    (kind : ExpressionKind) {type : String} {t : TypeExpr} (ht : TypeExpr.ofText? type = some t) {source : String}
    {body : Expr} (hbody : Expr.ofText? source = some body) (start : Location) {w more : List Token}
    (hw : w.map (·.kind) = itemKinds name xs kind type source.toList) :
    ∃ i, Reads (item start) (w ++ more) i more ∧ ItemAs name xs kind t body i := by
  obtain ⟨-, v, last, hv, hlast, hreads⟩ := Expr.ofText?_spec hbody
  obtain ⟨w₁, w', rfl, hw₁, hw'⟩ := List.map_eq_append_iff.mp hw
  obtain ⟨arrow, w', rfl, harrow, hw'⟩ := List.map_eq_cons_iff.mp hw'
  obtain ⟨w₂, w₃, rfl, hw₂, hw₃⟩ := List.map_eq_append_iff.mp hw'
  obtain ⟨semicolon, rfl, hsemicolon⟩ := List.map_eq_singleton_iff.mp hw₃
  have hnext : endsType (current (arrow :: (w₂ ++ semicolon :: more))).kind := by
    show endsType arrow.kind
    rw [harrow]
    exact ⟨nofun, nofun⟩
  obtain ⟨s, hs, hsig⟩ := yields_signature name hxs kind ht hw₁ hnext
  let A := Alignment.free [last] (semicolon :: more) (.inr (.inr (.inr hlast))) (.inr (.inl hsemicolon))
  have haligned : A.Aligned (v ++ [last]) (w₂ ++ semicolon :: more) :=
    .of_kinds (fun _ _ => trivial) (hv.trans hw₂.symm) (hv ▸ endOfFile_notMem _)
  obtain ⟨body', rest, hreads', halike, hrest⟩ := A.respects_expression.reads haligned hreads
  obtain rfl : rest = semicolon :: more := hrest.of_left
  refine ⟨⟨s.1, s.2.1, s.2.2.1, s.2.2.2, body', start⟩, ?_,
    ⟨hsig.name, hsig.params, hsig.byRef, hsig.returnType, halike⟩⟩
  have hassoc : w₁ ++ arrow :: (w₂ ++ [semicolon]) ++ more = w₁ ++ arrow :: (w₂ ++ semicolon :: more) := by simp
  rw [Alignment.item_eq, hassoc]
  exact hs.bind ((reads_expect.mpr ⟨_, rfl, harrow⟩).bind (hreads'.bind
    ((reads_expect.mpr ⟨_, rfl, hsemicolon⟩).bind (reads_pure.mpr ⟨rfl, rfl⟩))))

end FlowCheck.Flow

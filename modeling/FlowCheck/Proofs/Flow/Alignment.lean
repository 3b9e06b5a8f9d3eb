import FlowCheck.Proofs.Flow.Alike
import FlowCheck.Proofs.Flow.Reading
import FlowCheck.Proofs.Flow.Stage

/-! What a parser can see of its tokens. Two lists of tokens are aligned when they have the same kinds at
    related places up to a point where reading has to stop, whatever stands there and behind it. No rule of the
    grammar goes past that point, so on aligned lists a parser either reads alike values and leaves aligned
    lists, or stops with related problems (`Respects`). Each parser has one lemma; those of the grammar follow
    from those of `Parser` as the grammar is put together. -/

namespace FlowCheck.Flow

open FlowCheck.Flow.Parser

/-- Kinds of tokens that end an expression, a type and the parameters of an item: none of their rules takes one. -/
def TokenKind.Inert (kind : TokenKind) : Prop :=
  kind = .symbol .keywordFn ∨ kind = .symbol .semicolon ∨ kind = .symbol .fatArrow ∨ kind = .endOfFile

theorem TokenKind.Inert.ne_identifier {kind : TokenKind} (h : kind.Inert) (name : String) :
    kind ≠ .identifier name := by
  rcases h with rfl | rfl | rfl | rfl <;> simp

/-- Two lists of tokens to stop at, and the relation of the places before them. -/
structure Border where
  place : Location → Location → Prop
  left : List Token
  right : List Token

namespace Border

variable {B : Border}

/-- Two tokens that differ in related places only. -/
structure SameToken (B : Border) (t t' : Token) : Prop where
  kind : t.kind = t'.kind
  start : B.place t.start t'.start
  anchor : B.place t.anchor t'.anchor

/-- Two lists of tokens that differ in related places only, up to the border. -/
inductive Aligned (B : Border) : List Token → List Token → Prop where
  | stop : Aligned B B.left B.right
  | cons {t t' ts ts'} : B.SameToken t t' → t.kind ≠ .endOfFile → Aligned B ts ts' → Aligned B (t :: ts) (t' :: ts')

theorem Aligned.append {ts : List Token} (h : ∀ t ∈ ts, B.SameToken t t ∧ t.kind ≠ .endOfFile) :
    B.Aligned (ts ++ B.left) (ts ++ B.right) := by
  induction ts with
  | nil => exact .stop
  | cons t ts ih =>
    obtain ⟨ht, hts⟩ := List.forall_mem_cons.mp h
    exact .cons ht.1 ht.2 (ih hts)

theorem Aligned.suffix {ts ts' : List Token} (h : B.Aligned ts ts') : B.left <:+ ts := by
  induction h with
  | stop => exact List.suffix_refl _
  | cons _ _ _ ih => exact ih.trans (List.suffix_cons _ _)

theorem Aligned.suffix_right {ts ts' : List Token} (h : B.Aligned ts ts') : B.right <:+ ts' := by
  induction h with
  | stop => exact List.suffix_refl _
  | cons _ _ _ ih => exact ih.trans (List.suffix_cons _ _)

end Border

/-- A border where reading stops on both sides, and how the problems of the two sides are related. -/
structure Alignment extends Border where
  fault : Diagnostic → Diagnostic → Prop
  located : ∀ {loc loc' : Location} (p : Problem), p.ofForm = true → place loc loc' →
    fault (p.located loc) (p.located loc')
  left_inert : (current left).kind.Inert
  right_inert : (current right).kind.Inert
  missing : ∀ p : Problem, p.ofForm = true →
    fault (p.located (current left).anchor) (p.located (current right).anchor)
  invalid : fault ((Problem.invalidTerm (current left).kind.describe).located (current left).anchor)
    ((Problem.invalidTerm (current right).kind.describe).located (current right).anchor)

namespace Alignment

open Border

variable {A : Alignment}

/-- Two outcomes of reading: related values with aligned rests, or related problems. -/
def Agree {α : Type} (A : Alignment) (V : α → α → Prop) {ts ts' : List Token} :
    Except Diagnostic (Parsed α ts) → Except Diagnostic (Parsed α ts') → Prop
  | .ok a, .ok b => V a.value b.value ∧ A.Aligned a.rest b.rest
  | .error d, .error e => A.fault d e
  | _, _ => False

/-- Two parsers agree on all aligned lists. -/
def Respects {α : Type} (A : Alignment) (V : α → α → Prop) (p q : Parser α) : Prop :=
  ∀ ⦃ts ts' : List Token⦄, A.Aligned ts ts' → A.Agree V (p ts) (q ts')

/-- Two ends where reading stops, when neither places nor problems matter. -/
def free (left right : List Token) (hl : (current left).kind.Inert) (hr : (current right).kind.Inert) : Alignment where
  place _ _ := True
  fault _ _ := True
  left := left
  right := right
  located _ _ _ := trivial
  left_inert := hl
  right_inert := hr
  missing _ _ := trivial
  invalid := trivial

/-- Two ends where reading stops with the same problems, when there are the same tokens before them. -/
def same (left right : List Token) (hl : (current left).kind.Inert) (hkind : (current left).kind = (current right).kind)
    (hanchor : (current left).anchor = (current right).anchor) : Alignment where
  place := (· = ·)
  fault := (· = ·)
  left := left
  right := right
  located _ _ h := by rw [h]
  left_inert := hl
  right_inert := hkind ▸ hl
  missing _ _ := by rw [hanchor]
  invalid := by rw [hkind, hanchor]

theorem Respects.reads {α : Type} {V : α → α → Prop} {p q : Parser α} (h : A.Respects V p q) {ts ts' : List Token}
    (hts : A.Aligned ts ts') {a : α} {rest : List Token} (ha : Reads p ts a rest) :
    ∃ b rest', Reads q ts' b rest' ∧ V a b ∧ A.Aligned rest rest' := by
  obtain ⟨_, ha⟩ := ha
  have hagree := h hts
  rw [ha] at hagree
  cases hq : q ts' with
  | error d => rw [hq] at hagree; exact hagree.elim
  | ok b =>
    rw [hq] at hagree
    exact ⟨_, _, .of_eq hq, hagree⟩

/-! ### Single tokens -/

section Combinators

variable {α β : Type} {V : α → α → Prop} {W : β → β → Prop}

theorem respects_pure {a b : α} (h : V a b) : A.Respects V (pure a : Parser α) (pure b) := fun _ _ hts => ⟨h, hts⟩

theorem Agree.widen {few few' many many' : List Token} {x : Except Diagnostic (Parsed α few)}
    {y : Except Diagnostic (Parsed α few')} (h : A.Agree V x y) (hs : few <:+ many) (hs' : few' <:+ many') :
    A.Agree V (x.map (Parsed.widen hs)) (y.map (Parsed.widen hs')) := by
  cases x <;> cases y <;> exact h

theorem respects_bind {p q : Parser α} {f g : α → Parser β} (hp : A.Respects V p q)
    (hf : ∀ a b, V a b → A.Respects W (f a) (g b)) : A.Respects W (p >>= f) (q >>= g) := by
  intro ts ts' hts
  have h := hp hts
  rw [bind_apply, bind_apply]
  cases hp : p ts <;> cases hq : q ts' <;> rw [hp, hq] at h
  · exact h
  · exact h.elim
  · exact h.elim
  · rename_i a b
    exact (hf a.value b.value h.1 h.2).widen a.suffix b.suffix

theorem respects_fail (p : Problem) (hp : p.ofForm = true) : A.Respects V (fail p : Parser α) (fail p) := by
  intro ts ts' hts
  cases hts with
  | stop => exact A.missing p hp
  | cons ht _ _ => exact A.located p hp ht.anchor

/-- Where reading stops no symbol of the grammar's rules is found. -/
theorem stop_ne {s : Symbol} (hs : ¬(TokenKind.symbol s).Inert) :
    (current A.left).kind ≠ .symbol s ∧ (current A.right).kind ≠ .symbol s :=
  ⟨fun h => hs (h ▸ A.left_inert), fun h => hs (h ▸ A.right_inert)⟩

theorem respects_eat {s : Symbol} (hs : ¬(TokenKind.symbol s).Inert) : A.Respects (· = ·) (eat s) (eat s) := by
  intro ts ts' hts
  cases hts with
  | stop =>
    rw [eat_of_ne (stop_ne hs).1, eat_of_ne (stop_ne hs).2]
    exact ⟨rfl, .stop⟩
  | @cons t t' ts ts' ht hkind h =>
    by_cases hk : t.kind = .symbol s
    · rw [eat_cons_of_eq hk, eat_cons_of_eq (ht.kind ▸ hk)]
      exact ⟨rfl, h⟩
    · rw [eat_cons_of_ne hk, eat_cons_of_ne (ht.kind ▸ hk)]
      exact ⟨rfl, .cons ht hkind h⟩

theorem respects_expect {s : Symbol} (hs : (current A.left).kind ≠ .symbol s ∧ (current A.right).kind ≠ .symbol s) :
    A.Respects (· = ·) (expect s) (expect s) := by
  intro ts ts' hts
  cases hts with
  | stop =>
    rw [expect_of_ne hs.1, expect_of_ne hs.2]
    exact A.missing _ rfl
  | @cons t t' ts ts' ht hkind h =>
    by_cases hk : t.kind = .symbol s
    · rw [expect_cons_of_eq hk, expect_cons_of_eq (ht.kind ▸ hk)]
      exact ⟨rfl, h⟩
    · rw [expect_cons_of_ne hk, expect_cons_of_ne (ht.kind ▸ hk)]
      exact A.located _ rfl ht.anchor

theorem respects_identifier : A.Respects (· = ·) identifier identifier := by
  intro ts ts' hts
  cases hts with
  | stop =>
    rw [identifier_of_ne A.left_inert.ne_identifier, identifier_of_ne A.right_inert.ne_identifier]
    exact A.missing _ rfl
  | @cons t t' ts ts' ht hkind h =>
    by_cases hk : ∃ name, t.kind = .identifier name
    · obtain ⟨name, hk⟩ := hk
      rw [identifier_cons_of_eq hk, identifier_cons_of_eq (ht.kind ▸ hk)]
      exact ⟨rfl, h⟩
    · rw [identifier_cons_of_ne fun name hn => hk ⟨name, hn⟩,
        identifier_cons_of_ne fun name hn => hk ⟨name, ht.kind.trans hn⟩]
      exact A.located _ rfl ht.anchor

/-- Looking at the front: at a token of both lists, or where both stop. -/
theorem respects_peek {f g : Token → Parser α}
    (hcons : ∀ t t' ts ts', A.SameToken t t' → t.kind ≠ .endOfFile → A.Aligned ts ts' →
      A.Agree V (f t (t :: ts)) (g t' (t' :: ts')))
    (hstop : A.Agree V (f (current A.left) A.left) (g (current A.right) A.right)) :
    A.Respects V (peek >>= f) (peek >>= g) := by
  intro ts ts' hts
  rw [bind_apply, bind_apply]
  cases hts with
  | stop => exact hstop.widen (List.suffix_refl _) (List.suffix_refl _)
  | @cons t t' ts ts' ht hkind h =>
    exact (hcons t t' ts ts' ht hkind h).widen (List.suffix_refl _) (List.suffix_refl _)

theorem agree_advance {f g : Token → Parser α} {t t' : Token} {ts ts' : List Token} (h : A.Aligned ts ts')
    (hf : A.Respects V (f t) (g t')) : A.Agree V ((advance >>= f) (t :: ts)) ((advance >>= g) (t' :: ts')) := by
  rw [bind_apply, bind_apply]
  exact (hf h).widen (List.suffix_cons t ts) (List.suffix_cons t' ts')

/-- Looking at the front before a name: there is one in both lists, or in none. -/
theorem respects_named {f g : Token → String → Parser α}
    (h : ∀ t t' name, A.place t.start t'.start → A.Respects V (f t name) (g t' name)) :
    A.Respects V (peek >>= fun t => identifier >>= f t) (peek >>= fun t => identifier >>= g t) := by
  refine respects_peek (fun t t' ts ts' ht hkind hts => ?_) ?_
  · exact respects_bind respects_identifier (fun name _ e => e ▸ h _ _ name ht.start) (.cons ht hkind hts)
  · rw [bind_apply, bind_apply, identifier_of_ne A.left_inert.ne_identifier,
      identifier_of_ne A.right_inert.ne_identifier]
    exact A.missing _ rfl

/-! ### Repetition -/

theorem respects_loop {start? : TokenKind → Option β} {step step' : α → β → Token → Parser α}
    (hstart : ∀ kind : TokenKind, kind.Inert → start? kind = none)
    (hstep : ∀ a a' b t t', V a a' → A.SameToken t t' → A.Respects V (step a b t) (step' a' b t')) {a a' : α}
    (ha : V a a') : A.Respects V (loop start? step a) (loop start? step' a') := by
  intro ts
  -- Each round takes a token and leaves a suffix of what follows it.
  induction hn : ts.length using Nat.strongRecOn generalizing ts a a' with
  | _ n ih =>
    intro ts' hts
    cases hts with
    | stop =>
      rw [loop_of_none (hstart _ A.left_inert), loop_of_none (hstart _ A.right_inert)]
      exact ⟨ha, .stop⟩
    | @cons t t' ts ts' ht hkind hts =>
      cases hs : start? t.kind with
      | none =>
        rw [loop_cons_of_none hs, loop_cons_of_none (ht.kind ▸ hs)]
        exact ⟨ha, .cons ht hkind hts⟩
      | some b =>
        rw [loop_of_some hs, loop_of_some (ht.kind ▸ hs)]
        have h := hstep a a' b t t' ha ht hts
        cases hl : step a b t ts <;> cases hr : step' a' b t' ts' <;> rw [hl, hr] at h
        · exact h
        · exact h.elim
        · exact h.elim
        · rename_i next next'
          have hlt : next.rest.length < n := by
            have := next.suffix.length_le
            simp only [List.length_cons] at hn
            omega
          exact (ih _ hlt h.1 rfl h.2).widen _ _

theorem respects_commaSeparated {p q : Parser α} (h : A.Respects V p q) :
    A.Respects (List.Forall₂ V) (commaSeparated p) (commaSeparated q) := by
  refine respects_bind h fun a b hab => respects_loop ?_ ?_ (.cons hab .nil)
  · rintro kind (rfl | rfl | rfl | rfl) <;> rfl
  · intro read read' _ t t' hread _
    exact respects_bind h fun a b hab => respects_pure (List.rel_append hread (.cons hab .nil))

end Combinators

/-! ### Types -/

theorem respects_typeExpr (room : Nat) : A.Respects (TypeExpr.Alike A.place) (typeExpr room) (typeExpr room) := by
  induction room with
  | zero => exact respects_fail _ rfl
  | succ room ih =>
    unfold typeExpr
    refine respects_named fun t t' name hloc => ?_
    refine respects_bind (V := (· = ·)) (respects_loop ?_ ?_ rfl) ?_
    · rintro kind (rfl | rfl | rfl | rfl) <;> rfl
    · rintro path _ _ t t' rfl _
      exact respects_bind respects_identifier fun name _ e => e ▸ respects_pure rfl
    · rintro path _ rfl
      refine respects_bind (respects_eat (by rintro (h | h | h | h) <;> cases h)) fun more _ e => ?_
      subst e
      cases more
      · exact respects_pure (.mk .nil hloc)
      · refine respects_bind (respects_commaSeparated ih) fun args args' hargs => ?_
        refine respects_bind (respects_expect (stop_ne (by rintro (h | h | h | h) <;> cases h))) fun _ _ _ => ?_
        exact respects_pure (.mk hargs hloc)

/-! ### Expressions -/

theorem respects_node {e e' : Expr} (h : e.Alike A.place e') :
    A.Respects (Expr.Alike A.place) (node e) (node e') := by
  unfold node
  rw [h.height]
  split
  · exact respects_fail _ rfl
  · exact respects_pure h

theorem ofToken?_alike {t t' : Token} (ht : A.SameToken t t') :
    (Expr.ofToken? t = none ∧ Expr.ofToken? t' = none) ∨
      ∃ e e', Expr.ofToken? t = some e ∧ Expr.ofToken? t' = some e' ∧ e.Alike A.place e' := by
  have hs := ht.start
  unfold Expr.ofToken?
  rw [← ht.kind]
  split
  · exact .inr ⟨_, _, rfl, rfl, .int hs⟩
  · exact .inr ⟨_, _, rfl, rfl, .float hs⟩
  · exact .inr ⟨_, _, rfl, rfl, .string hs⟩
  · exact .inr ⟨_, _, rfl, rfl, .name hs⟩
  · exact .inr ⟨_, _, rfl, rfl, .bool hs⟩
  · exact .inr ⟨_, _, rfl, rfl, .bool hs⟩
  · exact .inr ⟨_, _, rfl, rfl, .null hs⟩
  · exact .inl ⟨rfl, rfl⟩

theorem ofToken?_of_inert {t : Token} (h : t.kind.Inert) : Expr.ofToken? t = none := by
  unfold Expr.ofToken?
  rcases h with h | h | h | h <;> rw [h]

theorem respects_primary {inner inner' : Parser Expr} (h : A.Respects (Expr.Alike A.place) inner inner') :
    A.Respects (Expr.Alike A.place) (primary inner) (primary inner') := by
  unfold primary
  refine respects_peek (fun t t' ts ts' ht hkind hts => ?_) ?_
  · rcases ofToken?_alike ht with ⟨hn, hn'⟩ | ⟨e, e', he, he', hee⟩
    · simp only [hn, hn', ← ht.kind]
      split
      · refine agree_advance hts (respects_bind h fun e e' hee => ?_)
        refine respects_bind (respects_expect (stop_ne (by rintro (h | h | h | h) <;> cases h))) fun _ _ _ => ?_
        exact respects_pure hee
      · exact A.located _ rfl ht.anchor
    · simp only [he, he']
      exact agree_advance hts (respects_pure hee)
  · have hp := stop_ne (A := A) (s := .leftParen) (by rintro (h | h | h | h) <;> cases h)
    simp only [ofToken?_of_inert A.left_inert, ofToken?_of_inert A.right_inert, hp.1, hp.2, ↓reduceIte]
    exact A.invalid

theorem respects_member {inner inner' : Parser Expr} (h : A.Respects (Expr.Alike A.place) inner inner') :
    A.Respects (Expr.Alike A.place) (member inner) (member inner') := by
  unfold member
  refine respects_bind (respects_primary h) fun target target' htarget => respects_loop ?_ ?_ htarget
  · rintro kind (rfl | rfl | rfl | rfl) <;> rfl
  · intro target target' _ t t' htarget _
    exact respects_named fun t t' name hloc => respects_node (.member htarget hloc)

theorem respects_unary {operand operand' inner inner' : Parser Expr}
    (ho : A.Respects (Expr.Alike A.place) operand operand') (h : A.Respects (Expr.Alike A.place) inner inner') :
    A.Respects (Expr.Alike A.place) (unary operand inner) (unary operand' inner') := by
  have none_of_inert : ∀ {kind : TokenKind}, kind.Inert → UnaryOp.ofKind? kind = none := by
    rintro kind (rfl | rfl | rfl | rfl) <;> rfl
  unfold unary
  refine respects_peek (fun t t' ts ts' ht hkind hts => ?_) ?_
  · rw [← ht.kind]
    cases UnaryOp.ofKind? t.kind with
    | none => exact respects_member h (.cons ht hkind hts)
    | some op =>
      exact agree_advance hts (respects_bind ho fun e e' hee => respects_node (.unary hee ht.start))
  · rw [none_of_inert A.left_inert, none_of_inert A.right_inert]
    exact respects_member h .stop

theorem respects_binary {operand operand' : Parser Expr} (h : A.Respects (Expr.Alike A.place) operand operand')
    (tiers : List (List BinaryOp)) :
    A.Respects (Expr.Alike A.place) (binary operand tiers) (binary operand' tiers) := by
  induction tiers with
  | nil => exact h
  | cons tier tighter ih =>
    unfold binary
    refine respects_bind ih fun left left' hleft => respects_loop ?_ ?_ hleft
    · intro kind hkind
      refine List.find?_eq_none.mpr fun op _ => ?_
      rcases hkind with rfl | rfl | rfl | rfl <;> cases op <;> decide
    · intro left left' op t t' hleft ht
      exact respects_bind ih fun right right' hright => respects_node (.binary hleft hright ht.start)

theorem respects_conditional {operand operand' branch branch' : Parser Expr}
    (ho : A.Respects (Expr.Alike A.place) operand operand') (hb : A.Respects (Expr.Alike A.place) branch branch') :
    A.Respects (Expr.Alike A.place) (conditional operand branch) (conditional operand' branch') := by
  unfold conditional
  refine respects_bind (respects_binary ho _) fun test test' htest => ?_
  refine respects_peek (fun t t' ts ts' ht hkind hts => ?_) ?_
  · rw [← ht.kind]
    split
    · refine agree_advance hts (respects_bind hb fun positive positive' hpositive => ?_)
      refine respects_bind (respects_expect (stop_ne (by rintro (h | h | h | h) <;> cases h))) fun _ _ _ => ?_
      refine respects_bind hb fun negative negative' hnegative => ?_
      exact respects_node (.conditional htest hpositive hnegative ht.start)
    · exact respects_pure htest (.cons ht hkind hts)
  · have hq := stop_ne (A := A) (s := .question) (by rintro (h | h | h | h) <;> cases h)
    simp only [hq.1, hq.2, ↓reduceIte]
    exact respects_pure htest .stop

theorem respects_level (room : Nat) :
    A.Respects (Expr.Alike A.place) (level room).expression (level room).expression ∧
      A.Respects (Expr.Alike A.place) (level room).operand (level room).operand := by
  induction room with
  | zero => exact ⟨respects_fail _ rfl, respects_unary (respects_fail _ rfl) (respects_fail _ rfl)⟩
  | succ room ih =>
    have h := respects_conditional ih.2 ih.1
    exact ⟨h, respects_unary ih.2 h⟩

theorem respects_expression : A.Respects (Expr.Alike A.place) expression expression :=
  (respects_level maxNesting).1

/-! ### Items -/

theorem respects_param : A.Respects (Param.Alike A.place) param param := by
  unfold param
  refine respects_named fun t t' name hloc => ?_
  refine respects_bind (respects_expect (stop_ne (by rintro (h | h | h | h) <;> cases h))) fun _ _ _ => ?_
  exact respects_bind (respects_typeExpr _) fun type type' htype => respects_pure ⟨rfl, htype, hloc⟩

theorem respects_params : A.Respects (List.Forall₂ (Param.Alike A.place)) params params := by
  unfold params
  refine respects_peek (fun t t' ts ts' ht hkind hts => ?_) ?_
  · rw [← ht.kind]
    split
    · exact respects_pure .nil (.cons ht hkind hts)
    · exact respects_commaSeparated respects_param (.cons ht hkind hts)
  · have hp := stop_ne (A := A) (s := .rightParen) (by rintro (h | h | h | h) <;> cases h)
    simp only [hp.1, hp.2, ↓reduceIte]
    exact respects_commaSeparated respects_param .stop

/-- What stands in an item between its name and its body: the parameters, whether it gives a reference, and the
type. -/
def header : Parser (List Param × Bool × TypeExpr) := do
  expect .leftParen
  let params ← params
  expect .rightParen
  expect .arrow
  let byRef ← eat .keywordRef
  let returnType ← typeExpr maxNesting
  pure (params, byRef, returnType)

/-- The same parameters and the same type at related places. -/
structure SameHeader (r : Location → Location → Prop) (h h' : List Param × Bool × TypeExpr) : Prop where
  params : List.Forall₂ (Param.Alike r) h.1 h'.1
  byRef : h.2.1 = h'.2.1
  returnType : h.2.2.Alike r h'.2.2

theorem respects_header : A.Respects (SameHeader A.place) header header := by
  have sign : ∀ {s : Symbol}, ¬(TokenKind.symbol s).Inert → A.Respects (· = ·) (expect s) (expect s) :=
    fun h => respects_expect (stop_ne h)
  unfold header
  refine respects_bind (sign (by rintro (h | h | h | h) <;> cases h)) fun _ _ _ => ?_
  refine respects_bind respects_params fun ps qs hparams => ?_
  refine respects_bind (sign (by rintro (h | h | h | h) <;> cases h)) fun _ _ _ => ?_
  refine respects_bind (sign (by rintro (h | h | h | h) <;> cases h)) fun _ _ _ => ?_
  refine respects_bind (respects_eat (by rintro (h | h | h | h) <;> cases h)) fun byRef _ e => e ▸ ?_
  refine respects_bind (respects_typeExpr _) fun type type' htype => ?_
  exact respects_pure ⟨hparams, rfl, htype⟩

/-- What stands in an item before its body: the name, the parameters, whether it gives a reference, and the type. -/
def signature : Parser (String × List Param × Bool × TypeExpr) := do
  let name ← identifier
  expect .leftParen
  let params ← params
  expect .rightParen
  expect .arrow
  let byRef ← eat .keywordRef
  let returnType ← typeExpr maxNesting
  pure (name, params, byRef, returnType)

theorem item_eq (start : Location) : item start = signature >>= fun s => expect .fatArrow >>= fun _ =>
    expression >>= fun body => expect .semicolon >>= fun _ => pure ⟨s.1, s.2.1, s.2.2.1, s.2.2.2, body, start⟩ := by
  simp only [item, signature, Parser.bind_assoc, Parser.pure_bind]

/-- The same signature at related places. -/
structure SameSignature (r : Location → Location → Prop) (s s' : String × List Param × Bool × TypeExpr) : Prop where
  name : s.1 = s'.1
  params : List.Forall₂ (Param.Alike r) s.2.1 s'.2.1
  byRef : s.2.2.1 = s'.2.2.1
  returnType : s.2.2.2.Alike r s'.2.2.2

theorem signature_eq : signature = identifier >>= fun name => header >>= fun h => pure (name, h) := by
  simp only [signature, header, Parser.bind_assoc, Parser.pure_bind]

theorem respects_signature : A.Respects (SameSignature A.place) signature signature := by
  rw [signature_eq]
  refine respects_bind respects_identifier fun name _ e => e ▸ ?_
  exact respects_bind respects_header fun h h' hh => respects_pure ⟨rfl, hh.params, hh.byRef, hh.returnType⟩

/-- The rest of an item behind its name. -/
def itemBehind (name : String) (start : Location) : Parser Item :=
  header >>= fun h => expect .fatArrow >>= fun _ => expression >>= fun body => expect .semicolon >>= fun _ =>
    pure ⟨name, h.1, h.2.1, h.2.2, body, start⟩

theorem item_eq_behind (start : Location) : item start = identifier >>= fun name => itemBehind name start := by
  simp only [item_eq, itemBehind, signature_eq, Parser.bind_assoc, Parser.pure_bind]

theorem respects_item {loc loc' : Location} (hloc : A.place loc loc')
    (harrow : (current A.left).kind ≠ .symbol .fatArrow ∧ (current A.right).kind ≠ .symbol .fatArrow)
    (hend : (current A.left).kind ≠ .symbol .semicolon ∧ (current A.right).kind ≠ .symbol .semicolon) :
    A.Respects (Item.Alike A.place) (item loc) (item loc') := by
  rw [item_eq, item_eq]
  refine respects_bind respects_signature fun s s' hs => ?_
  refine respects_bind (respects_expect harrow) fun _ _ _ => ?_
  refine respects_bind respects_expression fun body body' hbody => ?_
  refine respects_bind (respects_expect hend) fun _ _ _ => ?_
  exact respects_pure ⟨hs.name, hs.params, hs.byRef, hs.returnType, hbody, hloc⟩

theorem respects_itemBehind (name name' : String) (loc loc' : Location)
    (harrow : (current A.left).kind ≠ .symbol .fatArrow ∧ (current A.right).kind ≠ .symbol .fatArrow)
    (hend : (current A.left).kind ≠ .symbol .semicolon ∧ (current A.right).kind ≠ .symbol .semicolon) :
    A.Respects (Item.AlikeBehind A.place) (itemBehind name loc) (itemBehind name' loc') := by
  unfold itemBehind
  refine respects_bind respects_header fun h h' hh => ?_
  refine respects_bind (respects_expect harrow) fun _ _ _ => ?_
  refine respects_bind respects_expression fun body body' hbody => ?_
  refine respects_bind (respects_expect hend) fun _ _ _ => ?_
  exact respects_pure ⟨hh.params, hh.byRef, hh.returnType, hbody⟩

end Alignment

end FlowCheck.Flow

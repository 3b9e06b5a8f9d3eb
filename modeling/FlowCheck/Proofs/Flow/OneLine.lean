import FlowCheck.Batch
import FlowCheck.Proofs.Flow.Pasting
import FlowCheck.Proofs.Flow.Rules
import FlowCheck.Proofs.Text

/-! Texts written on one line. A text without strings, all of whose lexemes are right, says the same on one line,
    unless a comment that ended at a line break goes on behind it there. -/

namespace FlowCheck.Flow

open FlowCheck.Text FlowCheck.Flow.Parser

/-- The second text is the first with a space for each line end. -/
inductive Joined : List Char → List Char → Prop where
  | nil : Joined [] []
  | crlf {a b} : Joined a b → Joined ('\r' :: '\n' :: a) (' ' :: b)
  | lineEnd {c a b} : c = '\r' ∨ c = '\n' → Joined a b → Joined (c :: a) (' ' :: b)
  | cons {c a b} : c ≠ '\n' ∧ c ≠ '\r' → Joined a b → Joined (c :: a) (c :: b)

theorem joined_collapse (text : List Char) : Joined text (Line.collapse text) := by
  fun_induction Line.collapse text with
  | case1 => exact .nil
  | case2 rest ih => exact .crlf ih
  | case3 c rest _ ih =>
    split
    · exact .lineEnd ‹_› ih
    · rename_i h
      exact .cons ⟨fun e => h (.inr e), fun e => h (.inl e)⟩ ih

namespace Joined

variable {a b : List Char}

theorem flat (h : Joined a b) : '\n' ∉ b := by
  induction h with
  | nil => exact List.not_mem_nil
  | crlf _ ih | lineEnd _ _ ih => simpa using ih
  | cons hc _ ih => simpa using ⟨hc.1.symm, ih⟩

/-- A run that takes no blanks is the same in both texts. -/
theorem takeWhile {p : Char → Bool} (hp : p ' ' = false ∧ p '\n' = false ∧ p '\r' = false) (h : Joined a b) :
    a.takeWhile p = b.takeWhile p ∧ Joined (a.dropWhile p) (b.dropWhile p) := by
  induction h with
  | nil => exact ⟨rfl, .nil⟩
  | crlf h => simpa [hp] using h.crlf
  | lineEnd hc h => rcases hc with rfl | rfl <;> simpa [hp] using h.lineEnd (by simp)
  | @cons c a b hc h ih =>
    by_cases hpc : p c = true
    · simpa [hpc] using ih
    · simpa [hpc] using h.cons hc

/-- A comment is closed at the same place, or not closed in both texts. -/
theorem comment (h : Joined a b) : (Scan.comment b).problems = (Scan.comment a).problems ∧
    Joined (Scan.comment a).rest (Scan.comment b).rest := by
  induction h with
  | nil => exact ⟨rfl, .nil⟩
  | crlf h ih => exact ih
  | lineEnd hc h ih => rcases hc with rfl | rfl <;> exact ih
  | @cons c a b hc h ih =>
    by_cases hend : c = '*' ∧ a.head? = some '/'
    · obtain ⟨rfl, ha⟩ := hend
      cases h with
      | nil => cases ha
      | crlf => cases ha
      | lineEnd hd => rcases hd with rfl | rfl <;> cases ha
      | cons hd h =>
        obtain rfl := Option.some.inj ha
        exact ⟨rfl, h⟩
    · have hend' : ¬(c = '*' ∧ b.head? = some '/') := by
        rintro ⟨rfl, hb⟩
        cases h with
        | nil => cases hb
        | crlf => cases hb
        | lineEnd => cases hb
        | cons => exact hend ⟨rfl, hb⟩
      rw [Scan.comment_cons hend, Scan.comment_cons hend']
      exact ih

theorem number (h : Joined a b) (whole : List Char) : (Lexeme.number whole a).1 = (Lexeme.number whole b).1 ∧
    Joined (Lexeme.number whole a).2 (Lexeme.number whole b).2 := by
  cases h with
  | nil => exact ⟨rfl, .nil⟩
  | crlf h => exact ⟨rfl, h.crlf⟩
  | lineEnd hc h => rcases hc with rfl | rfl <;> exact ⟨rfl, h.lineEnd (by simp)⟩
  | @cons c a b hc h =>
    by_cases hdot : c = '.'
    · subst hdot
      cases h with
      | nil => exact ⟨rfl, .cons hc .nil⟩
      | crlf h => exact ⟨rfl, h.crlf.cons hc⟩
      | lineEnd hd h => rcases hd with rfl | rfl <;> exact ⟨rfl, (h.lineEnd (by simp)).cons hc⟩
      | @cons d a b hd h =>
        obtain ⟨htake, hdrop⟩ := (h.cons hd).takeWhile (p := isDigit) (by decide)
        simp only [Lexeme.number, htake]
        split
        · exact ⟨rfl, hdrop⟩
        · exact ⟨rfl, (h.cons hd).cons hc⟩
    · rw [Lexeme.number_of_ne_dot (by simpa using hdot), Lexeme.number_of_ne_dot (by simpa using hdot)]
      exact ⟨rfl, h.cons hc⟩

theorem sign (h : Joined a b) (c : Char) :
    (Lexeme.sign c a).1 = (Lexeme.sign c b).1 ∧ Joined (Lexeme.sign c a).2 (Lexeme.sign c b).2 := by
  have hnone : ∀ d, d = ' ' ∨ d = '\r' ∨ d = '\n' → sign₂? c d = none := by
    rintro d (rfl | rfl | rfl) <;> unfold sign₂? <;> split <;> simp_all
  cases h with
  | nil => exact ⟨rfl, .nil⟩
  | crlf h =>
    simp only [Lexeme.sign, hnone '\r' (by simp), hnone ' ' (by simp)]
    exact ⟨trivial, h.crlf⟩
  | @lineEnd d a b hd h =>
    simp only [Lexeme.sign, hnone d (.inr hd), hnone ' ' (by simp)]
    exact ⟨trivial, h.lineEnd hd⟩
  | @cons d a b hd h =>
    simp only [Lexeme.sign]
    split
    · exact ⟨rfl, h⟩
    · exact ⟨rfl, h.cons hd⟩

theorem head (h : Joined a b) {d : Char} (hd : d ≠ ' ' ∧ d ≠ '\n' ∧ d ≠ '\r') :
    b.head? = some d ↔ a.head? = some d := by
  cases h with
  | nil => rfl
  | crlf => simp [hd.1.symm, hd.2.2.symm]
  | lineEnd hc => rcases hc with rfl | rfl <;> simp [hd.1.symm, hd.2.1.symm, hd.2.2.symm]
  | cons => rfl

end Joined

/-! ### Comments at the end -/

theorem endsInComment_next {c : Char} {text : List Char} (h : endsInComment (Lexeme.next c text).2 = true) :
    endsInComment (c :: text) = true := by
  unfold endsInComment at h ⊢
  rw [Lexeme.all_cons, List.getLast?_cons]
  cases hlast : (Lexeme.all (Lexeme.next c text).2).getLast? with
  | none => rw [hlast] at h; cases h
  | some l => rwa [hlast] at h

theorem endsInComment_line {text : List Char} (h : '\n' ∉ text) : endsInComment ('/' :: '/' :: text) = true := by
  rw [endsInComment, Lexeme.all_line h]
  rfl

theorem endsInComment_blank {c : Char} (hc : isBlank c = true) {text : List Char} (h : endsInComment text = true) :
    endsInComment (c :: text) = true := by
  refine endsInComment_next ?_
  rw [Lexeme.next_blank hc]
  cases text with
  | nil => exact h
  | cons d text =>
    by_cases hd : isBlank d = true
    · rw [List.dropWhile_cons_of_pos hd]
      unfold endsInComment at h ⊢
      rw [Lexeme.all_cons, Lexeme.next_blank hd, List.getLast?_cons] at h
      cases hlast : (Lexeme.all (text.dropWhile isBlank)).getLast? with
      | some l => rwa [hlast] at h
      | none =>
        rw [hlast] at h
        simp only [Option.getD_none, Option.any_some, List.isPrefixOf_cons_cons, Bool.and_eq_true, beq_iff_eq] at h
        exact absurd hd (by rw [← h.1]; decide)
    · rwa [List.dropWhile_cons_of_neg hd]

/-! ### Texts -/

namespace Joined

variable {a b : List Char} {c : Char}

/-- The first lexeme says the same on one line and ends at the same place, unless it is a comment that ends with its
line, or a string. -/
theorem next (h : Joined a b) (hblank : isBlank c = false) (hline : ¬(c = '/' ∧ a.head? = some '/'))
    (hquote : c ≠ '"') :
    (Lexeme.next c b).1.token = (Lexeme.next c a).1.token ∧
      (Lexeme.next c b).1.problems = (Lexeme.next c a).1.problems ∧ Joined (Lexeme.next c a).2 (Lexeme.next c b).2 := by
  have hline' : ¬(c = '/' ∧ b.head? = some '/') := by rwa [h.head (by decide)]
  by_cases hcomment : c = '/' ∧ a.head? = some '*'
  · obtain ⟨rfl, ha⟩ := hcomment
    obtain ⟨text, rfl⟩ := List.head?_eq_some_iff.mp ha
    cases h with
    | lineEnd hc => exact absurd hc (by decide)
    | cons hc h =>
      obtain ⟨hproblems, hrest⟩ := h.comment
      exact ⟨rfl, hproblems, hrest⟩
  have hcomment' : ¬(c = '/' ∧ b.head? = some '*') := by rwa [h.head (by decide)]
  simp only [Lexeme.next, hblank, hline, hline', hcomment, hcomment', hquote, ↓reduceIte, Bool.false_eq_true]
  split
  · obtain ⟨htake, hdrop⟩ := h.takeWhile (p := isDigit) (by decide)
    obtain ⟨hfirst, hrest⟩ := hdrop.number (c :: b.takeWhile isDigit)
    rw [htake, ← hfirst]
    exact ⟨rfl, rfl, hrest⟩
  · split
    · obtain ⟨htake, hdrop⟩ := h.takeWhile (p := continuesName) (by decide)
      rw [htake]
      exact ⟨rfl, rfl, hdrop⟩
    · obtain ⟨hfirst, hrest⟩ := h.sign c
      rw [← hfirst]
      exact ⟨rfl, rfl, hrest⟩

/-- What holds behind blanks, and of a text if it holds behind its first lexeme, holds of all texts and their lines. -/
theorem blanks_induction {P : List Char → List Char → Prop} (h : Joined a b) (nil : P [] [])
    (blank : ∀ {u d a b}, (∀ c ∈ u, isBlank c = true) → isBlank d = true → P a b → P (u ++ a) (d :: b))
    (lexeme : ∀ {c a b}, isBlank c = false → Joined a b →
      (∀ {a' b'}, a'.length < (c :: a).length → Joined a' b' → P a' b') → P (c :: a) (c :: b)) : P a b := by
  induction hn : a.length using Nat.strongRecOn generalizing a b with
  | _ n ih =>
    have one {c d : Char} {a b : List Char} (hc : isBlank c = true) (hd : isBlank d = true) (hP : P a b) :
        P (c :: a) (d :: b) := blank (u := [c]) (by simpa using hc) hd hP
    cases h with
    | nil => exact nil
    | crlf h =>
      have hblanks : ∀ c ∈ ['\r', '\n'], isBlank c = true :=
        List.forall_mem_cons.mpr ⟨by decide, List.forall_mem_singleton.mpr (by decide)⟩
      exact blank hblanks (by decide) (ih _ (by simp at hn; omega) h rfl)
    | @lineEnd c a b hc h =>
      have hblank : isBlank c = true := by rcases hc with rfl | rfl <;> decide
      exact one hblank (by decide) (ih _ (by simp at hn; omega) h rfl)
    | @cons c a b hc h =>
      cases hblank : isBlank c with
      | true => exact one hblank hblank (ih _ (by simp at hn; omega) h rfl)
      | false => exact lexeme hblank h fun hlt h => ih _ (hn ▸ hlt) h rfl

/-- On one line a text says the same. -/
theorem content (h : Joined a b) (hproblems : (content a).problems = []) (hstring : ∀ s, .string s ∉ (content a).kinds)
    (hends : endsInComment b = false) : content b = content a := by
  revert hproblems hstring hends
  refine h.blanks_induction (P := fun a b => (Flow.content a).problems = [] →
    (∀ s, .string s ∉ (Flow.content a).kinds) → endsInComment b = false → Flow.content b = Flow.content a)
    (fun _ _ _ => rfl) ?_ ?_
  · intro u d a b hu hd ih hproblems hstring hends
    rw [content_blank hu] at hproblems hstring ⊢
    rw [content_cons_blank hd]
    refine ih hproblems hstring ?_
    rw [← Bool.not_eq_true] at hends ⊢
    exact fun hm => hends (endsInComment_blank hd hm)
  · intro c a b hblank h ih hproblems hstring hends
    rw [content_cons] at hproblems hstring ⊢
    rw [content_cons]
    obtain ⟨hfirst, hlater⟩ := List.append_eq_nil_iff.mp hproblems
    have hline : ¬(c = '/' ∧ a.head? = some '/') := by
      rintro ⟨rfl, ha⟩
      obtain ⟨text, rfl⟩ := List.head?_eq_some_iff.mp ((h.head (by decide)).mpr ha)
      have hflat : '\n' ∉ text := fun hm => h.flat (.tail _ hm)
      exact absurd ((endsInComment_line hflat).symm.trans hends) (by decide)
    have hquote : c ≠ '"' := by
      rintro rfl
      exact hstring (String.ofList (Scan.string a).value) (List.mem_append_left _ (by simp [Lexeme.next_string]))
    obtain ⟨htoken, hsame, hrest⟩ := h.next hblank hline hquote
    have hclosed : endsInComment (Lexeme.next c b).2 = false := by
      rw [← Bool.not_eq_true] at hends ⊢
      exact fun hm => hends (endsInComment_next hm)
    rw [htoken, hsame,
      ih (Lexeme.next_rest_lt c a) hrest hlater (fun s hs => hstring s (List.mem_append_right _ hs)) hclosed]

end Joined

/-! ### Types -/

/-- The parser takes tokens of some kinds only. -/
def Takes {α : Type} (P : TokenKind → Prop) (p : Parser α) : Prop :=
  ∀ ⦃ts a rest⦄, Reads p ts a rest → ∃ w, ts = w ++ rest ∧ ∀ t ∈ w, P t.kind

section Takes

variable {α β : Type} {P : TokenKind → Prop}

theorem takes_pure (a : α) : Takes P (pure a) := by
  intro ts b rest h
  obtain ⟨-, rfl⟩ := reads_pure.mp h
  exact ⟨[], rfl, nofun⟩

theorem takes_bind {p : Parser α} {f : α → Parser β} (hp : Takes P p) (hf : ∀ a, Takes P (f a)) :
    Takes P (p >>= f) := by
  intro ts b rest h
  obtain ⟨a, mid, ha, hb⟩ := h.of_bind
  obtain ⟨w, rfl, hw⟩ := hp ha
  obtain ⟨v, rfl, hv⟩ := hf a hb
  refine ⟨w ++ v, (List.append_assoc ..).symm, fun t ht => ?_⟩
  exact (List.mem_append.mp ht).elim (hw t) (hv t)

theorem takes_peek {f : Token → Parser α} (hf : ∀ t, Takes P (f t)) : Takes P (peek >>= f) :=
  fun _ _ _ h => hf _ (reads_peek_bind.mp h)

theorem takes_identifier (hP : ∀ name, P (.identifier name)) : Takes P identifier := by
  intro ts name rest h
  obtain ⟨t, rfl, ht⟩ := reads_identifier.mp h
  exact ⟨[t], rfl, by simpa [ht] using hP name⟩

theorem takes_expect {s : Symbol} (hP : P (.symbol s)) : Takes P (expect s) := by
  intro ts _ rest h
  obtain ⟨t, rfl, ht⟩ := reads_expect.mp h
  exact ⟨[t], rfl, by simpa [ht] using hP⟩

theorem takes_eat {s : Symbol} (hP : P (.symbol s)) : Takes P (eat s) := by
  intro ts found rest h
  rcases reads_eat.mp h with ⟨-, t, rfl, ht⟩ | ⟨-, rfl, -⟩
  · exact ⟨[t], rfl, by simpa [ht] using hP⟩
  · exact ⟨[], rfl, nofun⟩

theorem takes_loop {start? : TokenKind → Option β} {step : α → β → Token → Parser α}
    (hstart : ∀ kind b, start? kind = some b → P kind) (hstep : ∀ a b t, Takes P (step a b t)) (a : α) :
    Takes P (loop start? step a) := by
  intro ts b rest h
  refine (h.loop_induction (I := fun _ rest => ∃ w, ts = w ++ rest ∧ ∀ t ∈ w, P t.kind) ?_ ⟨[], rfl, nofun⟩).1
  rintro c t _ d c' rest' ⟨w, rfl, hw⟩ hknown hc
  obtain ⟨v, rfl, hv⟩ := hstep c d t hc
  refine ⟨w ++ t :: v, by simp, fun u hu => ?_⟩
  rcases List.mem_append.mp hu with hu | hu
  · exact hw u hu
  · exact (List.mem_cons.mp hu).elim (fun e => e ▸ hstart _ _ hknown) (hv u)

theorem takes_only {s : Symbol} (hP : P (.symbol s)) (kind : TokenKind) (b : Unit) (h : only s kind = some b) : P kind := by
  unfold only at h
  split at h
  · rename_i hkind
    exact hkind ▸ hP
  · cases h

theorem takes_commaSeparated {p : Parser α} (hP : P (.symbol .comma)) (hp : Takes P p) : Takes P (commaSeparated p) :=
  takes_bind hp fun _ => takes_loop (takes_only hP) (fun _ _ _ => takes_bind hp fun _ => takes_pure _) _

/-- A type has names and symbols only. -/
theorem takes_typeExpr (hname : ∀ name, P (.identifier name)) (hsymbol : ∀ s, P (.symbol s)) (room : Nat) :
    Takes P (typeExpr room) := by
  induction room with
  | zero => exact fun _ _ _ h => absurd h reads_fail
  | succ room ih =>
    unfold typeExpr
    refine takes_peek fun first => takes_bind (takes_identifier hname) fun _ => takes_bind ?_ fun path => ?_
    · exact takes_loop (takes_only (hsymbol _)) (fun _ _ _ => takes_bind (takes_identifier hname) fun _ => takes_pure _) _
    · refine takes_bind (takes_eat (hsymbol _)) fun more => ?_
      cases more
      · exact takes_pure _
      · exact takes_bind (takes_commaSeparated (hsymbol _) ih) fun _ =>
          takes_bind (takes_expect (hsymbol _)) fun _ => takes_pure _

end Takes

theorem string_notMem_type {source : String} {t : TypeExpr} (h : TypeExpr.ofText? source = some t) (s : String) :
    .string s ∉ (content source.toList).kinds := by
  obtain ⟨-, w, last, hkinds, -, hreads⟩ := TypeExpr.ofText?_spec h
  obtain ⟨v, hv, hall⟩ := takes_typeExpr (P := fun kind => ∀ s, kind ≠ .string s) (fun _ _ => nofun) (fun _ _ => nofun)
    maxNesting hreads
  obtain rfl := List.append_cancel_right hv
  rw [← hkinds]
  intro hm
  obtain ⟨u, hu, hs⟩ := List.mem_map.mp hm
  exact hall u hu s hs

/-- A text that says the same is the same type. -/
theorem isType_of_content {a b : String} (h : content b.toList = content a.toList) (ha : IsType a) : IsType b := by
  obtain ⟨t, ht⟩ := ha.spec
  obtain ⟨hproblems, -⟩ := TypeExpr.ofText?_spec ht
  obtain ⟨w, last, htokens, hlast, hw⟩ := tokenize_tokens b
  have hend : endsType (current [last]).kind := by
    show endsType last.kind
    rw [hlast]
    exact ⟨nofun, nofun⟩
  obtain ⟨u, hu, -⟩ := yields_typeExpr ht (hw.trans (congrArg _ h)) hend
  have hwhole : wholeText? (typeExpr maxNesting) b = some u :=
    wholeText?_iff.mpr ⟨tokenize_diagnostics.mpr (h ▸ hproblems), [last], htokens ▸ hu, hlast⟩
  rw [IsType, TypeExpr.ofText?_eq, hwhole]
  rfl

/-- A type is a type on one line, unless a comment goes on behind it there. -/
theorem isType_oneLine {source : String} (h : IsType source) (hends : endsInComment (oneLine source).toList = false) :
    IsType (oneLine source) := by
  obtain ⟨t, ht⟩ := h.spec
  obtain ⟨hproblems, -⟩ := TypeExpr.ofText?_spec ht
  refine isType_of_content ?_ h
  rw [oneLine, String.toList_ofList] at hends ⊢
  exact (joined_collapse source.toList).content hproblems (string_notMem_type ht) hends

end FlowCheck.Flow

import FlowCheck.Proofs.Flow.Alignment

/-! Reading words whatever stands behind them. A type that is read up to the end of a text is read from the same
    words before any token that goes on with no type (`carries_typeExpr`), and so is a signature that is put
    together from such types (`yields_signature`). -/

namespace FlowCheck.Flow

open FlowCheck.Flow.Parser

/-- A token that goes on with no type. -/
def endsType (kind : TokenKind) : Prop := kind ≠ .symbol .dot ∧ kind ≠ .symbol .less

namespace Border

variable {B : Border}

theorem Aligned.length_eq {ts ts' : List Token} (h : B.Aligned ts ts') :
    ts.length + B.right.length = ts'.length + B.left.length := by
  induction h with
  | stop => exact Nat.add_comm _ _
  | cons _ _ _ ih => simp only [List.length_cons]; omega

theorem Aligned.of_left {ts : List Token} (h : B.Aligned B.left ts) : ts = B.right := by
  have hlength := h.length_eq
  exact (h.suffix_right.eq_of_length (by omega)).symm

/-- Lists of tokens of the same kinds up to the border are aligned, if no place matters. -/
theorem Aligned.of_kinds (hplace : ∀ loc loc', B.place loc loc') {ts ts' : List Token}
    (h : ts.map (·.kind) = ts'.map (·.kind)) (hkind : .endOfFile ∉ ts.map (·.kind)) :
    B.Aligned (ts ++ B.left) (ts' ++ B.right) := by
  induction ts generalizing ts' with
  | nil =>
    rw [List.map_nil, eq_comm, List.map_eq_nil_iff] at h
    rw [h]
    exact .stop
  | cons t ts ih =>
    cases ts' with
    | nil => cases h
    | cons t' ts' =>
      obtain ⟨hk, hks⟩ := List.cons_eq_cons.mp h
      exact .cons ⟨hk, hplace _ _, hplace _ _⟩ (fun e => hkind (e ▸ .head _)) (ih hks fun hm => hkind (.tail _ hm))

theorem Aligned.right_self (hplace : ∀ loc loc', B.place loc loc') {ts ts' : List Token}
    (h : B.Aligned ts ts') : Border.Aligned ⟨B.place, B.right, B.right⟩ ts' ts' := by
  induction h with
  | stop => exact .stop
  | cons ht hkind _ ih => exact .cons ⟨rfl, hplace _ _, hplace _ _⟩ (ht.kind ▸ hkind) ih

/-! ### Reading up to the end -/

/-- What the one parser reads before the end of a text the other reads as well, when what is behind the border goes
on with none of it. -/
def Carries {α : Type} (B : Border) (V : α → α → Prop) (N : TokenKind → Prop) (p q : Parser α) : Prop :=
  ∀ ⦃ts ts' : List Token⦄, B.Aligned ts ts' → ∀ ⦃a rest⦄, Reads p ts a rest → B.left <:+ rest →
    (rest = B.left → N (current B.right).kind) → ∃ b rest', Reads q ts' b rest' ∧ V a b ∧ B.Aligned rest rest'

section Carries

variable {α β : Type} {V : α → α → Prop} {W : β → β → Prop} {N M : TokenKind → Prop}

theorem carries_pure {a b : α} (h : V a b) : B.Carries V N (pure a) (pure b) := by
  intro ts ts' hts c rest hc _ _
  obtain ⟨rfl, rfl⟩ := reads_pure.mp hc
  exact ⟨b, ts', reads_pure.mpr ⟨rfl, rfl⟩, h, hts⟩

/-- What the second parser leaves at the border the first one has to leave as well. -/
theorem carries_bind {p q : Parser α} {f g : α → Parser β} (hp : B.Carries V N p q)
    (hf : ∀ a b, V a b → B.Carries W M (f a) (g b))
    (hN : ∀ a b, Reads (f a) B.left b B.left → ∀ kind, M kind → N kind) :
    B.Carries W M (p >>= f) (q >>= g) := by
  intro ts ts' hts b rest h hleft hM
  obtain ⟨a, rest₁, ha, hb⟩ := h.of_bind
  obtain ⟨a', rest₁', ha', hV, haligned⟩ := hp hts ha (hleft.trans hb.suffix) fun hstop => by
    subst hstop
    obtain rfl := hleft.eq_of_length_le hb.suffix.length_le
    exact hN a b hb _ (hM rfl)
  obtain ⟨b', rest', hb', hW, haligned'⟩ := hf a a' hV haligned hb hleft hM
  exact ⟨b', rest', ha'.bind hb', hW, haligned'⟩

variable (hleft : (current B.left).kind = .endOfFile)
include hleft

theorem left_ne_cons {t : Token} {ts : List Token} (h : B.left = t :: ts) : t.kind = .endOfFile := by
  rw [h] at hleft
  exact hleft

theorem carries_identifier : B.Carries (· = ·) N identifier identifier := by
  intro ts ts' hts name rest h _ _
  obtain ⟨t, heq, hk⟩ := reads_identifier.mp h
  cases hts with
  | stop => exact nomatch hk.symm.trans (left_ne_cons hleft heq)
  | cons ht _ hts =>
    cases heq
    exact ⟨name, _, reads_identifier.mpr ⟨_, rfl, ht.kind ▸ hk⟩, rfl, hts⟩

theorem carries_expect (s : Symbol) : B.Carries (· = ·) N (expect s) (expect s) := by
  intro ts ts' hts _ rest h _ _
  obtain ⟨t, heq, hk⟩ := reads_expect.mp h
  cases hts with
  | stop => exact nomatch hk.symm.trans (left_ne_cons hleft heq)
  | cons ht _ hts =>
    cases heq
    exact ⟨(), _, reads_expect.mpr ⟨_, rfl, ht.kind ▸ hk⟩, rfl, hts⟩

theorem carries_eat (s : Symbol) : B.Carries (· = ·) (· ≠ .symbol s) (eat s) (eat s) := by
  intro ts ts' hts found rest h _ hN
  rcases reads_eat.mp h with ⟨rfl, t, heq, hk⟩ | ⟨rfl, rfl, hk⟩
  · cases hts with
    | stop => exact nomatch hk.symm.trans (left_ne_cons hleft heq)
    | cons ht _ hts =>
      cases heq
      exact ⟨true, _, reads_eat.mpr (.inl ⟨rfl, _, rfl, ht.kind ▸ hk⟩), rfl, hts⟩
  · refine ⟨false, ts', reads_eat.mpr (.inr ⟨rfl, rfl, ?_⟩), rfl, hts⟩
    cases hts with
    | stop => exact hN rfl
    | cons ht _ _ => exact fun e => hk (ht.kind.trans e)

theorem carries_loop {start? : TokenKind → Option β} {step step' : α → β → Token → Parser α}
    (hstart : start? .endOfFile = none) (hstep : ∀ a a' b t t', V a a' → B.SameToken t t' →
      B.Carries V N (step a b t) (step' a' b t'))
    (hM : ∀ kind, M kind → start? kind = none ∧ N kind) {a a' : α} (ha : V a a') :
    B.Carries V M (loop start? step a) (loop start? step' a') := by
  intro ts
  induction hn : ts.length using Nat.strongRecOn generalizing ts a a' with
  | _ n ih =>
    intro ts' hts c rest h hrest hstop
    cases hts with
    | stop =>
      obtain ⟨rfl, rfl⟩ := (reads_loop_of_none (by rw [hleft, hstart])).mp h
      exact ⟨a', _, (reads_loop_of_none (hM _ (hstop rfl)).1).mpr ⟨rfl, rfl⟩, ha, .stop⟩
    | @cons t t' ts ts' ht hkind hts =>
      cases hs : start? t.kind with
      | none =>
        obtain ⟨rfl, rfl⟩ := (reads_loop_of_none hs).mp h
        refine ⟨a', _, (reads_loop_of_none ?_).mpr ⟨rfl, rfl⟩, ha, .cons ht hkind hts⟩
        exact (congrArg start? ht.kind).symm.trans hs
      | some b =>
        obtain ⟨d, rest₁, hd, hc⟩ := (reads_loop_of_some hs).mp h
        obtain ⟨d', rest₁', hd', hV, haligned⟩ := hstep a a' b t t' ha ht hts hd (hrest.trans hc.suffix) fun e => by
          subst e
          exact (hM _ (hstop (hrest.eq_of_length_le hc.suffix.length_le).symm)).2
        have hlt : rest₁.length < n := by
          have := hd.suffix.length_le
          simp only [List.length_cons] at hn
          omega
        obtain ⟨c', rest', hc', hV', haligned'⟩ := ih _ hlt hV rfl haligned hc hrest hstop
        exact ⟨c', rest', (reads_loop_of_some (ht.kind ▸ hs)).mpr ⟨d', rest₁', hd', hc'⟩, hV', haligned'⟩

omit hleft in
theorem only_eq_none {s : Symbol} {kind : TokenKind} : only s kind = none ↔ kind ≠ .symbol s := by
  simp [only]

theorem carries_commaSeparated {p q : Parser α} (h : B.Carries V N p q) :
    B.Carries (List.Forall₂ V) (fun kind => kind ≠ .symbol .comma ∧ N kind) (commaSeparated p) (commaSeparated q) := by
  refine carries_bind h (fun a b hab => ?_) fun _ _ _ kind hkind => hkind.2
  refine carries_loop hleft rfl (fun read read' _ t t' hread _ => ?_)
    (fun kind hkind => ⟨only_eq_none.mpr hkind.1, hkind.2⟩) (.cons hab .nil)
  exact carries_bind h (fun a b hab => carries_pure (List.rel_append hread (.cons hab .nil))) fun _ _ _ _ hkind => hkind

theorem carries_named {f g : Token → String → Parser α}
    (h : ∀ t t' name, B.place t.start t'.start → B.Carries V N (f t name) (g t' name)) :
    B.Carries V N (peek >>= fun t => identifier >>= f t) (peek >>= fun t => identifier >>= g t) := by
  intro ts ts' hts a rest ha hrest hN
  rw [reads_peek_bind] at ha
  simp only [reads_peek_bind]
  cases hts with
  | stop =>
    obtain ⟨name, rest', hname, -⟩ := ha.of_bind
    obtain ⟨t, heq, hk⟩ := reads_identifier.mp hname
    exact nomatch hk.symm.trans (left_ne_cons hleft heq)
  | @cons t t' ts ts' ht hkind hts =>
    refine carries_bind (N := N) (carries_identifier hleft) (fun name _ e => ?_) (fun _ _ _ _ hk => hk)
      (.cons ht hkind hts) ha hrest hN
    exact e ▸ h t t' name ht.start

theorem carries_typeExpr (room : Nat) :
    B.Carries (TypeExpr.Alike B.place) endsType (typeExpr room) (typeExpr room) := by
  induction room with
  | zero =>
    rintro _ _ _ _ _ ⟨_, ha⟩
    cases ha
  | succ room ih =>
    unfold typeExpr
    refine carries_named hleft fun t t' name hloc => ?_
    refine carries_bind (V := (· = ·)) (N := (· ≠ .symbol .dot)) ?_ ?_ fun _ _ _ _ hk => hk.1
    · refine carries_loop (N := (· ≠ .symbol .dot)) hleft rfl ?_ (fun _ hk => ⟨only_eq_none.mpr hk, hk⟩) rfl
      rintro path _ _ t t' rfl _
      exact carries_bind (carries_identifier hleft) (fun name _ e => e ▸ carries_pure rfl) fun _ _ _ _ hk => hk
    · rintro path _ rfl
      refine carries_bind (carries_eat hleft .less) (fun more _ e => ?_) fun _ _ _ _ hk => hk.2
      subst e
      cases more
      · exact carries_pure (.mk .nil hloc)
      · refine carries_bind (carries_commaSeparated hleft ih) (fun args args' hargs => ?_) ?_
        · refine carries_bind (N := endsType) (carries_expect hleft .greater) (fun _ _ _ => ?_) fun _ _ _ _ hk => hk
          exact carries_pure (.mk hargs hloc)
        · -- Arguments never reach up to the border: the bracket that closes them is missing there.
          intro args type htype
          obtain ⟨_, _, hbracket, -⟩ := htype.of_bind
          obtain ⟨t, heq, hk⟩ := reads_expect.mp hbracket
          cases hk.symm.trans (left_ne_cons hleft heq)

end Carries

end Border

theorem current_append (w more : List Token) :
    (current (w ++ more)).kind = (w.map (·.kind)).headD (current more).kind := by
  cases w <;> rfl

/-- What is left when the token at the front is of a kind that the words do not have. -/
theorem eq_of_current {w left rest : List Token} (hleft : left <:+ rest) (hrest : rest <:+ w ++ left)
    (hkind : (current rest).kind ∉ w.map (·.kind)) : rest = left := by
  obtain ⟨x, rfl⟩ := hleft
  obtain ⟨y, hy⟩ := hrest
  rw [← List.append_assoc] at hy
  obtain rfl := List.append_cancel_right hy
  cases x with
  | nil => rfl
  | cons t x => exact absurd (by simp [current]) hkind

/-! ### Words -/

/-- The parser reads just these words, whatever stands behind them, if it is of a suitable kind. -/
def Yields {α : Type} (p : Parser α) (ks : List TokenKind) (N : TokenKind → Prop) (V : α → Prop) : Prop :=
  ∀ ⦃w more : List Token⦄, w.map (·.kind) = ks → N (current more).kind → ∃ a, Reads p (w ++ more) a more ∧ V a

section Yields

variable {α β : Type} {V : α → Prop} {W : β → Prop} {N M : TokenKind → Prop} {K L : List TokenKind}

theorem yields_pure {a : α} (h : V a) : Yields (pure a) [] N V := by
  intro w more hw _
  obtain rfl := List.map_eq_nil_iff.mp hw
  exact ⟨a, reads_pure.mpr ⟨rfl, rfl⟩, h⟩

theorem yields_bind {p : Parser α} {f : α → Parser β} (hp : Yields p K N V)
    (hf : ∀ a, V a → Yields (f a) L M W) (hN : ∀ kind, M kind → N (L.headD kind)) :
    Yields (p >>= f) (K ++ L) M W := by
  intro w more hw hmore
  obtain ⟨w₁, w₂, rfl, rfl, rfl⟩ := List.map_eq_append_iff.mp hw
  have hnext : N (current (w₂ ++ more)).kind := by
    rw [current_append]
    exact hN _ hmore
  obtain ⟨a, ha, hV⟩ := hp rfl hnext
  obtain ⟨b, hb, hW⟩ := hf a hV rfl hmore
  exact ⟨b, List.append_assoc w₁ w₂ more ▸ ha.bind hb, hW⟩

theorem yields_identifier (name : String) : Yields identifier [.identifier name] N (· = name) := by
  intro w more hw _
  obtain ⟨t, ht⟩ := List.map_eq_singleton_iff.mp hw
  exact ⟨name, reads_identifier.mpr ⟨t, by rw [ht.1]; rfl, ht.2⟩, rfl⟩

theorem yields_expect (s : Symbol) : Yields (expect s) [.symbol s] N fun _ => True := by
  intro w more hw _
  obtain ⟨t, ht⟩ := List.map_eq_singleton_iff.mp hw
  exact ⟨(), reads_expect.mpr ⟨t, by rw [ht.1]; rfl, ht.2⟩, trivial⟩

theorem yields_eat (s : Symbol) : Yields (eat s) [.symbol s] N (· = true) := by
  intro w more hw _
  obtain ⟨t, ht⟩ := List.map_eq_singleton_iff.mp hw
  exact ⟨true, reads_eat.mpr (.inl ⟨rfl, t, by rw [ht.1]; rfl, ht.2⟩), rfl⟩

theorem yields_eat_none (s : Symbol) : Yields (eat s) [] (· ≠ .symbol s) (· = false) := by
  intro w more hw hmore
  obtain rfl := List.map_eq_nil_iff.mp hw
  exact ⟨false, reads_eat.mpr (.inr ⟨rfl, rfl, hmore⟩), rfl⟩

theorem yields_peek {f : Token → Parser α} (h : ∀ t, Yields (f t) K N V) : Yields (peek >>= f) K N V := by
  intro w more hw hmore
  obtain ⟨a, ha, hV⟩ := h (current (w ++ more)) hw hmore
  exact ⟨a, reads_peek_bind.mpr ha, hV⟩

theorem yields_loop {ι : Type} {p : Parser α} {K : ι → List TokenKind} {V : ι → α → Prop} {xs : List ι}
    (hp : ∀ x ∈ xs, Yields p (K x) N (V x)) (hcomma : N (.symbol .comma)) {met : List ι} {read : List α}
    (hread : List.Forall₂ V met read) :
    Yields (loop (only .comma) (fun read _ _ => do pure (read ++ [← p])) read)
      (xs.flatMap fun x => .symbol .comma :: K x) (fun kind => kind ≠ .symbol .comma ∧ N kind)
      (List.Forall₂ V (met ++ xs)) := by
  induction xs generalizing met read with
  | nil =>
    intro w more hw hmore
    obtain rfl := List.map_eq_nil_iff.mp hw
    refine ⟨read, (reads_loop_of_none ?_).mpr ⟨rfl, rfl⟩, by simpa using hread⟩
    exact Border.only_eq_none.mpr hmore.1
  | cons x xs ih =>
    intro w more hw hmore
    obtain ⟨hx, hxs⟩ := List.forall_mem_cons.mp hp
    obtain ⟨t, w, rfl, ht, hw⟩ := List.map_eq_cons_iff.mp hw
    obtain ⟨w₁, w₂, rfl, hw₁, hw₂⟩ := List.map_eq_append_iff.mp hw
    have hnext : N (current (w₂ ++ more)).kind := by
      rw [current_append, hw₂]
      cases xs with
      | nil => exact hmore.2
      | cons => exact hcomma
    obtain ⟨a, ha, hV⟩ := hx hw₁ hnext
    obtain ⟨as, has, hVs⟩ := ih hxs (List.rel_append hread (.cons hV .nil)) hw₂ hmore
    refine ⟨as, ?_, by simpa using hVs⟩
    rw [List.cons_append, List.append_assoc]
    exact (reads_loop_of_some (d := ()) (by rw [ht]; rfl)).mpr ⟨_, _, ha.bind (reads_pure.mpr ⟨rfl, rfl⟩), has⟩

theorem yields_commaSeparated {ι : Type} {p : Parser α} {K : ι → List TokenKind} {V : ι → α → Prop} {x : ι}
    {xs : List ι} (hp : ∀ y ∈ x :: xs, Yields p (K y) N (V y)) (hcomma : N (.symbol .comma)) :
    Yields (commaSeparated p) (K x ++ xs.flatMap fun y => .symbol .comma :: K y)
      (fun kind => kind ≠ .symbol .comma ∧ N kind) (List.Forall₂ V (x :: xs)) := by
  obtain ⟨hx, hxs⟩ := List.forall_mem_cons.mp hp
  refine yields_bind hx (fun a ha => yields_loop hxs hcomma (.cons ha .nil)) fun kind hkind => ?_
  cases xs with
  | nil => exact hkind.2
  | cons => exact hcomma

end Yields

end FlowCheck.Flow

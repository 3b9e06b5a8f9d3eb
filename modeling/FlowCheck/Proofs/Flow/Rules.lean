import FlowCheck.Proofs.Flow.Reading

/-! What the rules of expressions read, as equivalences: which tokens each rule takes, which rules it reads with
    and what it makes of them. -/

namespace FlowCheck.Flow

open FlowCheck.Flow.Parser

variable {ts rest : List Token} {e : Expr} {operand inner branch : Parser Expr}

/-! ### Repetition -/

/-- What holds at the start of a loop and is kept by each round holds at its end, where the loop knows no more. -/
theorem Parser.Reads.loop_induction {α β : Type} {start? : TokenKind → Option β} {step : α → β → Token → Parser α}
    {I : α → List Token → Prop} (hstep : ∀ a t ts b c rest, I a (t :: ts) → start? t.kind = some b →
      Reads (step a b t) ts c rest → I c rest) {a b : α} (h : Reads (loop start? step a) ts b rest) (ha : I a ts) :
    I b rest ∧ (rest = [] ∨ start? (current rest).kind = none) := by
  -- Each round takes a token and leaves a suffix of what follows it.
  induction hn : ts.length using Nat.strongRecOn generalizing ts a with
  | _ n ih =>
    cases ts with
    | nil =>
      obtain ⟨_, h⟩ := h
      rw [loop] at h
      cases h
      exact ⟨ha, .inl rfl⟩
    | cons t ts =>
      cases hs : start? t.kind with
      | none =>
        obtain ⟨rfl, rfl⟩ := (reads_loop_of_none hs).mp h
        exact ⟨ha, .inr hs⟩
      | some d =>
        obtain ⟨c, rest', hc, hrest⟩ := (reads_loop_of_some hs).mp h
        have hlt : rest'.length < n := by
          have := hc.suffix.length_le
          simp only [List.length_cons] at hn
          omega
        exact ih _ hlt hrest (hstep a t ts d c rest' ha hs hc) rfl

theorem reads_fail {α : Type} {p : Problem} {a : α} : ¬Reads (fail p) ts a rest := by
  rintro ⟨_, h⟩
  cases h

theorem reads_advance {t u : Token} : Reads advance (t :: ts) u rest ↔ u = t ∧ rest = ts := by
  constructor
  · rintro ⟨_, h⟩
    cases h
    exact ⟨rfl, rfl⟩
  · rintro ⟨rfl, rfl⟩
    exact ⟨List.suffix_cons _ _, rfl⟩

theorem reads_advance_bind {α : Type} {f : Token → Parser α} {t : Token} {a : α} :
    Reads (advance >>= f) (t :: ts) a rest ↔ Reads (f t) ts a rest := by
  constructor
  · intro h
    obtain ⟨_, _, ht, hf⟩ := h.of_bind
    obtain ⟨rfl, rfl⟩ := reads_advance.mp ht
    exact hf
  · exact (reads_advance.mpr ⟨rfl, rfl⟩).bind

theorem reads_expect_bind {α : Type} {s : Symbol} {p : Parser α} {a : α} :
    Reads (expect s >>= fun _ => p) ts a rest ↔ ∃ t ts', ts = t :: ts' ∧ t.kind = .symbol s ∧ Reads p ts' a rest := by
  constructor
  · intro h
    obtain ⟨_, ts', hs, hp⟩ := h.of_bind
    obtain ⟨t, rfl, ht⟩ := reads_expect.mp hs
    exact ⟨t, ts', rfl, ht, hp⟩
  · rintro ⟨t, ts', rfl, ht, h⟩
    exact (reads_expect.mpr ⟨t, rfl, ht⟩).bind h

/-! ### Rules -/

theorem reads_node {e' : Expr} : Reads (node e) ts e' rest ↔ e.height ≤ maxHeight ∧ e' = e ∧ rest = ts := by
  unfold node
  split
  · rename_i h
    exact ⟨fun h => absurd h reads_fail, fun h' => absurd h'.1 (Nat.not_le.mpr h)⟩
  · rename_i h
    rw [reads_pure]
    exact (and_iff_right (Nat.not_lt.mp h)).symm

theorem reads_primary : Reads (primary inner) ts e rest ↔
    (∃ t, ts = t :: rest ∧ Expr.ofToken? t = some e) ∨
      ∃ t ts' u, ts = t :: ts' ∧ t.kind = .symbol .leftParen ∧ Reads inner ts' e (u :: rest) ∧
        u.kind = .symbol .rightParen := by
  unfold primary
  rw [reads_peek_bind]
  cases ts with
  | nil =>
    have hnone : Expr.ofToken? (current []) = none := rfl
    have hparen : (current []).kind ≠ .symbol .leftParen := nofun
    simp only [hnone, hparen, ↓reduceIte, reads_fail, false_iff]
    rintro (⟨t, h, -⟩ | ⟨t, ts', u, h, -⟩) <;> cases h
  | cons t ts =>
    have hcurrent : current (t :: ts) = t := rfl
    rw [hcurrent]
    cases htoken : Expr.ofToken? t with
    | some e' =>
      dsimp only
      rw [reads_advance_bind, reads_pure]
      constructor
      · rintro ⟨rfl, rfl⟩
        exact .inl ⟨t, rfl, htoken⟩
      · rintro (⟨_, h, he⟩ | ⟨_, _, _, h, hparen, -⟩)
        · cases h
          exact ⟨Option.some.inj (he.symm.trans htoken), rfl⟩
        · cases h
          rw [Expr.ofToken?, hparen] at htoken
          cases htoken
    | none =>
      dsimp only
      split
      · rename_i hparen
        rw [reads_advance_bind]
        constructor
        · intro h
          obtain ⟨e', rest', he, h⟩ := h.of_bind
          obtain ⟨u, _, rfl, hu, h⟩ := reads_expect_bind.mp h
          obtain ⟨rfl, rfl⟩ := reads_pure.mp h
          exact .inr ⟨t, ts, u, rfl, hparen, he, hu⟩
        · rintro (⟨_, h, he⟩ | ⟨_, _, u, h, -, he, hu⟩)
          · cases h
            cases he.symm.trans htoken
          · cases h
            exact he.bind (reads_expect_bind.mpr ⟨u, _, rfl, hu, reads_pure.mpr ⟨rfl, rfl⟩⟩)
      · rename_i hparen
        refine ⟨fun h => absurd h reads_fail, ?_⟩
        rintro (⟨_, h, he⟩ | ⟨_, _, _, h, hp, -⟩)
        · cases h
          cases he.symm.trans htoken
        · cases h
          exact absurd hp hparen

theorem UnaryOp.ofKind?_symbol (op : UnaryOp) : UnaryOp.ofKind? (.symbol op.symbol) = some op := by
  cases op <;> rfl

theorem UnaryOp.symbol_of_ofKind? {kind : TokenKind} {op : UnaryOp} (h : UnaryOp.ofKind? kind = some op) :
    kind = .symbol op.symbol := by
  unfold UnaryOp.ofKind? at h
  split at h <;> cases h <;> rfl

theorem reads_unary : Reads (unary operand inner) ts e rest ↔
    (UnaryOp.ofKind? (current ts).kind = none ∧ Reads (member inner) ts e rest) ∨
      ∃ t ts' op body, ts = t :: ts' ∧ t.kind = .symbol op.symbol ∧ Reads operand ts' body rest ∧
        e = .unary op body t.start ∧ e.height ≤ maxHeight := by
  unfold unary
  rw [reads_peek_bind]
  cases hop : UnaryOp.ofKind? (current ts).kind with
  | none =>
    dsimp only
    refine ⟨fun h => .inl ⟨rfl, h⟩, ?_⟩
    rintro (⟨-, h⟩ | ⟨t, ts', op, body, rfl, ht, -⟩)
    · exact h
    · have : UnaryOp.ofKind? t.kind = none := hop
      rw [ht, op.ofKind?_symbol] at this
      cases this
  | some op =>
    cases ts with
    | nil => cases hop
    | cons t ts =>
      have ht : t.kind = .symbol op.symbol := UnaryOp.symbol_of_ofKind? hop
      dsimp only
      rw [reads_advance_bind]
      constructor
      · intro h
        obtain ⟨body, rest', hbody, h⟩ := h.of_bind
        obtain ⟨hheight, rfl, rfl⟩ := reads_node.mp h
        exact .inr ⟨t, ts, op, body, rfl, ht, hbody, rfl, hheight⟩
      · rintro (⟨h, -⟩ | ⟨_, _, op', body, h, ht', hbody, rfl, hheight⟩)
        · cases h
        · cases h
          have : op' = op := Option.some.inj ((op'.ofKind?_symbol).symm.trans (ht' ▸ hop))
          subst this
          exact hbody.bind (reads_node.mpr ⟨hheight, rfl, rfl⟩)

theorem reads_conditional : Reads (conditional operand branch) ts e rest ↔
    ∃ test mid, Reads (binary operand BinaryOp.tiers) ts test mid ∧
      (((current mid).kind ≠ .symbol .question ∧ e = test ∧ rest = mid) ∨
        ∃ t mid₁ positive u mid₂ negative, mid = t :: mid₁ ∧ t.kind = .symbol .question ∧
          Reads branch mid₁ positive (u :: mid₂) ∧ u.kind = .symbol .colon ∧ Reads branch mid₂ negative rest ∧
          e = .conditional test positive negative t.start ∧ e.height ≤ maxHeight) := by
  unfold conditional
  constructor
  · intro h
    obtain ⟨test, mid, htest, h⟩ := h.of_bind
    refine ⟨test, mid, htest, ?_⟩
    rw [reads_peek_bind] at h
    split at h
    · rename_i hquestion
      cases mid with
      | nil => cases hquestion
      | cons t mid =>
        rw [reads_advance_bind] at h
        obtain ⟨positive, _, hpositive, h⟩ := h.of_bind
        obtain ⟨u, mid₂, rfl, hu, h⟩ := reads_expect_bind.mp h
        obtain ⟨negative, _, hnegative, h⟩ := h.of_bind
        obtain ⟨hheight, rfl, rfl⟩ := reads_node.mp h
        exact .inr ⟨t, mid, positive, u, mid₂, negative, rfl, hquestion, hpositive, hu, hnegative, rfl, hheight⟩
    · rename_i hquestion
      obtain ⟨rfl, rfl⟩ := reads_pure.mp h
      exact .inl ⟨hquestion, rfl, rfl⟩
  · rintro ⟨test, mid, htest, ⟨hquestion, rfl, rfl⟩ |
      ⟨t, mid₁, positive, u, mid₂, negative, rfl, ht, hpositive, hu, hnegative, rfl, hheight⟩⟩
    · refine htest.bind (reads_peek_bind.mpr ?_)
      rw [if_neg hquestion]
      exact reads_pure.mpr ⟨rfl, rfl⟩
    · refine htest.bind (reads_peek_bind.mpr ?_)
      rw [if_pos (show (current (t :: mid₁)).kind = _ from ht), reads_advance_bind]
      exact hpositive.bind (reads_expect_bind.mpr ⟨u, mid₂, rfl, hu,
        hnegative.bind (reads_node.mpr ⟨hheight, rfl, rfl⟩)⟩)

end FlowCheck.Flow

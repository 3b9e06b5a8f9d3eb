import FlowCheck.Flow.Grammar

/-! What the parsers of single tokens give, as equations: the one case where the token at the front is the
    wanted one, and the other where it is not. -/

namespace FlowCheck.Flow.Parser

theorem bind_apply {α β : Type} (p : Parser α) (f : α → Parser β) (ts : List Token) :
    (p >>= f) ts = match p ts with
      | .error d => .error d
      | .ok first => (f first.value first.rest).map (Parsed.widen first.suffix) := by
  show Parser.bind p f ts = _
  unfold Parser.bind
  cases p ts with
  | error d => rfl
  | ok first =>
    dsimp only
    cases f first.value first.rest <;> rfl

theorem pure_apply {α : Type} (a : α) (ts : List Token) :
    (pure a : Parser α) ts = .ok ⟨a, ts, List.suffix_refl _⟩ := rfl

theorem pure_bind {α β : Type} (a : α) (f : α → Parser β) : (pure a >>= f) = f a := by
  funext ts
  rw [bind_apply, pure_apply]
  dsimp only
  cases f a ts <;> rfl

theorem bind_assoc {α β γ : Type} (p : Parser α) (f : α → Parser β) (g : β → Parser γ) :
    (p >>= f) >>= g = p >>= fun a => f a >>= g := by
  funext ts
  rw [bind_apply, bind_apply, bind_apply]
  cases p ts with
  | error d => rfl
  | ok first =>
    dsimp only
    rw [bind_apply]
    cases f first.value first.rest with
    | error d => rfl
    | ok second =>
      dsimp only [Except.map, Parsed.widen]
      cases g second.value second.rest <;> rfl

variable {s : Symbol} {ts : List Token}

theorem eat_of_eq (h : (current ts).kind = .symbol s) : eat s ts = .ok ⟨true, ts.tail, List.tail_suffix ts⟩ := by
  simp only [eat, peek, bind_apply, h, ↓reduceIte, advance, pure_apply, Except.map, Parsed.widen]

theorem eat_of_ne (h : (current ts).kind ≠ .symbol s) : eat s ts = .ok ⟨false, ts, List.suffix_refl _⟩ := by
  simp only [eat, peek, bind_apply, h, ↓reduceIte, pure_apply, Except.map, Parsed.widen]

theorem expect_of_eq (h : (current ts).kind = .symbol s) :
    expect s ts = .ok ⟨(), ts.tail, List.tail_suffix ts⟩ := by
  simp only [expect, peek, bind_apply, h, ↓reduceIte, advance, pure_apply, Except.map, Parsed.widen]

theorem expect_of_ne (h : (current ts).kind ≠ .symbol s) :
    expect s ts = .error ((Problem.expected s.text).located (current ts).anchor) := by
  simp only [expect, peek, bind_apply, h, ↓reduceIte, fail, Except.map]

theorem identifier_of_eq {name : String} (h : (current ts).kind = .identifier name) :
    identifier ts = .ok ⟨name, ts.tail, List.tail_suffix ts⟩ := by
  simp only [identifier, peek, bind_apply, h, advance, pure_apply, Except.map, Parsed.widen]

theorem identifier_of_ne (h : ∀ name, (current ts).kind ≠ .identifier name) :
    identifier ts = .error (Problem.expectedIdentifier.located (current ts).anchor) := by
  cases hk : (current ts).kind with
  | identifier name => exact absurd hk (h name)
  | _ => simp only [identifier, peek, bind_apply, hk, fail, Except.map]

section Cons

variable {t : Token}

theorem eat_cons_of_eq (h : t.kind = .symbol s) : eat s (t :: ts) = .ok ⟨true, ts, List.suffix_cons t ts⟩ := eat_of_eq h

theorem eat_cons_of_ne (h : t.kind ≠ .symbol s) : eat s (t :: ts) = .ok ⟨false, t :: ts, List.suffix_refl _⟩ :=
  eat_of_ne h

theorem expect_cons_of_eq (h : t.kind = .symbol s) : expect s (t :: ts) = .ok ⟨(), ts, List.suffix_cons t ts⟩ :=
  expect_of_eq h

theorem expect_cons_of_ne (h : t.kind ≠ .symbol s) :
    expect s (t :: ts) = .error ((Problem.expected s.text).located t.anchor) := expect_of_ne h

theorem identifier_cons_of_eq {name : String} (h : t.kind = .identifier name) :
    identifier (t :: ts) = .ok ⟨name, ts, List.suffix_cons t ts⟩ := identifier_of_eq h

theorem identifier_cons_of_ne (h : ∀ name, t.kind ≠ .identifier name) :
    identifier (t :: ts) = .error (Problem.expectedIdentifier.located t.anchor) := identifier_of_ne h

end Cons

section Loop

variable {α β : Type} {start? : TokenKind → Option β} {step : α → β → Token → Parser α} {a : α}

theorem loop_of_none (h : start? (current ts).kind = none) :
    loop start? step a ts = .ok ⟨a, ts, List.suffix_refl _⟩ := by
  cases ts with
  | nil => rw [loop]
  | cons t ts =>
    have ht : start? t.kind = none := h
    rw [loop, ht]

theorem loop_cons_of_none {t : Token} (h : start? t.kind = none) :
    loop start? step a (t :: ts) = .ok ⟨a, t :: ts, List.suffix_refl _⟩ := loop_of_none h

theorem loop_of_some {t : Token} {b : β} (h : start? t.kind = some b) :
    loop start? step a (t :: ts) = match step a b t ts with
      | .error d => .error d
      | .ok next => (loop start? step next.value next.rest).map
          (Parsed.widen (next.suffix.trans (List.suffix_cons t ts))) := by
  rw [loop, h]
  dsimp only
  cases step a b t ts with
  | error d => rfl
  | ok next =>
    dsimp only
    cases loop start? step next.value next.rest <;> rfl

end Loop

/-! ### What is read -/

/-- The parser reads a value off the front of the tokens and leaves the rest. -/
def Reads {α : Type} (p : Parser α) (ts : List Token) (value : α) (rest : List Token) : Prop :=
  ∃ h, p ts = .ok ⟨value, rest, h⟩

namespace Reads

variable {α β : Type} {p : Parser α} {f : α → Parser β} {a : α} {b : β} {rest rest' : List Token}

theorem of_eq {r : Parsed α ts} (h : p ts = .ok r) : Reads p ts r.value r.rest := ⟨r.suffix, h⟩

theorem suffix (h : Reads p ts a rest) : rest <:+ ts := h.1

theorem unique {a' : α} (h : Reads p ts a rest) (h' : Reads p ts a' rest') : a = a' ∧ rest = rest' := by
  obtain ⟨_, h⟩ := h
  obtain ⟨_, h'⟩ := h'
  cases h.symm.trans h'
  exact ⟨rfl, rfl⟩

theorem bind (ha : Reads p ts a rest) (hb : Reads (f a) rest b rest') : Reads (p >>= f) ts b rest' := by
  obtain ⟨h, ha⟩ := ha
  obtain ⟨h', hb⟩ := hb
  refine ⟨h'.trans h, ?_⟩
  rw [bind_apply, ha]
  dsimp only
  rw [hb]
  rfl

theorem of_bind (h : Reads (p >>= f) ts b rest') : ∃ a rest, Reads p ts a rest ∧ Reads (f a) rest b rest' := by
  obtain ⟨h, hb⟩ := h
  rw [bind_apply] at hb
  cases ha : p ts with
  | error d => rw [ha] at hb; cases hb
  | ok first =>
    rw [ha] at hb
    dsimp only at hb
    cases hs : f first.value first.rest with
    | error d => rw [hs] at hb; cases hb
    | ok second =>
      rw [hs] at hb
      cases hb
      exact ⟨_, _, .of_eq ha, .of_eq hs⟩

end Reads

theorem reads_pure {α : Type} {a b : α} {rest : List Token} : Reads (pure a) ts b rest ↔ b = a ∧ rest = ts := by
  constructor
  · rintro ⟨_, h⟩
    cases h
    exact ⟨rfl, rfl⟩
  · rintro ⟨rfl, rfl⟩
    exact ⟨List.suffix_refl _, rfl⟩

theorem current_nil : (current []).kind = .endOfFile := rfl

theorem reads_identifier {name : String} {rest : List Token} :
    Reads identifier ts name rest ↔ ∃ t, ts = t :: rest ∧ t.kind = .identifier name := by
  constructor
  · rintro ⟨_, h⟩
    cases ts with
    | nil => rw [identifier_of_ne fun _ e => nomatch current_nil.symm.trans e] at h; cases h
    | cons t ts =>
      by_cases hk : ∃ name, t.kind = .identifier name
      · obtain ⟨name, hk⟩ := hk
        rw [identifier_cons_of_eq hk] at h
        cases h
        exact ⟨t, rfl, hk⟩
      · rw [identifier_cons_of_ne fun name hn => hk ⟨name, hn⟩] at h
        cases h
  · rintro ⟨t, rfl, hk⟩
    exact .of_eq (identifier_cons_of_eq hk)

theorem reads_expect {rest : List Token} : Reads (expect s) ts () rest ↔ ∃ t, ts = t :: rest ∧ t.kind = .symbol s := by
  constructor
  · rintro ⟨_, h⟩
    cases ts with
    | nil => rw [expect_of_ne fun e => nomatch current_nil.symm.trans e] at h; cases h
    | cons t ts =>
      by_cases hk : t.kind = .symbol s
      · rw [expect_cons_of_eq hk] at h
        cases h
        exact ⟨t, rfl, hk⟩
      · rw [expect_cons_of_ne hk] at h
        cases h
  · rintro ⟨t, rfl, hk⟩
    exact .of_eq (expect_cons_of_eq hk)

theorem reads_eat {found : Bool} {rest : List Token} : Reads (eat s) ts found rest ↔
    (found = true ∧ ∃ t, ts = t :: rest ∧ t.kind = .symbol s) ∨
      (found = false ∧ rest = ts ∧ (current ts).kind ≠ .symbol s) := by
  constructor
  · rintro ⟨_, h⟩
    by_cases hk : (current ts).kind = .symbol s
    · rw [eat_of_eq hk] at h
      cases h
      cases ts with
      | nil => cases hk
      | cons t ts => exact .inl ⟨rfl, t, rfl, hk⟩
    · rw [eat_of_ne hk] at h
      cases h
      exact .inr ⟨rfl, rfl, hk⟩
  · rintro (⟨rfl, t, rfl, hk⟩ | ⟨rfl, rfl, hk⟩)
    · exact .of_eq (eat_cons_of_eq hk)
    · exact .of_eq (eat_of_ne hk)

section Loop

variable {α β : Type} {start? : TokenKind → Option β} {step : α → β → Token → Parser α} {a b : α} {rest : List Token}

theorem reads_loop_of_none (h : start? (current ts).kind = none) :
    Reads (loop start? step a) ts b rest ↔ b = a ∧ rest = ts := by
  constructor
  · rintro ⟨_, hb⟩
    rw [loop_of_none h] at hb
    cases hb
    exact ⟨rfl, rfl⟩
  · rintro ⟨rfl, rfl⟩
    exact .of_eq (loop_of_none h)

theorem reads_loop_of_some {t : Token} {d : β} (h : start? t.kind = some d) :
    Reads (loop start? step a) (t :: ts) b rest ↔
    ∃ c rest', Reads (step a d t) ts c rest' ∧ Reads (loop start? step c) rest' b rest := by
  constructor
  · rintro ⟨_, hb⟩
    rw [loop_of_some h] at hb
    cases hs : step a d t ts with
    | error e => rw [hs] at hb; cases hb
    | ok next =>
      rw [hs] at hb
      dsimp only at hb
      cases hl : loop start? step next.value next.rest with
      | error e => rw [hl] at hb; cases hb
      | ok last =>
        rw [hl] at hb
        cases hb
        exact ⟨_, _, .of_eq hs, .of_eq hl⟩
  · rintro ⟨c, rest', ⟨hc, hs⟩, hb, hl⟩
    refine ⟨hb.trans (hc.trans (List.suffix_cons t ts)), ?_⟩
    rw [loop_of_some h, hs]
    dsimp only
    rw [hl]
    rfl

end Loop

theorem reads_peek_bind {α : Type} {f : Token → Parser α} {a : α} {rest : List Token} :
    Reads (peek >>= f) ts a rest ↔ Reads (f (current ts)) ts a rest := by
  constructor
  · intro h
    obtain ⟨t, rest', ⟨_, ht⟩, h⟩ := h.of_bind
    cases ht
    exact h
  · exact Reads.bind ⟨List.suffix_refl _, rfl⟩

end FlowCheck.Flow.Parser

import FlowCheck.Proofs.Flow.Precedence

/-! Writing what is read. Whatever the parser reads as an expression is written properly: its tokens are the words of
    a written expression of the tree that is read, which binds as tightly as its place asks for and opens no more
    levels than there are. -/

namespace FlowCheck.Flow

open FlowCheck.Flow.Parser FlowCheck.Text

/-! ### Tokens of a text -/

/-- A token that some text has. -/
def TokenKind.Spelled : TokenKind → Prop
  | .int value => value < intLimit
  | .float value => ∃ text, Spells text (.float value)
  | .identifier name => Named name
  | _ => True

namespace Lexeme

variable {c : Char} {whole rest : List Char} {kind : TokenKind}

theorem isDigits_takeWhile (hc : isDigit c = true) (rest : List Char) :
    Numeral.isDigits (c :: rest.takeWhile isDigit) = true := by
  rw [Numeral.isDigits, List.isEmpty_cons, List.all_cons, hc, List.all_takeWhile]
  rfl

theorem spelled_int (h : (int whole).token = some kind) : kind.Spelled := by
  unfold int at h
  split at h
  · rename_i hvalue
    rw [← Option.some.inj h]
    exact hvalue
  · rw [← Option.some.inj h]
    exact Nat.two_pow_pos 63

theorem spelled_number (hwhole : Numeral.isDigits whole = true) (h : (number whole rest).1.token = some kind) :
    kind.Spelled := by
  unfold number at h
  split at h
  · split at h
    · rename_i d more hd
      rw [← Option.some.inj h]
      refine ⟨_, .float hwhole ?_⟩
      rw [List.takeWhile_cons_of_pos hd]
      exact isDigits_takeWhile hd more
    · exact spelled_int h
  · exact spelled_int h

theorem spelled_next (h : (next c rest).1.token = some kind) : kind.Spelled := by
  cases kind with
  | identifier name => exact (next_kind h).2.1 name rfl
  | string | symbol | endOfFile => trivial
  | int | float =>
    unfold next at h
    split at h
    · cases h
    split at h
    · cases h
    split at h
    · cases h
    split at h
    · cases h
    split at h
    · rename_i hdigit
      exact spelled_number (isDigits_takeWhile hdigit rest) h
    split at h
    · have hword := Option.some.inj h
      unfold wordToken at hword
      split at hword <;> cases hword
    · obtain ⟨s, hs⟩ := kind_sign h
      cases hs

end Lexeme

theorem spelled_of_content {text : List Char} {kind : TokenKind} (h : kind ∈ (content text).kinds) : kind.Spelled := by
  obtain ⟨l, hl, htoken⟩ := List.mem_filterMap.mp h
  clear h
  fun_induction Lexeme.all text with
  | case1 => cases hl
  | case2 c rest ih =>
    rcases List.mem_cons.mp hl with rfl | hl
    · exact Lexeme.spelled_next htoken
    · exact ih hl

theorem spelled_of_kinds {text : List Char} {w : List Token} {last : Token}
    (hkinds : w.map (·.kind) ⊆ (content text).kinds) (hlast : last.kind = .endOfFile) : ∀ t ∈ w ++ [last], t.kind.Spelled := by
  intro t ht
  rcases List.mem_append.mp ht with ht | ht
  · exact spelled_of_content (hkinds (List.mem_map_of_mem ht))
  · rw [List.mem_singleton.mp ht, hlast]
    trivial

/-! ### Rules -/

/-- The expression is written at the front of these tokens, binding as tightly as `k` and opening fewer levels than
`room`. -/
structure Written.Fronts (w : Written) (k room : Nat) (e : Expr) (ts rest : List Token) : Prop where
  proper : w.Proper
  rank : k ≤ w.rank
  depth : w.depth < room
  tree : w.tree.Alike anywhere e
  height : e.height ≤ maxHeight
  words : ∃ front, front.map (·.kind) = w.words ∧ ts = front ++ rest

/-- What the parser reads of the tokens of a text is written there. -/
def Recovers (p : Parser Expr) (k room : Nat) : Prop :=
  ∀ ⦃ts rest e⦄, Reads p ts e rest → (∀ t ∈ ts, t.kind.Spelled) → ∃ w : Written, w.Fronts k room e ts rest

section Rules

variable {operand inner branch : Parser Expr} {k room : Nat} {e : Expr} {t : Token} {ts rest : List Token}
  {w : Written}

theorem Written.Fronts.loosen {j : Nat} (h : w.Fronts k room e ts rest) (hj : j ≤ k) : w.Fronts j room e ts rest :=
  { h with rank := hj.trans h.rank }

theorem Written.Fronts.spelled (h : w.Fronts k room e ts rest) (hts : ∀ t ∈ ts, t.kind.Spelled) :
    ∀ t ∈ rest, t.kind.Spelled := by
  obtain ⟨front, -, rfl⟩ := h.words
  exact fun t ht => hts t (List.mem_append_right front ht)

theorem recovers_fail {p : Problem} : Recovers (fail p) k room := fun _ _ _ h => absurd h reads_fail

theorem fronts_word (hproper : w.Proper) (hrank : w.rank = 8) (hdepth : w.depth = 0) (hwords : w.words = [t.kind])
    (htree : w.tree.Alike anywhere e) (hheight : e.height = 1) : w.Fronts 8 (room + 1) e (t :: rest) rest where
  proper := hproper
  rank := hrank.ge
  depth := hdepth ▸ Nat.succ_pos room
  tree := htree
  height := hheight ▸ show 1 ≤ maxHeight by decide
  words := ⟨[t], hwords.symm, rfl⟩

theorem fronts_token (h : Expr.ofToken? t = some e) (ht : t.kind.Spelled) :
    ∃ w : Written, w.Fronts 8 (room + 1) e (t :: rest) rest := by
  unfold Expr.ofToken? at h
  split at h <;> cases h <;> rename_i hkind <;> rw [hkind] at ht
  · exact ⟨.int _, fronts_word ht rfl rfl (hkind ▸ rfl) (.int trivial) rfl⟩
  · obtain ⟨text, hspells⟩ := ht
    exact ⟨.float text _, fronts_word hspells rfl rfl (hkind ▸ rfl) (.float trivial) rfl⟩
  · exact ⟨.string _, fronts_word trivial rfl rfl (hkind ▸ rfl) (.string trivial) rfl⟩
  · exact ⟨.name _, fronts_word ht rfl rfl (hkind ▸ rfl) (.name trivial) rfl⟩
  · exact ⟨.bool true, fronts_word trivial rfl rfl (hkind ▸ rfl) (.bool trivial) rfl⟩
  · exact ⟨.bool false, fronts_word trivial rfl rfl (hkind ▸ rfl) (.bool trivial) rfl⟩
  · exact ⟨.null, fronts_word trivial rfl rfl (hkind ▸ rfl) (.null trivial) rfl⟩

theorem recovers_primary (hinner : Recovers inner 0 room) : Recovers (primary inner) 8 (room + 1) := by
  intro ts rest e h hts
  rcases reads_primary.mp h with ⟨t, rfl, ht⟩ | ⟨t, ts, u, rfl, ht, he, hu⟩
  · exact fronts_token ht (hts t (.head _))
  · obtain ⟨w, hw⟩ := hinner he fun t ht => hts t (.tail _ ht)
    obtain ⟨front, hfront, rfl⟩ := hw.words
    refine ⟨.parens w, hw.proper, Nat.le_refl 8, Nat.succ_lt_succ hw.depth, hw.tree, hw.height,
      t :: (front ++ [u]), ?_, ?_⟩
    · simp [hfront, ht, hu]
    · simp

theorem recovers_member (hinner : Recovers inner 0 room) : Recovers (member inner) 8 (room + 1) := by
  intro ts rest e h hts
  obtain ⟨target, mid, htarget, hloop⟩ := h.of_bind
  refine (hloop.loop_induction (I := fun e rest => ∃ w : Written, w.Fronts 8 (room + 1) e ts rest) ?_
    (recovers_primary hinner htarget hts)).1
  rintro e dot mid _ e' rest ⟨w, hw⟩ hdot hstep
  rw [reads_peek_bind] at hstep
  obtain ⟨name, rest', hname, hnode⟩ := hstep.of_bind
  obtain ⟨hheight, rfl, rfl⟩ := reads_node.mp hnode
  obtain ⟨field, rfl, hfield⟩ := reads_identifier.mp hname
  have hnamed : Named name := by
    have h := hw.spelled hts field (.tail _ (.head _))
    rwa [hfield] at h
  have hdot : dot.kind = .symbol .dot := by simpa [only] using hdot
  obtain ⟨front, hfront, rfl⟩ := hw.words
  refine ⟨.member w name, ⟨hw.proper, hnamed, hw.rank⟩, Nat.le_refl 8, hw.depth, .member hw.tree trivial, hheight,
    front ++ [dot, field], ?_, ?_⟩
  · simp [hfront, hdot, hfield]
  · simp

theorem recovers_unary (hoperand : Recovers operand 7 room) (hinner : Recovers inner 0 room) :
    Recovers (unary operand inner) 7 (room + 1) := by
  intro ts rest e h hts
  rcases reads_unary.mp h with ⟨-, h⟩ | ⟨t, ts, op, body, rfl, ht, hbody, rfl, hheight⟩
  · obtain ⟨w, hw⟩ := recovers_member hinner h hts
    exact ⟨w, hw.loosen (Nat.le_succ 7)⟩
  · obtain ⟨w, hw⟩ := hoperand hbody fun t ht => hts t (.tail _ ht)
    obtain ⟨front, hfront, rfl⟩ := hw.words
    refine ⟨.unary op w, ⟨hw.proper, hw.rank⟩, Nat.le_refl 7, Nat.succ_lt_succ hw.depth, .unary hw.tree trivial, hheight,
      t :: front, ?_, rfl⟩
    simp [hfront, ht]

theorem BinaryOp.tier_eq {op : BinaryOp} {tier : List BinaryOp} (htier : tiers[k]? = some tier) (hop : op ∈ tier) :
    op.tier = k := by
  have hall : ∀ j : Fin tiers.length, op ∈ tiers[j] → op.tier = j := by cases op <;> decide
  obtain ⟨hk, rfl⟩ := List.getElem?_eq_some_iff.mp htier
  exact hall ⟨k, hk⟩ hop

theorem recovers_binary (hoperand : Recovers operand 7 room) {tiers : List (List BinaryOp)}
    (htiers : BinaryOp.tiers.drop k = tiers) (hk : k ≤ 6) : Recovers (binary operand tiers) (k + 1) room := by
  -- Each round of the loop of a tier puts what is written so far on the left and a tighter expression on the right.
  induction tiers generalizing k with
  | nil =>
    obtain rfl : k = 6 := Nat.le_antisymm hk (List.drop_eq_nil_iff.mp htiers)
    exact hoperand
  | cons tier tighter ih =>
    have htier : BinaryOp.tiers[k]? = some tier := by rw [← List.head?_drop, htiers, List.head?_cons]
    have hlt : k < 6 := (List.getElem?_eq_some_iff.mp htier).1
    have htighter : Recovers (binary operand tighter) (k + 2) room :=
      ih (by rw [← List.tail_drop, htiers, List.tail_cons]) hlt
    intro ts rest e h hts
    obtain ⟨left, mid, hleft, hloop⟩ := h.of_bind
    obtain ⟨w, hw⟩ := htighter hleft hts
    refine (hloop.loop_induction (I := fun e rest => ∃ w : Written, w.Fronts (k + 1) room e ts rest) ?_
      ⟨w, hw.loosen (Nat.le_succ _)⟩).1
    rintro e t mid op e' rest ⟨w, hw⟩ hop hstep
    obtain ⟨right, rest', hright, hnode⟩ := hstep.of_bind
    obtain ⟨hheight, rfl, rfl⟩ := reads_node.mp hnode
    obtain ⟨hmem, ht⟩ := BinaryOp.symbol_of_ofKind? hop
    obtain ⟨v, hv⟩ := htighter hright fun t ht => hw.spelled hts t (.tail _ ht)
    obtain rfl := BinaryOp.tier_eq htier hmem
    obtain ⟨front, hfront, rfl⟩ := hw.words
    obtain ⟨back, hback, rfl⟩ := hv.words
    refine ⟨.binary op w v, ⟨hw.proper, hv.proper, hw.rank, hv.rank⟩, Nat.le_refl _, Nat.max_lt.mpr ⟨hw.depth, hv.depth⟩,
      .binary hw.tree hv.tree trivial, hheight, front ++ t :: back, ?_, ?_⟩
    · simp [hfront, hback, ht]
    · simp

theorem recovers_conditional (hoperand : Recovers operand 7 (room + 1)) (hbranch : Recovers branch 0 room) :
    Recovers (conditional operand branch) 0 (room + 1) := by
  intro ts rest e h hts
  obtain ⟨test, mid, htest, hrest⟩ := reads_conditional.mp h
  obtain ⟨w, hw⟩ := recovers_binary (k := 0) hoperand rfl (Nat.zero_le 6) htest hts
  rcases hrest with ⟨-, rfl, rfl⟩ | ⟨t, mid₁, p, u, mid₂, n, rfl, ht, hp, hu, hn, rfl, hheight⟩
  · exact ⟨w, hw.loosen (Nat.zero_le 1)⟩
  · have hmid := hw.spelled hts
    obtain ⟨positive, hpositive⟩ := hbranch hp fun t ht => hmid t (.tail _ ht)
    obtain ⟨negative, hnegative⟩ := hbranch hn fun t ht =>
      hpositive.spelled (fun t ht => hmid t (.tail _ ht)) t (.tail _ ht)
    obtain ⟨front, hfront, rfl⟩ := hw.words
    obtain ⟨front₁, hfront₁, rfl⟩ := hpositive.words
    obtain ⟨front₂, hfront₂, rfl⟩ := hnegative.words
    refine ⟨.conditional w positive negative, ⟨hw.proper, hpositive.proper, hnegative.proper, hw.rank⟩, Nat.zero_le _,
      Nat.max_lt.mpr ⟨hw.depth, Nat.succ_lt_succ (Nat.max_lt.mpr ⟨hpositive.depth, hnegative.depth⟩)⟩,
      .conditional hw.tree hpositive.tree hnegative.tree trivial, hheight,
      front ++ t :: (front₁ ++ u :: front₂), ?_, ?_⟩
    · simp [hfront, hfront₁, hfront₂, ht, hu]
    · simp

/-- An expression opens a level of its own, and an operand none. -/
theorem recovers_level (room : Nat) :
    Recovers (level room).expression 0 room ∧ Recovers (level room).operand 7 (room + 1) := by
  induction room with
  | zero => exact ⟨recovers_fail, recovers_unary recovers_fail recovers_fail⟩
  | succ room ih =>
    have hexpression : Recovers (level (room + 1)).expression 0 (room + 1) := recovers_conditional ih.2 ih.1
    exact ⟨hexpression, recovers_unary ih.2 hexpression⟩

/-- Every expression that is read from a text is written there, within the limits. -/
theorem recovers_expression : Recovers expression 0 maxNesting := (recovers_level maxNesting).1

end Rules

end FlowCheck.Flow

import FlowCheck.Proofs.Flow.Names
import FlowCheck.Proofs.Flow.Pasting
import FlowCheck.Proofs.Flow.Printing

/-! Reading what is written. An expression that opens no more levels than there are is read, with just its words, as
    the tree that is written. Loops read operators of one tier from left to right, so what is said of a loop is how it
    goes on behind an expression that it has read. -/

namespace FlowCheck.Flow

open FlowCheck.Flow.Parser

/-! ### Loops -/

section Loops

variable {α β : Type} {p base : Parser α} {l : α → Parser α} {start? : TokenKind → Option β}
  {step : α → β → Token → Parser α} {K L : List TokenKind} {N M : TokenKind → Prop} {V W : α → Prop}

/-- Behind these words the parser goes on with the loop `l`. -/
def Opens (p : Parser α) (l : α → Parser α) (K : List TokenKind) (N : TokenKind → Prop) (V : α → Prop) : Prop :=
  ∀ ⦃w more : List Token⦄, w.map (·.kind) = K → N (current more).kind →
    ∃ a, V a ∧ ∀ b rest, Reads (l a) more b rest → Reads p (w ++ more) b rest

theorem Yields.opens (h : Yields base K N V) : Opens (base >>= l) l K N V := by
  intro w more hw hmore
  obtain ⟨a, ha, hV⟩ := h hw hmore
  exact ⟨a, hV, fun b rest hb => ha.bind hb⟩

theorem Opens.yields (h : Opens p (loop start? step) K N V) (hM : ∀ kind, M kind → N kind ∧ start? kind = none) :
    Yields p K M V := by
  intro w more hw hmore
  obtain ⟨hN, hstop⟩ := hM _ hmore
  obtain ⟨a, hV, hloop⟩ := h hw hN
  exact ⟨a, hloop a more ((reads_loop_of_none hstop).mpr ⟨rfl, rfl⟩), hV⟩

/-- One more round of a loop. -/
theorem Opens.round (h : Opens p (loop start? step) K N V) {kind : TokenKind} {d : β} (hN : N kind)
    (hstart : start? kind = some d) (hstep : ∀ a, V a → ∀ t, Yields (step a d t) L M W) :
    Opens p (loop start? step) (K ++ kind :: L) M W := by
  intro w more hw hmore
  obtain ⟨w₁, w, rfl, hw₁, hw⟩ := List.map_eq_append_iff.mp hw
  obtain ⟨t, w₂, rfl, rfl, hw₂⟩ := List.map_eq_cons_iff.mp hw
  obtain ⟨a, hV, hloop⟩ := h hw₁ (show N (current (t :: w₂ ++ more)).kind from hN)
  obtain ⟨c, hc, hW⟩ := hstep a hV t hw₂ hmore
  refine ⟨c, hW, fun b rest hb => ?_⟩
  rw [List.append_assoc]
  exact hloop b rest ((reads_loop_of_some hstart).mpr ⟨c, more, hc, hb⟩)

end Loops

/-! ### Slots -/

/-- What may stand in a tier, when so many levels may still be opened: expressions of its operators and of those that
bind tighter. -/
def slot (room k : Nat) : Parser Expr := binary (level room).operand (BinaryOp.tiers.drop k)

/-- No member is taken behind this, and no operator of the tiers from `k` on. -/
def EndsTier (k : Nat) (kind : TokenKind) : Prop :=
  kind ≠ .symbol .dot ∧ ∀ tier ∈ BinaryOp.tiers.drop k, BinaryOp.ofKind? tier kind = none

/-- Nothing goes on with an expression behind this. -/
def EndsExpression (kind : TokenKind) : Prop := EndsTier 0 kind ∧ kind ≠ .symbol .question

/-- What closes parentheses, the first branch of a conditional or a text ends an expression. -/
theorem endsExpression_of_closing {t : Token} (more : List Token)
    (ht : t.kind = .symbol .rightParen ∨ t.kind = .symbol .colon ∨ t.kind = .endOfFile) :
    EndsExpression (current (t :: more)).kind := by
  show EndsExpression t.kind
  rcases ht with ht | ht | ht <;> rw [ht] <;> exact ⟨⟨nofun, by decide⟩, nofun⟩

/-- Reads on with operators of a tier. -/
def tierLoop (room k : Nat) (tier : List BinaryOp) (left : Expr) : Parser Expr :=
  loop (BinaryOp.ofKind? tier) (fun left op t => do
    let right ← slot room (k + 1)
    node (.binary op left right t.start)) left

/-- Reads on with members. -/
def memberLoop (target : Expr) : Parser Expr :=
  loop (only .dot) (fun target _ _ => do
    let start := (← peek).start
    let field ← identifier
    node (.member target field start)) target

theorem slot_of_tier {room k : Nat} {tier : List BinaryOp} (h : BinaryOp.tiers[k]? = some tier) :
    slot room k = slot room (k + 1) >>= tierLoop room k tier := by
  obtain ⟨hk, rfl⟩ := List.getElem?_eq_some_iff.mp h
  rw [slot, List.drop_eq_getElem_cons hk]
  rfl

theorem EndsTier.of_le {j k : Nat} {kind : TokenKind} (hjk : j ≤ k) (h : EndsTier j kind) : EndsTier k kind := by
  obtain ⟨i, rfl⟩ := Nat.exists_eq_add_of_le hjk
  refine ⟨h.1, fun tier htier => h.2 tier ?_⟩
  rw [← List.drop_drop] at htier
  exact List.mem_of_mem_drop htier

theorem mem_drop_of_getElem? {k : Nat} {tier : List BinaryOp} (h : BinaryOp.tiers[k]? = some tier) :
    tier ∈ BinaryOp.tiers.drop k := by
  obtain ⟨hk, rfl⟩ := List.getElem?_eq_some_iff.mp h
  rw [List.drop_eq_getElem_cons hk]
  exact .head _

variable {K : List TokenKind} {V : Expr → Prop} {room : Nat}

theorem Yields.tier {k : Nat} (h : Yields (slot room (k + 1)) K (EndsTier (k + 1)) V) :
    Yields (slot room k) K (EndsTier k) V := by
  cases htier : BinaryOp.tiers[k]? with
  | none =>
    have hk := List.getElem?_eq_none_iff.mp htier
    have hslot : slot room k = slot room (k + 1) := by
      rw [slot, slot, List.drop_eq_nil_of_le hk, List.drop_eq_nil_of_le (Nat.le_succ_of_le hk)]
    rw [hslot]
    exact fun w more hw hmore => h hw (hmore.of_le (Nat.le_succ k))
  | some tier =>
    rw [slot_of_tier htier]
    exact h.opens.yields fun kind hkind => ⟨hkind.of_le (Nat.le_succ k), hkind.2 tier (mem_drop_of_getElem? htier)⟩

theorem Yields.slots {j k : Nat} (hjk : j ≤ k) (h : Yields (slot room k) K (EndsTier k) V) :
    Yields (slot room j) K (EndsTier j) V := by
  induction hjk with
  | refl => exact h
  | step _ ih => exact ih h.tier

/-! ### Operators -/

theorem BinaryOp.tier_spec (op : BinaryOp) : ∃ tier, tiers[op.tier]? = some tier ∧
    ofKind? tier (.symbol op.symbol) = some op ∧ EndsTier (op.tier + 1) (.symbol op.symbol) := by
  cases op <;> exact ⟨_, rfl, rfl, nofun, by decide⟩

theorem yields_node {e : Expr} {N : TokenKind → Prop} (hheight : e.height ≤ maxHeight) (hV : V e) :
    Yields (node e) [] N V := by
  intro w more hw _
  obtain rfl := List.map_eq_nil_iff.mp hw
  exact ⟨e, reads_node.mpr ⟨hheight, rfl, rfl⟩, hV⟩

/-! ### Primary expressions -/

section Rules

variable {inner : Parser Expr} {N : TokenKind → Prop}

theorem yields_token {kind : TokenKind} (h : ∀ t : Token, t.kind = kind → ∃ e, Expr.ofToken? t = some e ∧ V e) :
    Yields (primary inner) [kind] N V := by
  intro w more hw _
  obtain ⟨t, rfl, ht⟩ := List.map_eq_singleton_iff.mp hw
  obtain ⟨e, he, hV⟩ := h t ht
  exact ⟨e, reads_primary.mpr (.inl ⟨t, rfl, he⟩), hV⟩

theorem yields_parens (h : Yields inner K EndsExpression V) :
    Yields (primary inner) (.symbol .leftParen :: (K ++ [.symbol .rightParen])) N V := by
  intro w more hw _
  obtain ⟨t, w, rfl, ht, hw⟩ := List.map_eq_cons_iff.mp hw
  obtain ⟨w₁, w₂, rfl, hw₁, hw₂⟩ := List.map_eq_append_iff.mp hw
  obtain ⟨u, rfl, hu⟩ := List.map_eq_singleton_iff.mp hw₂
  obtain ⟨e, he, hV⟩ := h hw₁ (endsExpression_of_closing more (.inl hu))
  exact ⟨e, reads_primary.mpr (.inr ⟨t, w₁ ++ u :: more, u, by simp, ht, he, hu⟩), hV⟩

theorem yields_operand (h : Yields (member (level room).expression) K (· ≠ .symbol .dot) V)
    (hhead : ∃ kind K', K = kind :: K' ∧ UnaryOp.ofKind? kind = none) : Yields (slot room 6) K (EndsTier 6) V := by
  intro w more hw hmore
  obtain ⟨e, he, hV⟩ := h hw hmore.1
  obtain ⟨kind, K', rfl, hkind⟩ := hhead
  have hcurrent : UnaryOp.ofKind? (current (w ++ more)).kind = none := by
    rw [current_append, hw]
    exact hkind
  refine ⟨e, ?_, hV⟩
  cases room <;> exact reads_unary.mpr (.inl ⟨hcurrent, he⟩)

theorem yields_unary {op : UnaryOp} (h : Yields (slot room 6) K (EndsTier 6) V) {W : Expr → Prop}
    (hV : ∀ e loc, V e → W (.unary op e loc) ∧ (Expr.unary op e loc).height ≤ maxHeight) :
    Yields (slot (room + 1) 6) (.symbol op.symbol :: K) (EndsTier 6) W := by
  intro w more hw hmore
  obtain ⟨t, w, rfl, ht, hw⟩ := List.map_eq_cons_iff.mp hw
  obtain ⟨e, he, hV'⟩ := h hw hmore
  obtain ⟨hW, hheight⟩ := hV e t.start hV'
  exact ⟨_, reads_unary.mpr (.inr ⟨t, w ++ more, op, e, rfl, ht, he, rfl, hheight⟩), hW⟩

theorem yields_expression (h : Yields (slot room 0) K (EndsTier 0) V) :
    Yields (level (room + 1)).expression K EndsExpression V := by
  intro w more hw hmore
  obtain ⟨e, he, hV⟩ := h hw hmore.1
  exact ⟨e, reads_conditional.mpr ⟨e, more, he, .inl ⟨hmore.2, rfl, rfl⟩⟩, hV⟩

theorem yields_conditional {P Q : List TokenKind} {X Y W : Expr → Prop}
    (htest : Yields (slot (room + 1) 0) K (EndsTier 0) V)
    (hpositive : Yields (level (room + 1)).expression P EndsExpression X)
    (hnegative : Yields (level (room + 1)).expression Q EndsExpression Y)
    (hW : ∀ e p n loc, V e → X p → Y n → W (.conditional e p n loc) ∧ (Expr.conditional e p n loc).height ≤ maxHeight) :
    Yields (level (room + 2)).expression (K ++ .symbol .question :: (P ++ .symbol .colon :: Q)) EndsExpression W := by
  intro w more hw hmore
  obtain ⟨w₁, w, rfl, hw₁, hw⟩ := List.map_eq_append_iff.mp hw
  obtain ⟨t, w, rfl, ht, hw⟩ := List.map_eq_cons_iff.mp hw
  obtain ⟨w₂, w, rfl, hw₂, hw⟩ := List.map_eq_append_iff.mp hw
  obtain ⟨u, w₃, rfl, hu, hw₃⟩ := List.map_eq_cons_iff.mp hw
  have hquestion : EndsTier 0 (current (t :: (w₂ ++ u :: w₃) ++ more)).kind := by
    show EndsTier 0 t.kind
    rw [ht]
    exact ⟨nofun, by decide⟩
  have hcolon : EndsExpression (current (u :: w₃ ++ more)).kind := endsExpression_of_closing _ (.inr (.inl hu))
  obtain ⟨e, he, hV⟩ := htest hw₁ hquestion
  obtain ⟨p, hp, hX⟩ := hpositive hw₂ hcolon
  obtain ⟨n, hn, hY⟩ := hnegative hw₃ hmore
  obtain ⟨hW, hheight⟩ := hW e p n t.start hV hX hY
  have htail : t :: (w₂ ++ u :: w₃) ++ more = t :: (w₂ ++ u :: (w₃ ++ more)) := by simp
  rw [List.append_assoc]
  rw [htail] at he ⊢
  exact ⟨_, reads_conditional.mpr ⟨e, _, he, .inr ⟨t, _, p, u, _, n, rfl, ht, hp, hu, hn, rfl, hheight⟩⟩, hW⟩

end Rules

/-! ### Written expressions -/

namespace Written

/-- The expression is read wherever its rank lets it stand, if its levels can be opened there. -/
structure Readable (w : Written) : Prop where
  member : 8 ≤ w.rank → ∀ room, w.depth ≤ room →
    Opens (Flow.member (level room).expression) memberLoop w.words (fun _ => True) (w.tree.Alike anywhere)
  tier : ∀ k tier, BinaryOp.tiers[k]? = some tier → k + 1 ≤ w.rank → ∀ room, w.depth ≤ room →
    Opens (slot room k) (tierLoop room k tier) w.words (EndsTier (k + 1)) (w.tree.Alike anywhere)
  slot : ∀ k, k ≤ 6 → k + 1 ≤ w.rank → ∀ room, w.depth ≤ room →
    Yields (slot room k) w.words (EndsTier k) (w.tree.Alike anywhere)
  expression : ∀ room, w.depth ≤ room →
    Yields (level (room + 1)).expression w.words EndsExpression (w.tree.Alike anywhere)

variable {w : Written}

section Words

@[simp] theorem words_member (target : Written) (field : String) :
    (Written.member target field).words = target.words ++ [.symbol .dot, .identifier field] := by
  simp [words, pieces, sign]

@[simp] theorem words_unary (op : UnaryOp) (operand : Written) :
    (Written.unary op operand).words = .symbol op.symbol :: operand.words := by
  simp [words, pieces, sign]

@[simp] theorem words_binary (op : BinaryOp) (left right : Written) :
    (Written.binary op left right).words = left.words ++ .symbol op.symbol :: right.words := by
  simp [words, pieces, sign]

@[simp] theorem words_conditional (test positive negative : Written) :
    (Written.conditional test positive negative).words =
      test.words ++ .symbol .question :: (positive.words ++ .symbol .colon :: negative.words) := by
  simp [words, pieces, sign]

@[simp] theorem words_parens (inner : Written) :
    (Written.parens inner).words = .symbol .leftParen :: (inner.words ++ [.symbol .rightParen]) := by
  simp [words, pieces, sign]

end Words

theorem words_head (hproper : w.Proper) (h : 8 ≤ w.rank) :
    ∃ kind K, w.words = kind :: K ∧ UnaryOp.ofKind? kind = none := by
  induction w with
  | member target field ih =>
    obtain ⟨kind, K, hwords, hkind⟩ := ih hproper.1 hproper.2.2
    exact ⟨kind, _, by rw [words_member, hwords, List.cons_append], hkind⟩
  | binary op left right => exact absurd h (by have := op.tier_lt; simp only [rank]; omega)
  | unary | conditional => exact absurd h (by simp [rank])
  | bool value => cases value <;> exact ⟨_, _, rfl, rfl⟩
  | _ => exact ⟨_, _, rfl, rfl⟩

/-- From the tightest slot that an expression can stand in, it is read in all others. -/
theorem readable_of_slot {k : Nat} (hk : k ≤ 6) (hrank : w.rank = k + 1 ∨ k = 6)
    (hmember : 8 ≤ w.rank → ∀ room, w.depth ≤ room →
      Opens (Flow.member (level room).expression) memberLoop w.words (fun _ => True) (w.tree.Alike anywhere))
    (htier : ∀ tier, BinaryOp.tiers[k]? = some tier → ∀ room, w.depth ≤ room →
      Opens (Flow.slot room k) (tierLoop room k tier) w.words (EndsTier (k + 1)) (w.tree.Alike anywhere))
    (hslot : ∀ room, w.depth ≤ room → Yields (Flow.slot room k) w.words (EndsTier k) (w.tree.Alike anywhere)) :
    w.Readable := by
  have htight (j : Nat) (hj : j ≤ 6) (hw : j + 1 ≤ w.rank) : j ≤ k := by omega
  refine ⟨hmember, fun j tier hj hw room hroom => ?_,
    fun j hj hw room hroom => (hslot room hroom).slots (htight j hj hw),
    fun room hroom => yields_expression ((hslot room hroom).slots (Nat.zero_le k))⟩
  have hlt : j < 6 := (List.getElem?_eq_some_iff.mp hj).1
  -- In its own tier the expression is what the loop has read; in a looser one it is the first operand.
  rcases Nat.eq_or_lt_of_le (htight j (Nat.le_of_lt hlt) hw) with rfl | hjk
  · exact htier tier hj room hroom
  · rw [slot_of_tier hj]
    exact ((hslot room hroom).slots hjk).opens

theorem readable_of_member (hproper : w.Proper) (hrank : w.rank = 8) (hmember : ∀ room, w.depth ≤ room →
      Opens (Flow.member (level room).expression) memberLoop w.words (fun _ => True) (w.tree.Alike anywhere)) :
    w.Readable := by
  refine readable_of_slot (Nat.le_refl 6) (.inr rfl) (fun _ => hmember) nofun fun room hroom => ?_
  refine yields_operand ((hmember room hroom).yields fun kind hkind => ⟨trivial, ?_⟩) (words_head hproper hrank.ge)
  exact Border.only_eq_none.mpr hkind

theorem readable_of_token (hproper : w.Proper) (hrank : w.rank = 8) {kind : TokenKind} (hwords : w.words = [kind])
    (h : ∀ t : Token, t.kind = kind → ∃ e, Expr.ofToken? t = some e ∧ w.tree.Alike anywhere e) : w.Readable := by
  refine readable_of_member hproper hrank fun room _ => ?_
  rw [hwords]
  exact (yields_token h).opens

section Rules

variable {target operand left right test positive negative inner : Written} {field : String}

theorem readable_field (htarget : target.Readable) (hproper : (Written.member target field).Proper)
    (hheight : (Written.member target field).tree.height ≤ maxHeight) : (Written.member target field).Readable := by
  refine readable_of_member hproper rfl fun room hroom => ?_
  rw [words_member]
  refine (htarget.member hproper.2.2 room hroom).round trivial rfl fun e he t => ?_
  refine yields_peek fun start => ?_
  refine yields_bind (N := fun _ => True) (L := []) (yields_identifier field) (fun name hname => ?_) fun _ _ => trivial
  have halike : (Written.member target field).tree.Alike anywhere (.member e name start.start) := by
    rw [hname]
    exact .member he trivial
  exact yields_node (halike.height ▸ hheight) halike

theorem readable_unary {op : UnaryOp} (hoperand : operand.Readable) (hproper : (Written.unary op operand).Proper)
    (hheight : (Written.unary op operand).tree.height ≤ maxHeight) : (Written.unary op operand).Readable := by
  refine readable_of_slot (Nat.le_refl 6) (.inr rfl) (fun h => absurd h (by simp [rank])) nofun fun room hroom => ?_
  obtain ⟨room, rfl⟩ := Nat.exists_eq_add_of_le' (Nat.le_trans (Nat.le_add_left 1 _) hroom)
  rw [words_unary]
  refine yields_unary (hoperand.slot 6 (Nat.le_refl 6) hproper.2 room (Nat.le_of_succ_le_succ hroom)) fun e loc he => ?_
  have halike : (Written.unary op operand).tree.Alike anywhere (.unary op e loc) := .unary he trivial
  exact ⟨halike, halike.height ▸ hheight⟩

/-- The left operand is what the loop of the tier has read so far, so it may be of this tier; the right one may not. -/
theorem opens_binary {op : BinaryOp} {tier : List BinaryOp} (htier : BinaryOp.tiers[op.tier]? = some tier)
    (hleft : left.Readable) (hright : right.Readable) (hproper : (Written.binary op left right).Proper)
    (hheight : (Written.binary op left right).tree.height ≤ maxHeight) {room : Nat}
    (hroom : (Written.binary op left right).depth ≤ room) :
    Opens (Flow.slot room op.tier) (tierLoop room op.tier tier) (Written.binary op left right).words
      (EndsTier (op.tier + 1)) ((Written.binary op left right).tree.Alike anywhere) := by
  obtain ⟨-, -, hrankLeft, hrankRight⟩ := hproper
  obtain ⟨hroomLeft, hroomRight⟩ := Nat.max_le.mp hroom
  obtain ⟨tier', htier', hop, hends⟩ := op.tier_spec
  obtain rfl := Option.some.inj (htier.symm.trans htier')
  rw [words_binary]
  refine (hleft.tier op.tier tier htier hrankLeft room hroomLeft).round hends hop fun e he t => ?_
  rw [← List.append_nil right.words]
  refine yields_bind (hright.slot (op.tier + 1) op.tier_lt hrankRight room hroomRight) (fun e' he' => ?_) fun _ h => h
  have halike : (Written.binary op left right).tree.Alike anywhere (.binary op e e' t.start) := .binary he he' trivial
  exact yields_node (halike.height ▸ hheight) halike

theorem readable_binary {op : BinaryOp} (hleft : left.Readable) (hright : right.Readable)
    (hproper : (Written.binary op left right).Proper)
    (hheight : (Written.binary op left right).tree.height ≤ maxHeight) : (Written.binary op left right).Readable := by
  have hlt := op.tier_lt
  refine readable_of_slot (Nat.le_of_lt hlt) (.inl rfl) (fun h => absurd h (by simp only [rank]; omega))
    (fun tier htier room hroom => opens_binary htier hleft hright hproper hheight hroom) fun room hroom => ?_
  obtain ⟨tier, htier, -, -⟩ := op.tier_spec
  have hopens := opens_binary htier hleft hright hproper hheight hroom
  rw [slot_of_tier htier] at hopens ⊢
  exact hopens.yields fun kind hkind => ⟨hkind.of_le (Nat.le_succ _), hkind.2 tier (mem_drop_of_getElem? htier)⟩

theorem readable_conditional (htest : test.Readable) (hpositive : positive.Readable) (hnegative : negative.Readable)
    (hproper : (Written.conditional test positive negative).Proper)
    (hheight : (Written.conditional test positive negative).tree.height ≤ maxHeight) :
    (Written.conditional test positive negative).Readable := by
  have hnone {k : Nat} : ¬ k + 1 ≤ (Written.conditional test positive negative).rank := Nat.not_succ_le_zero k
  refine ⟨fun h => absurd h hnone, fun _ _ _ h => absurd h hnone, fun _ _ h => absurd h hnone, fun room hroom => ?_⟩
  obtain ⟨hroomTest, hroomBranches⟩ := Nat.max_le.mp hroom
  obtain ⟨room, rfl⟩ := Nat.exists_eq_add_of_le' (Nat.le_trans (Nat.le_add_left 1 _) hroomBranches)
  obtain ⟨hroomPositive, hroomNegative⟩ := Nat.max_le.mp (Nat.le_of_succ_le_succ hroomBranches)
  rw [words_conditional]
  refine yields_conditional (htest.slot 0 (Nat.zero_le 6) hproper.2.2.2 (room + 1) hroomTest)
    (hpositive.expression room hroomPositive) (hnegative.expression room hroomNegative) fun e p n loc he hp hn => ?_
  have halike : (Written.conditional test positive negative).tree.Alike anywhere (.conditional e p n loc) :=
    .conditional he hp hn trivial
  exact ⟨halike, halike.height ▸ hheight⟩

theorem readable_parens (hinner : inner.Readable) (hproper : (Written.parens inner).Proper) :
    (Written.parens inner).Readable := by
  refine readable_of_member hproper rfl fun room hroom => ?_
  obtain ⟨room, rfl⟩ := Nat.exists_eq_add_of_le' (Nat.le_trans (Nat.le_add_left 1 _) hroom)
  rw [words_parens]
  exact (yields_parens (hinner.expression room (Nat.le_of_succ_le_succ hroom))).opens

end Rules

/-- Whatever is written properly, and is not higher than a tree may be, is read as its tree. -/
theorem readable (hproper : w.Proper) (hheight : w.tree.height ≤ maxHeight) : w.Readable := by
  induction w with
  | int | float | string | name =>
    exact readable_of_token hproper rfl rfl fun t ht => ⟨_, by rw [Expr.ofToken?, ht], by constructor; trivial⟩
  | bool value =>
    cases value
    · exact readable_of_token hproper rfl rfl fun t (ht : t.kind = .symbol .keywordFalse) =>
        ⟨_, by rw [Expr.ofToken?, ht], .bool trivial⟩
    · exact readable_of_token hproper rfl rfl fun t (ht : t.kind = .symbol .keywordTrue) =>
        ⟨_, by rw [Expr.ofToken?, ht], .bool trivial⟩
  | null =>
    exact readable_of_token hproper rfl rfl fun t (ht : t.kind = .symbol .keywordNull) =>
      ⟨_, by rw [Expr.ofToken?, ht], .null trivial⟩
  | member target field ih => exact readable_field (ih hproper.1 (Nat.le_of_succ_le hheight)) hproper hheight
  | unary op operand ih => exact readable_unary (ih hproper.1 (Nat.le_of_succ_le hheight)) hproper hheight
  | binary op left right hleft hright =>
    obtain ⟨hbelowLeft, hbelowRight⟩ := Nat.max_le.mp (Nat.le_of_succ_le hheight)
    exact readable_binary (hleft hproper.1 hbelowLeft) (hright hproper.2.1 hbelowRight) hproper hheight
  | conditional test positive negative htest hpositive hnegative =>
    obtain ⟨hbelow, hbelowNegative⟩ := Nat.max_le.mp (Nat.le_of_succ_le hheight)
    obtain ⟨hbelowTest, hbelowPositive⟩ := Nat.max_le.mp hbelow
    exact readable_conditional (htest hproper.1 hbelowTest) (hpositive hproper.2.1 hbelowPositive)
      (hnegative hproper.2.2.1 hbelowNegative) hproper hheight
  | parens inner ih => exact readable_parens (ih hproper hheight) hproper

end Written

end FlowCheck.Flow

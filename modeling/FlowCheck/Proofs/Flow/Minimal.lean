import FlowCheck.Proofs.Flow.Alike
import FlowCheck.Proofs.Flow.Pasting
import FlowCheck.Proofs.Flow.Printing

/-! Expressions with no parentheses but those that are required. Of all proper ways to write a tree this one opens the
    fewest levels and has the fewest parentheses. -/

namespace FlowCheck.Flow

/-- The leaves of the tree can be written, its numbers with a point as `spell` says. -/
def Expr.Writable (spell : Binary64 → List Char) : Expr → Prop
  | .int value _ => value < intLimit
  | .float value _ => Spells (spell value) (.float value)
  | .string .. | .bool .. | .null _ => True
  | .name ident _ => Named ident
  | .member target field _ => target.Writable spell ∧ Named field
  | .unary _ operand _ => operand.Writable spell
  | .binary _ left right _ => left.Writable spell ∧ right.Writable spell
  | .conditional test positive negative _ =>
    test.Writable spell ∧ positive.Writable spell ∧ negative.Writable spell

theorem Expr.Alike.writable {r : Location → Location → Prop} {spell : Binary64 → List Char} {e e' : Expr}
    (h : e.Alike r e') : e.Writable spell ↔ e'.Writable spell := by
  induction h with
  | member _ _ ih | unary _ _ ih => simp only [Expr.Writable, ih]
  | binary _ _ _ ih₁ ih₂ => simp only [Expr.Writable, ih₁, ih₂]
  | conditional _ _ _ _ ih₁ ih₂ ih₃ => simp only [Expr.Writable, ih₁, ih₂, ih₃]
  | _ => exact Iff.rfl

namespace Written

/-- Where only what binds as tightly as `k` may stand, in parentheses if it does not. -/
def within (k : Nat) (w : Written) : Written := if k ≤ w.rank then w else .parens w

/-- A tree with no parentheses but those that are required, and with its numbers as `spell` says. -/
def minimal (spell : Binary64 → List Char) : Expr → Written
  | .int value _ => .int value
  | .float value _ => .float (spell value) value
  | .string value _ => .string value
  | .bool value _ => .bool value
  | .null _ => .null
  | .name ident _ => .name ident
  | .member target field _ => .member (within 8 (minimal spell target)) field
  | .unary op operand _ => .unary op (within 7 (minimal spell operand))
  | .binary op left right _ =>
    .binary op (within (op.tier + 1) (minimal spell left)) (within (op.tier + 2) (minimal spell right))
  | .conditional test positive negative _ =>
    .conditional (within 1 (minimal spell test)) (minimal spell positive) (minimal spell negative)

/-- How many pairs of parentheses are written. -/
def pairs : Written → Nat
  | .member target _ => target.pairs
  | .unary _ operand => operand.pairs
  | .binary _ left right => left.pairs + right.pairs
  | .conditional test positive negative => test.pairs + positive.pairs + negative.pairs
  | .parens inner => inner.pairs + 1
  | _ => 0

variable {k : Nat} {w : Written} {spell : Binary64 → List Char} {e : Expr}

section Within

theorem within_of_le (h : k ≤ w.rank) : within k w = w := if_pos h

theorem rank_within (hk : k ≤ 8) (w : Written) : k ≤ (within k w).rank := by
  unfold within
  split
  · assumption
  · exact hk

theorem tree_within (k : Nat) (w : Written) : (within k w).tree = w.tree := by
  unfold within
  split <;> rfl

theorem proper_within (h : w.Proper) : (within k w).Proper := by
  unfold within
  split <;> exact h

theorem within_le (k : Nat) (w : Written) : (within k w).depth ≤ w.depth + 1 ∧ (within k w).pairs ≤ w.pairs + 1 := by
  unfold within
  split
  · exact ⟨Nat.le_succ _, Nat.le_succ _⟩
  · exact ⟨Nat.le_refl _, Nat.le_refl _⟩

end Within

theorem tree_minimal (spell : Binary64 → List Char) (e : Expr) : (minimal spell e).tree.Alike anywhere e := by
  have hwithin {k : Nat} {e' : Expr} (h : (minimal spell e').tree.Alike anywhere e') :
      (within k (minimal spell e')).tree.Alike anywhere e' := by rwa [tree_within]
  induction e with
  | int | float | string | bool | null | name => constructor; trivial
  | member target field loc ih => exact .member (hwithin ih) trivial
  | unary op operand loc ih => exact .unary (hwithin ih) trivial
  | binary op left right loc ihl ihr => exact .binary (hwithin ihl) (hwithin ihr) trivial
  | conditional test positive negative loc iht ihp ihn => exact .conditional (hwithin iht) ihp ihn trivial

theorem minimal_of_alike {r : Location → Location → Prop} {e' : Expr} (h : e.Alike r e') :
    minimal spell e = minimal spell e' := by
  induction h with
  | member _ _ ih | unary _ _ ih => simp only [minimal, ih]
  | binary _ _ _ ih₁ ih₂ => simp only [minimal, ih₁, ih₂]
  | conditional _ _ _ _ ih₁ ih₂ ih₃ => simp only [minimal, ih₁, ih₂, ih₃]
  | _ => rfl

theorem proper_minimal (h : e.Writable spell) : (minimal spell e).Proper := by
  induction e with
  | int | float | string | bool | null | name => exact h
  | member target field loc ih => exact ⟨proper_within (ih h.1), h.2, rank_within (by decide) _⟩
  | unary op operand loc ih => exact ⟨proper_within (ih h), rank_within (by decide) _⟩
  | binary op left right loc ihl ihr =>
    have hlt := op.tier_lt
    exact ⟨proper_within (ihl h.1), proper_within (ihr h.2), rank_within (by omega) _, rank_within (by omega) _⟩
  | conditional test positive negative loc iht ihp ihn =>
    exact ⟨proper_within (iht h.1), ihp h.2.1, ihn h.2.2, rank_within (by decide) _⟩

/-- No proper way to write a tree opens fewer levels or has fewer parentheses: where a proper one has none, none are
required, and one pair is all that a place ever asks for. -/
theorem minimal_le (spell : Binary64 → List Char) (h : w.Proper) (hk : k ≤ w.rank) :
    (within k (minimal spell w.tree)).depth ≤ w.depth ∧ (within k (minimal spell w.tree)).pairs ≤ w.pairs := by
  have hmax {a b c d : Nat} (h : a ≤ c) (h' : b ≤ d) : max a b ≤ max c d := by omega
  induction w generalizing k with
  | int | float | string | bool | null | name =>
    rw [within_of_le (by exact hk)]
    exact ⟨Nat.le_refl _, Nat.le_refl _⟩
  | member target field ih =>
    rw [within_of_le (by exact hk)]
    exact ih h.1 h.2.2
  | unary op operand ih =>
    obtain ⟨hdepth, hpairs⟩ := ih h.1 h.2
    rw [within_of_le (by exact hk)]
    exact ⟨Nat.succ_le_succ hdepth, hpairs⟩
  | binary op left right ihl ihr =>
    obtain ⟨hleft, hright, hrankLeft, hrankRight⟩ := h
    obtain ⟨hdepthLeft, hpairsLeft⟩ := ihl hleft hrankLeft
    obtain ⟨hdepthRight, hpairsRight⟩ := ihr hright hrankRight
    rw [within_of_le (by exact hk)]
    exact ⟨hmax hdepthLeft hdepthRight, Nat.add_le_add hpairsLeft hpairsRight⟩
  | conditional test positive negative iht ihp ihn =>
    obtain ⟨htest, hpositive, hnegative, hrank⟩ := h
    obtain ⟨hdepthTest, hpairsTest⟩ := iht htest hrank
    obtain ⟨hdepthPositive, hpairsPositive⟩ := ihp hpositive (Nat.zero_le _)
    obtain ⟨hdepthNegative, hpairsNegative⟩ := ihn hnegative (Nat.zero_le _)
    rw [within_of_le (by exact hk)]
    exact ⟨hmax hdepthTest (Nat.succ_le_succ (hmax hdepthPositive hdepthNegative)),
      Nat.add_le_add (Nat.add_le_add hpairsTest hpairsPositive) hpairsNegative⟩
  | parens inner ih =>
    have ⟨hdepth, hpairs⟩ := ih h (Nat.zero_le inner.rank)
    obtain ⟨hdepth', hpairs'⟩ := within_le k (minimal spell inner.tree)
    exact ⟨hdepth'.trans (Nat.succ_le_succ hdepth), hpairs'.trans (Nat.succ_le_succ hpairs)⟩

/-- What is written properly has leaves that can be written. -/
theorem writable_tree (h : w.Proper)
    (hspell : ∀ text value, Spells text (.float value) → Spells (spell value) (.float value)) :
    w.tree.Writable spell := by
  induction w with
  | int | string | bool | null | name => exact h
  | float text value => exact hspell text value h
  | member target field ih => exact ⟨ih h.1, h.2.1⟩
  | unary op operand ih => exact ih h.1
  | binary op left right ihl ihr => exact ⟨ihl h.1, ihr h.2.1⟩
  | conditional test positive negative iht ihp ihn => exact ⟨iht h.1, ihp h.2.1, ihn h.2.2.1⟩
  | parens inner ih => exact ih h

end Written

end FlowCheck.Flow

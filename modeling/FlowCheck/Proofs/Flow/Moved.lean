import FlowCheck.Proofs.Flow.Content
import FlowCheck.Proofs.Flow.Findings
import FlowCheck.Proofs.Flow.Rows

/-! The same item on two lines. The two lines may have another label, another name of the item and another line
    behind them. Behind the name the same is read at places that differ by the line and by a number of columns. So
    the checker finds the same problems, in the same order. -/

namespace FlowCheck.Flow

open FlowCheck.Text FlowCheck.Flow.Parser

/-- Places at the same distance behind two places, each on the line of its place. -/
def Shifted (a b loc loc' : Location) : Prop :=
  ∃ n, loc = ⟨a.line, a.column + n⟩ ∧ loc' = ⟨b.line, b.column + n⟩

theorem Shifted.start (a b : Location) : Shifted a b a b := ⟨0, rfl, rfl⟩

theorem Shifted.advance {a b loc loc' : Location} (h : Shifted a b loc loc') {text : List Char} (hflat : '\n' ∉ text) :
    Shifted a b (loc.advance text) (loc'.advance text) := by
  obtain ⟨n, rfl, rfl⟩ := h
  refine ⟨n + text.length, ?_, ?_⟩ <;> rw [Location.advance_flat _ hflat, Nat.add_assoc]

/-- Shifted problems are in the same order. -/
theorem SameProblem.le_eq {a b : Location} {d e d' e' : Diagnostic} (hd : SameProblem (Shifted a b) d d')
    (he : SameProblem (Shifted a b) e e') : d.le e = d'.le e' := by
  obtain ⟨p, _, _, ⟨n, rfl, rfl⟩, rfl, rfl⟩ := hd
  obtain ⟨q, _, _, ⟨m, rfl, rfl⟩, rfl, rfl⟩ := he
  rw [Bool.eq_iff_iff]
  simp [Diagnostic.le, Problem.located, Location.le]

/-- Without a line break the tokens of some lexemes stand at the same distances wherever the lexemes start. -/
theorem aligned_placed {A : Alignment} {a b : Location} (hplace : A.place = Shifted a b) {ls : List Lexeme}
    (hflat : '\n' ∉ Lexeme.width ls) (hkind : ∀ l ∈ ls, l.token ≠ some .endOfFile) {start start' last last' : Location}
    (hstart : Shifted a b start start') (hlast : last.line = start.line) (hlast' : last'.line = start'.line) :
    A.Aligned (Lexeme.placed start (some last) ls ++ A.left) (Lexeme.placed start' (some last') ls ++ A.right) := by
  induction ls generalizing start start' last last' with
  | nil => exact .stop
  | cons l ls ih =>
    have htext : '\n' ∉ l.text := fun h => hflat (List.mem_append_left _ h)
    have hrest : '\n' ∉ Lexeme.width ls := fun h => hflat (List.mem_append_right _ h)
    have hkinds : ∀ l ∈ ls, l.token ≠ some .endOfFile := fun l hl => hkind l (.tail _ hl)
    have hstop := hstart.advance htext
    have hline (loc : Location) : (loc.advance l.text).line = loc.line := by rw [Location.advance_flat _ htext]
    have hanchor {start last : Location} (h : last.line = start.line) : Lexeme.anchor (some last) start = start := by
      rw [Lexeme.anchor, if_neg (Nat.not_lt.mpr h.ge)]
    simp only [Lexeme.placed]
    cases htoken : l.token with
    | none => exact ih hrest hkinds hstop (hlast.trans (hline _).symm) (hlast'.trans (hline _).symm)
    | some kind =>
      refine .cons ⟨rfl, hplace ▸ hstart, ?_⟩ (fun h => hkind l (.head _) (h ▸ htoken)) (ih hrest hkinds hstop rfl rfl)
      rw [hanchor hlast, hanchor hlast', hplace]
      exact hstart

namespace Row

/-- The line has an item of this name, and this text behind the name. -/
structure Calls (r : Row) (name : String) (tail : List Char) : Prop where
  named : Named name
  inner : r.inner = ' ' :: (name.toList ++ '(' :: tail)

/-- Where the name of the item of a line ends. -/
def nameEnd (k : Nat) (r : Row) (name : String) : Location := ((r.start k).advance [' ']).advance name.toList

variable {k k' : Nat} {r r' : Row} {name name' : String} {tail : List Char} {final final' : Bool}

namespace Calls

theorem flat (h : r.Calls name tail) : '\n' ∉ ' ' :: (name.toList ++ '(' :: tail) := h.inner ▸ r.flat

/-- The tokens of the line: the name, and what stands behind it. -/
theorem tokens_eq (h : r.Calls name tail) : ∃ t : Token, t.kind = .identifier name ∧
    r.tokens k = t :: Lexeme.placed (r.nameEnd k name) (some (r.nameEnd k name)) (Lexeme.all ('(' :: tail)) := by
  have hspace : Lexeme.all (' ' :: (name.toList ++ '(' :: tail)) =
      ⟨[' '], none, []⟩ :: Lexeme.all (name.toList ++ '(' :: tail) := by
    obtain ⟨c, rest, hname, hblank, -⟩ := h.named.start
    rw [hname, List.cons_append, Lexeme.all_cons]
    simp [Lexeme.next, hblank, show Text.isBlank ' ' = true from rfl]
  rw [tokens, h.inner, hspace, Lexeme.all_name h.named (by decide)]
  exact ⟨_, rfl, rfl⟩

end Calls

theorem inert_ahead : (current [r.ahead k final]).kind.Inert := by
  cases final <;> simp [current, ahead, TokenKind.Inert]

/-- Two lines side by side, up to where reading stops on each. -/
def sideBySide (a b : Location) (k k' : Nat) (r r' : Row) (final final' : Bool) : Alignment where
  place := Shifted a b
  fault _ _ := True
  left := [r.ahead k final]
  right := [r'.ahead k' final']
  located _ _ _ := trivial
  left_inert := inert_ahead
  right_inert := inert_ahead
  missing _ _ := trivial
  invalid := trivial

/-- The checker finds the same on both lines, at shifted places. -/
theorem semantic_moved (h : r.Calls name tail) (h' : r'.Calls name' tail) (table : ExportTable) :
    List.Forall₂ (SameProblem (Shifted (r.nameEnd k name) (r'.nameEnd k' name')))
      (r.semantic table k final) (r'.semantic table k' final') := by
  obtain ⟨t, ht, htokens⟩ := h.tokens_eq (k := k)
  obtain ⟨t', ht', htokens'⟩ := h'.tokens_eq (k := k')
  -- Only the names differ in more than the place, and behind them the two lines are aligned token by token.
  let A := sideBySide (r.nameEnd k name) (r'.nameEnd k' name') k k' r r' final final'
  have hl : startsItem (current A.left) = true := startsItem_of_ahead (r.ahead_self k final)
  have hr : startsItem (current A.right) = true := startsItem_of_ahead (r'.ahead_self k' final')
  have hflat : '\n' ∉ Lexeme.width (Lexeme.all ('(' :: tail)) := by
    rw [Lexeme.width_all]
    exact fun hm => h.flat (.tail _ (List.mem_append_right _ hm))
  let behind (r : Row) (k : Nat) (name : String) : List Token :=
    Lexeme.placed (r.nameEnd k name) (some (r.nameEnd k name)) (Lexeme.all ('(' :: tail))
  have haligned : A.Aligned (behind r k name ++ A.left) (behind r' k' name' ++ A.right) :=
    aligned_placed rfl hflat (fun l hl hl' => (Lexeme.all_kind hl hl').1 rfl) (.start _ _) rfl rfl
  have hhead (r : Row) (k : Nat) : (r.head k none).kind = .symbol .keywordFn := rfl
  obtain ⟨hfirst, hrest⟩ := Alignment.round_named hl hr (hhead r k) (hhead r' k') ht ht' haligned
  have hlater := (Alignment.itemsBefore_aligned hl hr hrest).1
  refine checked_alike table ?_
  have hread (k : Nat) (final : Bool) (r : Row) : (r.read k final).1 = _ := congrArg Prod.fst
    (itemsBefore_cons (List.suffix_append (r.tokens k) [r.ahead k final]) (r.head k none))
  rw [hread, hread, htokens, htokens']
  exact List.rel_append hfirst (hlater.imp fun _ _ => Item.Alike.behind)

end Row

end FlowCheck.Flow

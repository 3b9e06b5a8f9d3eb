import FlowCheck.Proofs.Flow.Alignment

/-! Reading items in rounds. A round reads one item, or skips what cannot be read as one, and ends where the
    next item can start. So the items of a list of tokens that is cut where an item can start are those of its
    two parts, and on aligned lists the rounds give alike items and related problems. -/

namespace FlowCheck.Flow

open FlowCheck.Flow.Parser

/-- One round of reading at the token `t`: the item that was read, the problem that was met, and what is left. -/
def round (t : Token) (ts : List Token) : List Item × List Diagnostic × List Token :=
  if t.kind = .symbol .keywordFn then
    match item t.start ts with
    | .ok read => ([read.value], [], read.rest)
    | .error d => ([], [d], skipToItem ts)
  else ([], [(Problem.expected Symbol.keywordFn.text).located t.anchor], skipToItem ts)

theorem round_length_le (t : Token) (ts : List Token) : (round t ts).2.2.length ≤ ts.length := by
  unfold round
  split
  · split
    · rename_i read _
      exact read.suffix.length_le
    · exact skipToItem_length_le ts
  · exact skipToItem_length_le ts

/-- Of an `fn` reading sees only where it starts. -/
theorem round_fn (t t' : Token) (ht : t.kind = .symbol .keywordFn) (ht' : t'.kind = .symbol .keywordFn)
    (hstart : t.start = t'.start) (ts : List Token) : round t ts = round t' ts := by
  simp only [round, ht, ht', hstart, ↓reduceIte]

/-- A round at an `fn` that meets no problem reads an item. -/
theorem round_item {t : Token} (ht : t.kind = .symbol .keywordFn) {ts : List Token} (h : (round t ts).2.1 = []) :
    ∃ i, Reads (item t.start) ts i (round t ts).2.2 := by
  simp only [round, ht, ↓reduceIte] at h ⊢
  split at h
  · rename_i read hread
    exact ⟨read.value, .of_eq hread⟩
  · cases h

theorem itemsOf_cons {t : Token} (ht : t.kind ≠ .endOfFile) (ts : List Token) :
    itemsOf (t :: ts) = ((round t ts).1 ++ (itemsOf (round t ts).2.2).1,
      (round t ts).2.1 ++ (itemsOf (round t ts).2.2).2) := by
  rw [itemsOf, round]
  simp only [ht, ↓reduceIte]
  split
  · cases item t.start ts <;> rfl
  · rfl

theorem itemsOf_end {last : Token} (h : last.kind = .endOfFile) : itemsOf [last] = ([], []) := by
  rw [itemsOf]
  simp only [h, ↓reduceIte]

theorem end_of_itemsOf {ts : List Token} (h : itemsOf ts = ([], [])) : (current ts).kind = .endOfFile := by
  cases ts with
  | nil => rfl
  | cons t ts =>
    by_contra ht
    rw [itemsOf_cons (show t.kind ≠ .endOfFile from ht), Prod.mk.injEq, List.append_eq_nil_iff, List.append_eq_nil_iff] at h
    obtain ⟨⟨hitems, -⟩, hproblems, -⟩ := h
    unfold round at hitems hproblems
    split at hproblems
    · rename_i hfn
      simp only [hfn, ↓reduceIte] at hitems
      split at hproblems
      · rename_i hread
        simp [hread] at hitems
      · cases hproblems
    · cases hproblems

/-- Of what is just one item without problems nothing is left. -/
theorem item_of_itemsOf {t : Token} (ht : t.kind = .symbol .keywordFn) {ts : List Token} {i : Item}
    (h : itemsOf (t :: ts) = ([i], [])) : ∃ rest, Reads (item t.start) ts i rest ∧ (current rest).kind = .endOfFile := by
  rw [itemsOf_cons (by simp [ht]), Prod.mk.injEq, List.append_eq_nil_iff] at h
  obtain ⟨hitems, hfirst, hlater⟩ := h
  obtain ⟨j, hj⟩ := round_item ht hfirst
  have hround {rest : List Token} (hj : Reads (item t.start) ts j rest) : (round t ts).1 = [j] := by
    obtain ⟨_, hread⟩ := hj
    simp only [round, ht, ↓reduceIte, hread]
  rw [hround hj, List.singleton_append, List.cons_eq_cons] at hitems
  obtain ⟨rfl, hrest⟩ := hitems
  exact ⟨_, hj, end_of_itemsOf (Prod.ext hrest hlater)⟩

/-- The items and problems of the rounds that start before the last `left` tokens. -/
def itemsBefore (left : Nat) : List Token → List Item × List Diagnostic
  | [] => ([], [])
  | t :: ts =>
    if ts.length < left then ([], [])
    else
      have := round_length_le t ts
      let later := itemsBefore left (round t ts).2.2
      ((round t ts).1 ++ later.1, (round t ts).2.1 ++ later.2)
termination_by tokens => tokens.length
decreasing_by simp only [List.length_cons]; omega

theorem itemsBefore_length (ts : List Token) : itemsBefore ts.length ts = ([], []) := by
  cases ts with
  | nil => rw [itemsBefore]
  | cons t ts => simp only [itemsBefore, List.length_cons, Nat.lt_succ_self, ↓reduceIte]

theorem itemsBefore_cons {last ts : List Token} (h : last <:+ ts) (t : Token) :
    itemsBefore last.length (t :: ts) = ((round t ts).1 ++ (itemsBefore last.length (round t ts).2.2).1,
      (round t ts).2.1 ++ (itemsBefore last.length (round t ts).2.2).2) := by
  rw [itemsBefore]
  simp only [Nat.not_lt.mpr h.length_le, ↓reduceIte]

namespace Alignment

open Border

variable {A : Alignment}

theorem skipToItem_stop {ts : List Token} (h : startsItem (current ts) = true) : skipToItem ts = ts := by
  cases ts with
  | nil => rfl
  | cons t ts =>
    have ht : startsItem t = true := h
    simp only [skipToItem, List.dropWhile_cons, ht, Bool.not_true, Bool.false_eq_true, ↓reduceIte]

theorem startsItem_ne {t : Token} (h : startsItem t = true) {s : Symbol} (hs : s ≠ .keywordFn) :
    t.kind ≠ .symbol s := by
  intro ht
  simp [startsItem, ht, hs] at h

section Rounds

variable (hl : startsItem (current A.left) = true) (hr : startsItem (current A.right) = true)
include hl hr

theorem aligned_skipToItem {ts ts' : List Token} (h : A.Aligned ts ts') :
    A.Aligned (skipToItem ts) (skipToItem ts') := by
  induction h with
  | stop =>
    rw [skipToItem_stop hl, skipToItem_stop hr]
    exact .stop
  | @cons t t' ts ts' ht hkind h ih =>
    have hs : startsItem t' = startsItem t := by simp only [startsItem, ht.kind]
    simp only [skipToItem, List.dropWhile_cons, hs] at ih ⊢
    cases startsItem t
    · exact ih
    · exact .cons ht hkind h

/-- On aligned lists a round gives alike items and related problems, and leaves aligned lists. -/
theorem round_aligned {t t' : Token} {ts ts' : List Token} (ht : A.SameToken t t') (h : A.Aligned ts ts') :
    List.Forall₂ (Item.Alike A.place) (round t ts).1 (round t' ts').1 ∧
      List.Forall₂ A.fault (round t ts).2.1 (round t' ts').2.1 ∧ A.Aligned (round t ts).2.2 (round t' ts').2.2 := by
  have hskip := aligned_skipToItem hl hr h
  unfold round
  rw [← ht.kind]
  split
  · have hitem := respects_item ht.start ⟨startsItem_ne hl nofun, startsItem_ne hr nofun⟩
      ⟨startsItem_ne hl nofun, startsItem_ne hr nofun⟩ h
    cases hl : item t.start ts <;> cases hr : item t'.start ts' <;> rw [hl, hr] at hitem
    · exact ⟨.nil, .cons hitem .nil, hskip⟩
    · exact hitem.elim
    · exact hitem.elim
    · exact ⟨.cons hitem.1 .nil, .nil, hitem.2⟩
  · exact ⟨.nil, .cons (A.located _ rfl ht.anchor) .nil, hskip⟩

/-- A round at an `fn` before a name gives items that are alike behind the name. -/
theorem round_named {t t' u u' : Token} {name name' : String} (ht : t.kind = .symbol .keywordFn)
    (ht' : t'.kind = .symbol .keywordFn) (hu : u.kind = .identifier name) (hu' : u'.kind = .identifier name')
    {ts ts' : List Token} (h : A.Aligned ts ts') :
    List.Forall₂ (Item.AlikeBehind A.place) (round t (u :: ts)).1 (round t' (u' :: ts')).1 ∧
      A.Aligned (round t (u :: ts)).2.2 (round t' (u' :: ts')).2.2 := by
  have hskip {u : Token} {name : String} (hu : u.kind = .identifier name) (ts : List Token) :
      skipToItem (u :: ts) = skipToItem ts := by
    simp [skipToItem, startsItem, hu]
  have hitem := respects_itemBehind name name' t.start t'.start ⟨startsItem_ne hl nofun, startsItem_ne hr nofun⟩
    ⟨startsItem_ne hl nofun, startsItem_ne hr nofun⟩ h
  have hrest := aligned_skipToItem hl hr h
  simp only [round, ht, ht', ↓reduceIte, item_eq_behind, bind_apply, identifier_cons_of_eq hu,
    identifier_cons_of_eq hu', hskip hu, hskip hu']
  cases hb : itemBehind name t.start ts <;> cases hb' : itemBehind name' t'.start ts' <;> rw [hb, hb'] at hitem
  · exact ⟨.nil, hrest⟩
  · exact hitem.elim
  · exact hitem.elim
  · exact ⟨.cons hitem.1 .nil, hitem.2⟩

/-- What holds where reading stops, and of aligned lists if it holds of what a round leaves of them, holds of all. -/
theorem rounds_induction {P : List Token → List Token → Prop} {ts ts' : List Token} (h : A.Aligned ts ts')
    (stop : P A.left A.right)
    (next : ∀ {t t' ts ts'}, A.SameToken t t' → t.kind ≠ .endOfFile → A.Aligned ts ts' →
      P (round t ts).2.2 (round t' ts').2.2 → P (t :: ts) (t' :: ts')) : P ts ts' := by
  induction hn : ts.length using Nat.strongRecOn generalizing ts ts' with
  | _ n ih =>
    cases h with
    | stop => exact stop
    | @cons t t' ts ts' ht hkind h =>
      obtain ⟨-, -, hrest⟩ := round_aligned hl hr ht h
      have hlt : (round t ts).2.2.length < n := by
        have := round_length_le t ts
        simp only [List.length_cons] at hn
        omega
      exact next ht hkind h (ih _ hlt hrest rfl)

/-- On aligned lists reading gives alike items and related problems up to where it stops. -/
theorem itemsBefore_aligned {ts ts' : List Token} (h : A.Aligned ts ts') :
    List.Forall₂ (Item.Alike A.place) (itemsBefore A.left.length ts).1 (itemsBefore A.right.length ts').1 ∧
      List.Forall₂ A.fault (itemsBefore A.left.length ts).2 (itemsBefore A.right.length ts').2 := by
  refine rounds_induction hl hr (P := fun ts ts' =>
    List.Forall₂ (Item.Alike A.place) (itemsBefore A.left.length ts).1 (itemsBefore A.right.length ts').1 ∧
      List.Forall₂ A.fault (itemsBefore A.left.length ts).2 (itemsBefore A.right.length ts').2) h ?_ ?_
  · rw [itemsBefore_length, itemsBefore_length]
    exact ⟨.nil, .nil⟩
  · intro t t' ts ts' ht _ h ⟨hitems', hproblems'⟩
    obtain ⟨hitems, hproblems, -⟩ := round_aligned hl hr ht h
    rw [itemsBefore_cons h.suffix, itemsBefore_cons h.suffix_right]
    exact ⟨List.rel_append hitems hitems', List.rel_append hproblems hproblems'⟩

/-- Reading up to where an item can start, and then the rest, is reading all. -/
theorem itemsOf_eq_before {ts ts' : List Token} (h : A.Aligned ts ts') :
    itemsOf ts = ((itemsBefore A.left.length ts).1 ++ (itemsOf A.left).1,
      (itemsBefore A.left.length ts).2 ++ (itemsOf A.left).2) := by
  refine rounds_induction hl hr (P := fun ts _ => itemsOf ts = ((itemsBefore A.left.length ts).1 ++ (itemsOf A.left).1,
    (itemsBefore A.left.length ts).2 ++ (itemsOf A.left).2)) h ?_ ?_
  · rw [itemsBefore_length]
    rfl
  · intro t t' ts ts' _ hkind h ih
    rw [itemsBefore_cons h.suffix, itemsOf_cons hkind, ih]
    simp only [List.append_assoc]

end Rounds

end Alignment

end FlowCheck.Flow

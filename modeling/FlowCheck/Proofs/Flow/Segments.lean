import FlowCheck.Proofs.Flow.Content
import FlowCheck.Proofs.Flow.Items

/-! Reading items segment by segment. The tokens of a text are cut before each `fn`; what stands before the first one is
    a segment of its own. Reading never goes past the end of a segment, whether it succeeds or not, and what a segment
    gives is decided by its tokens and the token behind it. -/

namespace FlowCheck.Flow

open FlowCheck.Flow.Parser

/-! ### Where an item can start -/

theorem startsItem_iff {t : Token} : startsItem t = true ↔ t.kind = .symbol .keywordFn ∨ t.kind = .endOfFile := by
  simp [startsItem]

theorem inert_of_startsItem {t : Token} (h : startsItem t = true) : t.kind.Inert :=
  (startsItem_iff.mp h).elim .inl fun h => .inr (.inr (.inr h))

theorem ne_of_not_startsItem {t : Token} (h : startsItem t = false) :
    t.kind ≠ .symbol .keywordFn ∧ t.kind ≠ .endOfFile := by
  rw [← not_or, ← startsItem_iff, h]
  exact Bool.false_ne_true

theorem startsItem_skipToItem (ts : List Token) : startsItem (current (skipToItem ts)) = true := by
  induction ts with
  | nil => rfl
  | cons t ts ih =>
    rw [skipToItem, List.dropWhile_cons]
    cases ht : startsItem t
    · exact ih
    · exact ht

theorem skipToItem_cons {t : Token} (h : startsItem t = true) (ts : List Token) : skipToItem (t :: ts) = t :: ts :=
  Alignment.skipToItem_stop (show startsItem (current (t :: ts)) = true from h)

theorem skipToItem_append {ts : List Token} (h : ∀ t ∈ ts, startsItem t = false) {next : Token}
    (hnext : startsItem next = true) : skipToItem (ts ++ [next]) = [next] := by
  rw [skipToItem, List.dropWhile_append_of_pos fun t ht => by simp [h t ht]]
  exact skipToItem_cons hnext []

/-! ### Anchors -/

/-- A token without its anchor, which depends on the token before it. -/
def Token.extent (t : Token) : TokenKind × Location × Location := (t.kind, t.start, t.stop)

/-- The anchors of some tokens are those that their own places give them; the token before them ended at `last`. -/
inductive Anchored : Option Location → List Token → Prop where
  | nil {last} : Anchored last []
  | cons {last t ts} : t.anchor = Lexeme.anchor last t.start → Anchored (some t.stop) ts → Anchored last (t :: ts)

theorem anchored_tokens (start : Location) (last : Option Location) (ls : List Lexeme) :
    Anchored last (Lexeme.tokens start last ls) := by
  induction ls generalizing start last with
  | nil => exact .cons rfl .nil
  | cons l ls ih =>
    rw [Lexeme.tokens]
    cases l.token
    · exact ih _ _
    · exact .cons rfl (ih _ _)

namespace Anchored

variable {last : Option Location} {ts ts' more : List Token}

theorem front (h : Anchored last (ts ++ more)) : Anchored last ts := by
  induction ts generalizing last with
  | nil => exact .nil
  | cons t ts ih => cases h with | cons ht h => exact .cons ht (ih h)

theorem behind (h : Anchored last (ts ++ more)) : ∃ last, Anchored last more := by
  induction ts generalizing last with
  | nil => exact ⟨last, h⟩
  | cons t ts ih => cases h with | cons _ h => exact ih h

theorem eq_of_extent (h : Anchored last ts) (h' : Anchored last ts')
    (hextent : ts.map Token.extent = ts'.map Token.extent) : ts = ts' := by
  induction h generalizing ts' with
  | nil => exact (List.map_eq_nil_iff.mp hextent.symm).symm
  | @cons last t ts ht _ ih =>
    cases h' with
    | nil => cases hextent
    | @cons _ t' ts' ht' h' =>
      simp only [List.map_cons, List.cons_eq_cons, Token.extent, Prod.mk.injEq] at hextent
      obtain ⟨⟨hkind, hstart, hstop⟩, hextent⟩ := hextent
      have hanchor : t.anchor = t'.anchor := by rw [ht, ht', hstart]
      have htoken : t = t' := by
        cases t
        cases t'
        exact (Token.mk.injEq ..).mpr ⟨hkind, hstart, hstop, hanchor⟩
      rw [htoken, ih (hstop ▸ h') hextent]

end Anchored

theorem anchored_tokenize (source : String) : Anchored none (tokenize source).tokens := anchored_tokens _ _ _

/-! ### Segments -/

/-- Some tokens of which only the first may be an `fn`, and the token behind them. -/
structure Segment where
  first : Token
  later : List Token
  next : Token
  first_ne : first.kind ≠ .endOfFile
  inner : ∀ t ∈ later, startsItem t = false
  ends : startsItem next = true

namespace Segment

/-- The tokens of a segment. -/
def tokens (s : Segment) : List Token := s.first :: s.later

/-- The segment at the front of some tokens. -/
def front (t : Token) (ts : List Token) (h : t.kind ≠ .endOfFile) : Segment where
  first := t
  later := ts.takeWhile (!startsItem ·)
  next := current (skipToItem ts)
  first_ne := h
  inner u hu := by simpa using List.mem_takeWhile_imp hu
  ends := startsItem_skipToItem ts

theorem tokens_front {t : Token} {ts : List Token} (h : t.kind ≠ .endOfFile) :
    (front t ts h).tokens ++ skipToItem ts = t :: ts :=
  congrArg (t :: ·) List.takeWhile_append_dropWhile

/-- The segments of some tokens up to the end of the file, cut before each `fn`. -/
def all : List Token → List Segment
  | [] => []
  | t :: ts =>
    if h : t.kind = .endOfFile then []
    else
      have := skipToItem_length_le ts
      front t ts h :: all (skipToItem ts)
termination_by tokens => tokens.length
decreasing_by simp only [List.length_cons]; omega

/-- What a segment gives: the items and problems of the rounds of reading that start in it. -/
def read (s : Segment) : List Item × List Diagnostic := itemsBefore [s.next].length (s.tokens ++ [s.next])

/-- Some tokens cut into segments. Each segment goes up to the token behind it, and the last one up to the end of the
file. -/
inductive Cut : List Token → List Segment → Prop where
  | last {t} : t.kind = .endOfFile → Cut [t] []
  | cons {s rest segments} : rest.head? = some s.next → Cut rest segments → Cut (s.tokens ++ rest) (s :: segments)

theorem inner_ne (s : Segment) : ∀ t ∈ s.tokens, t.kind ≠ .endOfFile :=
  List.forall_mem_cons.mpr ⟨s.first_ne, fun t ht => (ne_of_not_startsItem (s.inner t ht)).2⟩

/-! ### The cut -/

/-- Some tokens with the end of the file as the last, and nowhere else. -/
inductive Ended : List Token → Prop where
  | last {t} : t.kind = .endOfFile → Ended [t]
  | cons {t ts} : t.kind ≠ .endOfFile → Ended ts → Ended (t :: ts)

theorem Ended.append {w : List Token} {last : Token} (hw : ∀ t ∈ w, t.kind ≠ .endOfFile)
    (hlast : last.kind = .endOfFile) : Ended (w ++ [last]) := by
  induction w with
  | nil => exact .last hlast
  | cons t w ih =>
    obtain ⟨ht, hw⟩ := List.forall_mem_cons.mp hw
    exact .cons ht (ih hw)

/-- The tokens of a text have the end of the file as the last. -/
theorem ended_tokenize (source : String) : Ended (tokenize source).tokens := by
  obtain ⟨w, last, htokens, hlast, hkinds⟩ := tokenize_tokens source
  rw [htokens]
  refine .append (fun t ht hend => ?_) hlast
  exact endOfFile_notMem source.toList (hkinds ▸ hend ▸ List.mem_map_of_mem ht)

theorem Ended.skipToItem {ts : List Token} (h : Ended ts) :
    Ended (Flow.skipToItem ts) ∧ (Flow.skipToItem ts).head? = some (current (Flow.skipToItem ts)) := by
  induction h with
  | last ht =>
    rw [skipToItem_cons (startsItem_iff.mpr (.inr ht))]
    exact ⟨.last ht, rfl⟩
  | @cons t ts ht h ih =>
    cases hs : startsItem t
    · have hskip : Flow.skipToItem (t :: ts) = Flow.skipToItem ts := by simp [Flow.skipToItem, hs]
      rw [hskip]
      exact ih
    · rw [skipToItem_cons hs]
      exact ⟨.cons ht h, rfl⟩

theorem Ended.cut {ts : List Token} (h : Ended ts) : Cut ts (all ts) := by
  fun_induction all ts with
  | case1 => cases h
  | case2 t ts hend =>
    cases h with
    | last => exact .last hend
    | cons hne => exact absurd hend hne
  | case3 t ts hne _ ih =>
    cases h with
    | last hend => exact absurd hend hne
    | cons _ h =>
      rw [← tokens_front hne]
      exact .cons h.skipToItem.2 (ih h.skipToItem.1)

/-- Each segment but the first starts with `fn`. -/
theorem Cut.starts {ts : List Token} {segments : List Segment} (h : Cut ts segments) :
    ∀ s ∈ segments.tail, s.first.kind = .symbol .keywordFn := by
  -- The token behind a segment is the first one of the next segment.
  have behind {rest : List Token} {next : Token} {more : List Segment} (hnext : startsItem next = true)
      (hfront : rest.head? = some next) (h : Cut rest more) : ∀ s ∈ more.head?, s.first.kind = .symbol .keywordFn := by
    rintro s hs
    cases h with
    | last => cases hs
    | @cons s' =>
      obtain rfl : s' = s := Option.some.inj hs
      obtain rfl : s'.first = next := Option.some.inj hfront
      exact (startsItem_iff.mp hnext).resolve_right s'.first_ne
  induction h with
  | last => exact List.forall_mem_nil _
  | @cons s rest segments hfront h ih =>
    have hhead := behind s.ends hfront h
    cases segments with
    | nil => exact List.forall_mem_nil _
    | cons s' more => exact List.forall_mem_cons.mpr ⟨hhead s' rfl, ih⟩

/-! ### Reading one segment -/

/-- What is wrong with tokens that stand where an item should start. -/
def missingFn (t : Token) : Diagnostic := ⟨.error, "FX1003", "Syntax error, 'fn' expected", some t.anchor⟩

theorem located_missingFn (t : Token) : (Problem.expected Symbol.keywordFn.text).located t.anchor = missingFn t := rfl

/-- How a segment is read. One that starts with `fn` is an item, or an item before tokens that are one problem, or one
problem; any other segment is one problem. -/
inductive Handled (s : Segment) : Prop where
  | item {i} : s.first.kind = .symbol .keywordFn → Reads (Flow.item s.first.start) (s.later ++ [s.next]) i [s.next] →
    s.read = ([i], []) → Handled s
  | itemBefore {i t ts} : s.first.kind = .symbol .keywordFn →
    Reads (Flow.item s.first.start) (s.later ++ [s.next]) i (t :: ts ++ [s.next]) →
    s.read = ([i], [missingFn t]) → Handled s
  | broken {d} : s.first.kind = .symbol .keywordFn → Flow.item s.first.start (s.later ++ [s.next]) = .error d →
    s.read = ([], [d]) → Handled s
  | stray : s.first.kind ≠ .symbol .keywordFn → s.read = ([], [missingFn s.first]) → Handled s

section Read

variable {t next : Token} {ts : List Token}

theorem itemsBefore_round (t next : Token) (ts : List Token) : itemsBefore 1 (t :: ts ++ [next]) =
    ((round t (ts ++ [next])).1 ++ (itemsBefore 1 (round t (ts ++ [next])).2.2).1,
      (round t (ts ++ [next])).2.1 ++ (itemsBefore 1 (round t (ts ++ [next])).2.2).2) :=
  itemsBefore_cons (List.suffix_append ts [next]) t

theorem itemsBefore_stop (next : Token) : itemsBefore 1 [next] = ([], []) := itemsBefore_length [next]

variable (hts : ∀ t ∈ ts, startsItem t = false) (hnext : startsItem next = true)
include hts hnext

/-- No item goes past the end of a segment. -/
theorem reads_item_before {loc : Location} {i : Item} {rest : List Token}
    (h : Reads (Flow.item loc) (ts ++ [next]) i rest) : ∃ left, rest = left ++ [next] ∧ ∀ t ∈ left, t ∈ ts := by
  have hinert : (current [next]).kind.Inert := inert_of_startsItem hnext
  have harrow : next.kind ≠ .symbol .fatArrow := Alignment.startsItem_ne hnext nofun
  have hend : next.kind ≠ .symbol .semicolon := Alignment.startsItem_ne hnext nofun
  let A : Alignment := .same [next] [next] hinert rfl rfl
  have haligned : A.Aligned (ts ++ [next]) (ts ++ [next]) :=
    .append fun t ht => ⟨⟨rfl, rfl, rfl⟩, (ne_of_not_startsItem (hts t ht)).2⟩
  have hitem : A.Respects (Item.Alike A.place) (Flow.item loc) (Flow.item loc) :=
    Alignment.respects_item rfl ⟨harrow, harrow⟩ ⟨hend, hend⟩
  obtain ⟨_, _, -, -, hrest⟩ := hitem.reads haligned h
  obtain ⟨left, rfl⟩ := hrest.suffix
  obtain ⟨front, hfront⟩ := h.suffix
  refine ⟨left, rfl, fun t ht => ?_⟩
  rw [← List.append_assoc] at hfront
  exact List.append_cancel_right hfront ▸ List.mem_append_right front ht

theorem itemsBefore_stray (ht : t.kind ≠ .symbol .keywordFn) :
    itemsBefore 1 (t :: ts ++ [next]) = ([], [missingFn t]) := by
  have hround : round t (ts ++ [next]) = ([], [missingFn t], [next]) := by
    rw [round, if_neg ht, skipToItem_append hts hnext, located_missingFn]
  rw [itemsBefore_round, hround, itemsBefore_stop]
  rfl

theorem itemsBefore_error (ht : t.kind = .symbol .keywordFn) {d : Diagnostic}
    (h : Flow.item t.start (ts ++ [next]) = .error d) : itemsBefore 1 (t :: ts ++ [next]) = ([], [d]) := by
  have hround : round t (ts ++ [next]) = ([], [d], [next]) := by
    rw [round, if_pos ht, h, skipToItem_append hts hnext]
  rw [itemsBefore_round, hround, itemsBefore_stop]
  rfl

omit hts hnext in
theorem itemsBefore_item (ht : t.kind = .symbol .keywordFn) {i : Item} {rest : List Token}
    (h : Reads (Flow.item t.start) (ts ++ [next]) i rest) :
    itemsBefore 1 (t :: ts ++ [next]) = (i :: (itemsBefore 1 rest).1, (itemsBefore 1 rest).2) := by
  obtain ⟨_, h⟩ := h
  have hround : round t (ts ++ [next]) = ([i], [], rest) := by rw [round, if_pos ht, h]
  rw [itemsBefore_round, hround]
  rfl

end Read

/-- Each segment is read in one of the four ways. -/
theorem handled (s : Segment) : s.Handled := by
  by_cases hfn : s.first.kind = .symbol .keywordFn
  swap
  · exact .stray hfn (itemsBefore_stray s.inner s.ends hfn)
  cases hitem : Flow.item s.first.start (s.later ++ [s.next]) with
  | error d => exact .broken hfn hitem (itemsBefore_error s.inner s.ends hfn hitem)
  | ok found =>
    have hreads := Reads.of_eq hitem
    have hread : s.read = (found.value :: (itemsBefore 1 found.rest).1, (itemsBefore 1 found.rest).2) :=
      itemsBefore_item hfn hreads
    obtain ⟨left, hrest, hleft⟩ := reads_item_before s.inner s.ends hreads
    rw [hrest] at hreads hread
    cases left with
    | nil => exact .item hfn hreads (by rw [hread, List.nil_append, itemsBefore_stop])
    | cons t ts =>
      -- What is left of the segment behind its item has no `fn`.
      obtain ⟨ht, hts⟩ := List.forall_mem_cons.mp fun u hu => s.inner u (hleft u hu)
      refine .itemBefore hfn hreads ?_
      rw [hread, itemsBefore_stray hts s.ends (ne_of_not_startsItem ht).1]

/-! ### Reading all segments -/

/-- What stands behind the token that ends a segment does not matter for what the segment gives. -/
theorem itemsOf_segment (s : Segment) {rest : List Token} (hrest : current rest = s.next) :
    itemsOf (s.tokens ++ rest) = (s.read.1 ++ (itemsOf rest).1, s.read.2 ++ (itemsOf rest).2) := by
  have hstarts : startsItem (current rest) = true := hrest ▸ s.ends
  let A : Alignment := .same rest [s.next] (inert_of_startsItem hstarts) (hrest ▸ rfl) (hrest ▸ rfl)
  have haligned : A.Aligned (s.tokens ++ rest) (s.tokens ++ [s.next]) :=
    .append fun t ht => ⟨⟨rfl, rfl, rfl⟩, s.inner_ne t ht⟩
  have hends : startsItem (current A.right) = true := s.ends
  obtain ⟨hitems, hproblems⟩ := A.itemsBefore_aligned hstarts hends haligned
  have hitems : (itemsBefore rest.length (s.tokens ++ rest)).1 = s.read.1 :=
    List.forall₂_eq_eq_eq ▸ hitems.imp fun _ _ => Item.Alike.eq
  have hproblems : (itemsBefore rest.length (s.tokens ++ rest)).2 = s.read.2 := List.forall₂_eq_eq_eq ▸ hproblems
  rw [← hitems, ← hproblems]
  exact A.itemsOf_eq_before hstarts hends haligned

theorem Cut.itemsOf {ts : List Token} {segments : List Segment} (h : Cut ts segments) :
    Flow.itemsOf ts = (segments.flatMap (·.read.1), segments.flatMap (·.read.2)) := by
  induction h with
  | last ht => exact itemsOf_end ht
  | @cons s rest segments hfront _ ih =>
    have hrest : current rest = s.next := by rw [current, List.headD_eq_head?_getD, hfront, Option.getD_some]
    rw [itemsOf_segment s hrest, ih, List.flatMap_cons, List.flatMap_cons]

/-! ### What a segment depends on -/

/-- The tokens of a segment and the token behind it, without their anchors. -/
def extent (s : Segment) : List (TokenKind × Location × Location) := (s.tokens ++ [s.next]).map Token.extent

/-- All anchors in a segment are given by the segment, but for that of an `fn` at its front. -/
theorem Cut.anchored {ts : List Token} {segments : List Segment} (h : Cut ts segments) {last : Option Location}
    (hanchors : Anchored last ts) : ∀ s ∈ segments, ∃ before, Anchored before (s.tokens ++ [s.next]) ∧
      (s.first.kind ≠ .symbol .keywordFn → before = last) := by
  induction h generalizing last with
  | last => exact List.forall_mem_nil _
  | @cons s rest segments hfront h ih =>
    have hstarts : ∀ s ∈ segments, s.first.kind = .symbol .keywordFn := (Cut.cons hfront h).starts
    obtain ⟨more, rfl⟩ : ∃ more, rest = s.next :: more := List.head?_eq_some_iff.mp hfront
    refine List.forall_mem_cons.mpr ⟨⟨last, ?_, fun _ => rfl⟩, fun s' hs' => ?_⟩
    · rw [List.append_cons] at hanchors
      exact hanchors.front
    · obtain ⟨_, hrest⟩ := hanchors.behind
      obtain ⟨before, hbefore, -⟩ := ih hrest s' hs'
      exact ⟨before, hbefore, fun hfn => absurd (hstarts s' hs') hfn⟩

theorem read_eq_of_extent {s s' : Segment} {last last' : Option Location} (h : Anchored last (s.tokens ++ [s.next]))
    (h' : Anchored last' (s'.tokens ++ [s'.next])) (hlast : s.first.kind ≠ .symbol .keywordFn → last = last')
    (hextent : s.extent = s'.extent) : s.read = s'.read := by
  by_cases hfn : s.first.kind = .symbol .keywordFn
  swap
  · obtain rfl := hlast hfn
    have htokens : s.tokens ++ [s.next] = s'.tokens ++ [s'.next] := h.eq_of_extent h' hextent
    simp only [read, List.length_singleton, htokens]
  simp only [extent, tokens, List.cons_append, List.map_cons, List.cons_eq_cons, Token.extent, Prod.mk.injEq] at hextent
  obtain ⟨⟨hkind, hstart, hstop⟩, hextent⟩ := hextent
  -- The anchor of the `fn` may be another one, but reading does not see it.
  have hbehind : s.later ++ [s.next] = s'.later ++ [s'.next] := by
    cases h with | cons _ h => cases h' with | cons _ h' => exact h.eq_of_extent (hstop ▸ h') hextent
  have hround : round s.first (s.later ++ [s.next]) = round s'.first (s'.later ++ [s'.next]) := by
    rw [hbehind, round_fn _ _ hfn (hkind ▸ hfn) hstart]
  simp only [read, tokens, List.length_singleton, itemsBefore_round, hround]

end Segment

/-- A text is read segment by segment. Its tokens are cut before each `fn`, its items and the problems of their form are
those of the segments in order, each segment is read in one of the four ways, and what it gives is decided by its own
tokens and the token behind it: segments of two texts with the same tokens at the same places give the same. -/
theorem SourceTree.ofText_segments (source : String) :
    let segments := Segment.all (tokenize source).tokens
    Segment.Cut (tokenize source).tokens segments ∧ (∀ s ∈ segments.tail, s.first.kind = .symbol .keywordFn) ∧
      (ofText source).items = segments.flatMap (·.read.1) ∧
      (ofText source).diagnostics = (tokenize source).diagnostics ++ segments.flatMap (·.read.2) ∧
      (∀ s ∈ segments, s.Handled) ∧
      ∀ other : String, ∀ s ∈ segments, ∀ s' ∈ Segment.all (tokenize other).tokens,
        s.extent = s'.extent → s.read = s'.read := by
  intro segments
  have hcut (source : String) : Segment.Cut (tokenize source).tokens (Segment.all (tokenize source).tokens) :=
    (Segment.ended_tokenize source).cut
  have hread : itemsOf (tokenize source).tokens = _ := (hcut source).itemsOf
  refine ⟨hcut source, (hcut source).starts, congrArg Prod.fst hread, ?_, fun s _ => s.handled, ?_⟩
  · exact congrArg ((tokenize source).diagnostics ++ ·) (congrArg Prod.snd hread)
  · intro other s hs s' hs' hextent
    obtain ⟨last, hanchored, hlast⟩ := (hcut source).anchored (anchored_tokenize _) s hs
    obtain ⟨last', hanchored', hlast'⟩ := (hcut other).anchored (anchored_tokenize _) s' hs'
    refine Segment.read_eq_of_extent hanchored hanchored' (fun hfn => ?_) hextent
    have hkind : s.first.kind = s'.first.kind := congrArg Prod.fst (List.cons_eq_cons.mp hextent).1
    rw [hlast hfn, hlast' (hkind ▸ hfn)]

/-- Stray tokens, an item, an item before tokens that are left, one that stops at the next `fn`, and another item. The
first item is read in the same way behind other tokens. -/
theorem SourceTree.ofText_segments_recovering :
    let source := "x y\nfn a() -> T => 1;\nfn b() -> T => 2; z )\nfn c((( fn d() -> T => 3;"
    let segments := Segment.all (tokenize source).tokens
    let others := Segment.all (tokenize "fn(\nfn a() -> T => 1;\nfn").tokens
    segments.map (fun s => (s.read.1.map (·.name), s.read.2.map (·.code))) =
        [([], ["FX1003"]), (["a"], []), (["b"], ["FX1003"]), ([], ["FX1003"]), (["d"], [])] ∧
      (ofText source).items.map (·.name) = ["a", "b", "d"] ∧
      (ofText source).diagnostics.map (·.code) = ["FX1003", "FX1003", "FX1003"] ∧
      ∃ s ∈ segments.tail, s.first.kind = .symbol .keywordFn ∧ s.Handled ∧
        ∃ s' ∈ others, s.extent = s'.extent ∧ s.read = s'.read := by
  intro source segments others
  obtain ⟨-, hstarts, hitems, hproblems, hhandled, hsame⟩ := ofText_segments source
  have hread : segments.map (fun s => (s.read.1.map (·.name), s.read.2.map (·.code))) =
      [([], ["FX1003"]), (["a"], []), (["b"], ["FX1003"]), ([], ["FX1003"]), (["d"], [])] := by decide +kernel
  have hnames := congrArg (List.flatMap Prod.fst) hread
  have hcodes := congrArg (List.flatMap Prod.snd) hread
  rw [List.flatMap_map, ← List.map_flatMap] at hnames hcodes
  have hlexical : (tokenize source).diagnostics = [] := by decide +kernel
  have hextents : ∃ s ∈ segments.tail, ∃ s' ∈ others, s.extent = s'.extent := by decide +kernel
  obtain ⟨s, hs, s', hs', hextent⟩ := hextents
  have hmem : s ∈ segments := List.mem_of_mem_tail hs
  rw [hitems, hproblems, hlexical]
  exact ⟨hread, hnames, hcodes, s, hs, hstarts s hs, hhandled s hmem, s', hs', hextent, hsame _ s hmem s' hs' hextent⟩

end FlowCheck.Flow

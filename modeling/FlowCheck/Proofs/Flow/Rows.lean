import FlowCheck.Proofs.Diagnostic
import FlowCheck.Proofs.Flow.Items
import FlowCheck.Proofs.Flow.Place

/-! Batches line by line. Every line of a batch starts with a comment, which is a comment also when the comment
    of a line before it is still open: it then ends the open one. So behind the comment each line is read
    from the same state, whatever stands on the lines before. -/

namespace FlowCheck.Flow

open FlowCheck.Text

/-- A line of a batch: a label in a comment, `fn`, and the rest of an item. -/
structure Row where
  label : List Char
  inner : List Char
  plain : ∀ c ∈ label, c ≠ '*' ∧ c ≠ '/' ∧ c ≠ '\n'
  spaced : inner.head? = some ' '
  flat : '\n' ∉ inner
  ended : inner.getLast? = some ';'

namespace Row

/-- The comment that a line starts with. -/
def comment (r : Row) : List Char := '/' :: '*' :: (r.label ++ ['*', '/'])

def text (r : Row) : List Char := r.comment ++ ' ' :: 'f' :: 'n' :: r.inner

/-- The text of some lines. -/
def source : List Row → List Char
  | [] => []
  | r :: rs => r.text ++ '\n' :: source rs

theorem source_eq (rows : List Row) : source rows = rows.flatMap (·.text ++ ['\n']) := by
  induction rows with
  | nil => rfl
  | cons r rs ih => rw [source, ih, List.flatMap_cons, List.append_assoc, List.singleton_append]

theorem comment_flat (r : Row) : '\n' ∉ r.comment := by
  intro h
  simp only [comment, List.mem_cons, List.mem_append, List.not_mem_nil, or_false] at h
  rcases h with h | h | h | h | h
  · cases h
  · cases h
  · exact (r.plain _ h).2.2 rfl
  · cases h
  · cases h

/-! ### Lexemes -/

theorem comment_label {label : List Char} (h : ∀ c ∈ label, c ≠ '*' ∧ c ≠ '/' ∧ c ≠ '\n') (more : List Char) :
    Scan.comment (label ++ '*' :: '/' :: more) = ⟨label ++ ['*', '/'], [], [], more⟩ :=
  Scan.comment_closed (fun hin => (h '*' (hin.subset (.head _))).1 rfl) more

/-- The comment of a line ends a comment that is open before it. -/
theorem comment_resumed (r : Row) (more : List Char) :
    Scan.comment ('\n' :: (r.comment ++ more)) = ⟨'\n' :: r.comment, [], [], more⟩ := by
  have hlabel : (r.label ++ '*' :: '/' :: more).head? ≠ some '/' := by
    cases hl : r.label with
    | nil => simp
    | cons c label => simpa using (r.plain c (hl ▸ .head _)).2.1
  have hmore : '\n' :: (r.comment ++ more) = '\n' :: '/' :: '*' :: (r.label ++ '*' :: '/' :: more) := by
    simp [comment]
  rw [hmore, Scan.comment_cons (by simp), Scan.comment_cons (by simp), Scan.comment_cons (by simpa using hlabel),
    comment_label r.plain]
  rfl

theorem source_cons (r : Row) (rs : List Row) :
    source (r :: rs) = r.comment ++ ' ' :: 'f' :: 'n' :: (r.inner ++ '\n' :: source rs) := by
  simp [source, text]

theorem all_comment (r : Row) (more : List Char) :
    Lexeme.all (r.comment ++ more) = ⟨r.comment, none, []⟩ :: Lexeme.all more := by
  have hmore : r.comment ++ more = '/' :: '*' :: (r.label ++ '*' :: '/' :: more) := by simp [comment]
  rw [hmore, Lexeme.all_cons, Lexeme.next_comment, comment_label r.plain]
  rfl

theorem all_fn (r : Row) (more : List Char) : Lexeme.all (' ' :: 'f' :: 'n' :: (r.inner ++ more)) =
    ⟨[' '], none, []⟩ :: ⟨['f', 'n'], some (.symbol .keywordFn), []⟩ :: Lexeme.all (r.inner ++ more) := by
  obtain ⟨inner, hinner⟩ := List.head?_eq_some_iff.mp r.spaced
  have hspace : ∀ more, Lexeme.next ' ' ('f' :: more) = (⟨[' '], none, []⟩, 'f' :: more) := fun _ => rfl
  have hword : ∀ more, Lexeme.next 'f' ('n' :: ' ' :: more) =
      (⟨['f', 'n'], some (.symbol .keywordFn), []⟩, ' ' :: more) := fun _ => rfl
  rw [Lexeme.all_cons, hspace, Lexeme.all_cons, hinner, List.cons_append, hword]

theorem all_newline (rs : List Row) :
    Lexeme.all ('\n' :: source rs) = ⟨['\n'], none, []⟩ :: Lexeme.all (source rs) := by
  cases rs with
  | nil => rw [source, Lexeme.all_cons]; rfl
  | cons r rs =>
    have hnext : ∀ more, Lexeme.next '\n' ('/' :: more) = (⟨['\n'], none, []⟩, '/' :: more) := fun _ => rfl
    have hsource : source (r :: rs) = '/' :: (source (r :: rs)).tail := by simp [source, text, comment]
    rw [hsource, Lexeme.all_cons, hnext]

/-! ### Tokens -/

variable (k : Nat) (r : Row)

/-- Where the text behind `fn` starts, when the line is line `k`. -/
def start : Location := ⟨k, r.comment.length + 3⟩

/-- The tokens of the line behind `fn`. -/
def tokens : List Token := Lexeme.placed (r.start k) (some (r.start k)) (Lexeme.all r.inner)

/-- Where the last token of the line ends. -/
def stop : Option Location := Lexeme.lastStop (r.start k) (some (r.start k)) (Lexeme.all r.inner)

/-- The word `fn` of the line. -/
def head (last : Option Location) : Token :=
  ⟨.symbol .keywordFn, ⟨k, r.comment.length + 1⟩, r.start k, Lexeme.anchor last ⟨k, r.comment.length + 1⟩⟩

/-- The tokens of some lines, the first of which is line `k`. -/
def tokensFrom (k : Nat) (last : Option Location) : List Row → List Token
  | [] => [⟨.endOfFile, ⟨k, 0⟩, ⟨k, 0⟩, Lexeme.anchor last ⟨k, 0⟩⟩]
  | r :: rs => r.head k last :: (r.tokens k ++ tokensFrom (k + 1) (r.stop k) rs)

variable {k r}

theorem advance_inner : ((r.start k).advance r.inner).line = k := by
  rw [Location.advance_flat _ r.flat, start]

theorem advance_open (loc : Location) {text comment : List Char} {ls : List Lexeme} {problems : List Problem}
    (h : Lexeme.all text = ls ++ [⟨comment, none, problems⟩]) (taken : List Char) :
    (loc.advance (Lexeme.width ls)).advance (comment ++ taken) = (loc.advance text).advance taken := by
  have hwidth : Lexeme.width ls ++ comment = text := by
    rw [← Lexeme.width_all text, h]
    simp [Lexeme.width]
  rw [Location.advance_append, ← Location.advance_append loc, hwidth]

/-- The next line is read from the same state when a comment is open before it as when none is. -/
theorem comment_behind (rs : List Row) (loc : Location) :
    (∀ last, Lexeme.tokens (loc.advance (Scan.comment ('\n' :: source rs)).taken) last
        (Lexeme.all (Scan.comment ('\n' :: source rs)).rest) =
      Lexeme.tokens ⟨loc.line + 1, 0⟩ last (Lexeme.all (source rs))) ∧
    Lexeme.diagnostics (loc.advance (Scan.comment ('\n' :: source rs)).taken)
        (Lexeme.all (Scan.comment ('\n' :: source rs)).rest) =
      Lexeme.diagnostics ⟨loc.line + 1, 0⟩ (Lexeme.all (source rs)) := by
  cases rs with
  | nil => exact ⟨fun _ => rfl, rfl⟩
  | cons r rs =>
    rw [source_cons, comment_resumed, all_comment]
    exact ⟨fun _ => rfl, rfl⟩

theorem problems_behind (rs : List Row) :
    (Scan.comment ('\n' :: source rs)).problems = if rs = [] then [.unclosedComment] else [] := by
  cases rs with
  | nil => rfl
  | cons r rs => rw [source_cons, comment_resumed]; rfl

theorem tokens_behind (rs : List Row) :
    Lexeme.tokens (r.start k) (some (r.start k)) (Lexeme.all (r.inner ++ '\n' :: source rs)) =
      r.tokens k ++ Lexeme.tokens ⟨k + 1, 0⟩ (r.stop k) (Lexeme.all (source rs)) := by
  have hline := advance_inner (k := k) (r := r)
  rcases Lexeme.all_append_newline r.flat (by simp [r.ended]) (source rs) with ⟨-, h⟩ | ⟨ls, comment, hclosed, hls, h⟩
  · rw [h, Lexeme.tokens_append, Lexeme.width_all, all_newline]
    congr 1
    rw [Lexeme.tokens, Location.advance_newline _ (by simp), hline]
    rfl
  · have hend := advance_open (start k r) hls (Scan.comment ('\n' :: source rs)).taken
    obtain ⟨hplaced, hstop⟩ := Lexeme.placed_silent (r.start k) (some (r.start k)) ls
      (l := ⟨comment, none, [.unclosedComment]⟩) rfl
    rw [h, Lexeme.tokens_append, tokens, stop, hls, hplaced, hstop]
    congr 1
    dsimp only [Lexeme.tokens]
    rw [hend, (comment_behind rs _).1, hline]

theorem tokens_source (last : Option Location) (rows : List Row) :
    Lexeme.tokens ⟨k, 0⟩ last (Lexeme.all (source rows)) = tokensFrom k last rows := by
  induction rows generalizing k last with
  | nil => rw [source, Lexeme.all_nil]; rfl
  | cons r rs ih =>
    have hstart : (Location.advance ⟨k, 0⟩ r.comment) = ⟨k, r.comment.length⟩ := by
      rw [Location.advance_flat _ r.comment_flat, Nat.zero_add]
    rw [source_cons, all_comment, all_fn, tokensFrom, ← ih, ← tokens_behind]
    simp only [Lexeme.tokens, hstart]
    rfl

/-! ### Problems of lexemes -/

/-- The lexemes of a line when a comment that is open at its end is closed on a later line. -/
def resumed (l : Lexeme) : Lexeme := { l with problems := l.problems.filter (· ≠ .unclosedComment) }

/-- What is wrong with the lexemes of the line. A comment that is open at its end is closed by the next line. -/
def lexical (k : Nat) (final : Bool) (r : Row) : List Diagnostic :=
  Lexeme.diagnostics (r.start k) (if final then Lexeme.all r.inner else (Lexeme.all r.inner).map resumed)

/-- What a function of lines gives for each of some lines, the first of which is line `k`; it is told which
one is the last. -/
def collect (f : Nat → Bool → Row → List Diagnostic) (k : Nat) : List Row → List Diagnostic
  | [] => []
  | r :: rs => f k rs.isEmpty r ++ collect f (k + 1) rs

theorem resumed_of_closed {ls : List Lexeme} (h : ∀ l ∈ ls, .unclosedComment ∉ l.problems) : ls.map resumed = ls := by
  refine (List.map_congr_left fun l hl => ?_).trans (List.map_id ls)
  have hfilter : l.problems.filter (· ≠ .unclosedComment) = l.problems :=
    List.filter_eq_self.mpr fun p hp => by simpa using fun e : p = .unclosedComment => h l hl (e ▸ hp)
  rw [resumed, hfilter]
  rfl

theorem diagnostics_behind (rs : List Row) :
    Lexeme.diagnostics (r.start k) (Lexeme.all (r.inner ++ '\n' :: source rs)) =
      r.lexical k rs.isEmpty ++ Lexeme.diagnostics ⟨k + 1, 0⟩ (Lexeme.all (source rs)) := by
  have hline := advance_inner (k := k) (r := r)
  rcases Lexeme.all_append_newline r.flat (by simp [r.ended]) (source rs) with
    ⟨hclosed, h⟩ | ⟨ls, comment, hclosed, hls, h⟩
  · have hlexical : r.lexical k rs.isEmpty = Lexeme.diagnostics (r.start k) (Lexeme.all r.inner) := by
      rw [lexical, resumed_of_closed hclosed, ite_self]
    rw [h, Lexeme.diagnostics_append, Lexeme.width_all, all_newline, hlexical]
    congr 1
    rw [Lexeme.diagnostics, Location.advance_newline _ (by simp), hline]
    rfl
  · have hend := advance_open (start k r) hls (Scan.comment ('\n' :: source rs)).taken
    rw [h, Lexeme.diagnostics_append, lexical, hls, List.map_append, resumed_of_closed hclosed, problems_behind]
    dsimp only [Lexeme.diagnostics]
    rw [hend, (comment_behind rs _).2, hline]
    cases rs <;> simp [Lexeme.diagnostics_append, Lexeme.diagnostics, resumed]

theorem diagnostics_source (rows : List Row) :
    Lexeme.diagnostics ⟨k, 0⟩ (Lexeme.all (source rows)) = collect lexical k rows := by
  induction rows generalizing k with
  | nil => rw [source, Lexeme.all_nil]; rfl
  | cons r rs ih =>
    have hstart : (Location.advance ⟨k, 0⟩ r.comment) = ⟨k, r.comment.length⟩ := by
      rw [Location.advance_flat _ r.comment_flat, Nat.zero_add]
    rw [source_cons, all_comment, all_fn, collect, ← ih, ← diagnostics_behind]
    simp only [Lexeme.diagnostics, hstart, List.map_nil, List.nil_append]
    rfl

/-! ### Items -/

open FlowCheck.Flow.Parser

/-- Equal places on one line. -/
def OnLine (k : Nat) (loc loc' : Location) : Prop := loc = loc' ∧ loc.line = k

/-- The same problem of form at equal places on one line. -/
def SameFault (k : Nat) (d d' : Diagnostic) : Prop := SameProblem (OnLine k) d d' ∧ AllOf (·.ofForm = true) [d']

theorem SameFault.located {p : Problem} (hp : p.ofForm = true) {loc loc' : Location} (h : OnLine k loc loc') :
    SameFault k (p.located loc) (p.located loc') :=
  ⟨.located h, allOf_located hp loc'⟩

/-- Where a word that is missing at the end of the line is reported. -/
def finish (k : Nat) (r : Row) : Location := (r.stop k).getD (r.start k)

/-- What reading sees of the tokens behind the line. -/
structure Ahead (k : Nat) (final : Bool) (r : Row) (rest : List Token) : Prop where
  kind : (current rest).kind = if final then .endOfFile else .symbol .keywordFn
  anchor : (current rest).anchor = r.finish k

/-- A token to stand for what is behind the line. -/
def ahead (k : Nat) (final : Bool) (r : Row) : Token :=
  ⟨if final then .endOfFile else .symbol .keywordFn, ⟨k + 1, 0⟩, ⟨k + 1, 0⟩, r.finish k⟩

theorem ahead_self (k : Nat) (final : Bool) (r : Row) : r.Ahead k final [r.ahead k final] := ⟨rfl, rfl⟩

/-- The items of the line, and what is wrong with its form. -/
def read (k : Nat) (final : Bool) (r : Row) : List Item × List Diagnostic :=
  itemsBefore 1 (r.head k none :: (r.tokens k ++ [r.ahead k final]))

theorem start_flat : '\n' ∉ Lexeme.width (Lexeme.all r.inner) := by
  rw [Lexeme.width_all]
  exact r.flat

theorem finish_line : (r.finish k).line = k := by
  have h := (Lexeme.placed_line (r.start k) (some (r.start k)) (start_flat (r := r)) (by simp)).2
  obtain ⟨stop, hstop⟩ := Lexeme.lastStop_some (r.start k) (r.start k) (Lexeme.all r.inner)
  simp only [finish, Row.stop, hstop, Option.getD_some]
  exact h stop hstop

theorem stop_eq (k : Nat) (r : Row) : r.stop k = some (r.finish k) := by
  obtain ⟨stop, hstop⟩ := Lexeme.lastStop_some (r.start k) (r.start k) (Lexeme.all r.inner)
  simp only [finish, Row.stop, hstop, Option.getD_some]

theorem anchor_next (column : Nat) : Lexeme.anchor (r.stop k) ⟨k + 1, column⟩ = r.finish k := by
  rw [stop_eq, Lexeme.anchor]
  simp only [finish_line, Nat.lt_succ_self, ↓reduceIte]

theorem ahead_tokensFrom (rs : List Row) : r.Ahead k rs.isEmpty (tokensFrom (k + 1) (r.stop k) rs) := by
  cases rs with
  | nil => exact ⟨rfl, anchor_next 0⟩
  | cons r' rs => exact ⟨rfl, anchor_next _⟩

/-- Two ends of the line that look the same. -/
def alignment {final : Bool} {left right : List Token} (hl : r.Ahead k final left) (hr : r.Ahead k final right) :
    Alignment where
  place := OnLine k
  fault := SameFault k
  left := left
  right := right
  located _ hp h := .located hp h
  left_inert := by
    rw [hl.kind]
    cases final <;> simp [TokenKind.Inert]
  right_inert := by
    rw [hr.kind]
    cases final <;> simp [TokenKind.Inert]
  missing _ hp := .located hp ⟨hl.anchor.trans hr.anchor.symm, by rw [hl.anchor, finish_line]⟩
  invalid := by
    rw [hl.kind, hr.kind]
    exact .located rfl ⟨hl.anchor.trans hr.anchor.symm, by rw [hl.anchor, finish_line]⟩

section

variable {final : Bool} {left right : List Token} (hl : r.Ahead k final left) (hr : r.Ahead k final right)

theorem aligned : (alignment hl hr).Aligned (r.head k none :: (r.tokens k ++ left))
    (r.head k none :: (r.tokens k ++ right)) := by
  have same : ∀ t : Token, t.start.line = k → t.anchor.line = k → (alignment hl hr).SameToken t t :=
    fun t hs ha => ⟨rfl, ⟨rfl, hs⟩, ⟨rfl, ha⟩⟩
  have hline := (Lexeme.placed_line (r.start k) (some (r.start k)) (start_flat (r := r)) (by simp)).1
  have hkind := Lexeme.placed_all (r.start k) (some (r.start k)) r.inner
  exact .cons (same _ rfl rfl) (by simp [head]) <| .append fun t ht =>
    ⟨same t (hline t ht).1 (hline t ht).2, hkind t ht⟩

theorem startsItem_of_ahead {rest : List Token} (h : r.Ahead k final rest) : startsItem (current rest) = true := by
  rw [startsItem, h.kind]
  cases final <;> rfl

include hl in
/-- What is read of the line does not depend on what stands behind it. -/
theorem read_alike : List.Forall₂ (Item.Alike (OnLine k))
      (itemsBefore left.length (r.head k none :: (r.tokens k ++ left))).1 (r.read k final).1 ∧
    List.Forall₂ (SameFault k)
      (itemsBefore left.length (r.head k none :: (r.tokens k ++ left))).2 (r.read k final).2 :=
  Alignment.itemsBefore_aligned (startsItem_of_ahead hl) (startsItem_of_ahead (r.ahead_self k final))
    (aligned hl (r.ahead_self k final))

end

/-- Reading some lines is reading the first and then the others. -/
theorem itemsOf_tokensFrom (last : Option Location) (rs : List Row) :
    ∃ items problems, List.Forall₂ (Item.Alike (OnLine k)) items (r.read k rs.isEmpty).1 ∧
      List.Forall₂ (SameFault k) problems (r.read k rs.isEmpty).2 ∧
      itemsOf (tokensFrom k last (r :: rs)) = (items ++ (itemsOf (tokensFrom (k + 1) (r.stop k) rs)).1,
        problems ++ (itemsOf (tokensFrom (k + 1) (r.stop k) rs)).2) := by
  have hl := ahead_tokensFrom (k := k) (r := r) rs
  have hr := r.ahead_self k rs.isEmpty
  obtain ⟨hitems, hproblems⟩ := read_alike hl
  refine ⟨_, _, hitems, hproblems, ?_⟩
  have hround := round_fn (r.head k last) (r.head k none) rfl rfl rfl
  rw [tokensFrom, itemsOf_cons (by simp [head]), hround, ← itemsOf_cons (by simp [head])]
  exact Alignment.itemsOf_eq_before (startsItem_of_ahead hl) (startsItem_of_ahead hr) (aligned hl hr)

/-! ### Diagnostics -/

/-- The diagnostic is a problem on a line. -/
def ProblemOn (k : Nat) (d : Diagnostic) : Prop := ∃ (p : Problem) (loc : Location), loc.line = k ∧ d = p.located loc

theorem ProblemOn.onLine {d : Diagnostic} (h : ProblemOn k d) (j : Nat) : d.onLine j = (k == j) := by
  obtain ⟨p, loc, rfl, rfl⟩ := h
  rfl

/-- What a function of lines gives for a line is about that line. -/
def EachOn (f : Nat → Bool → Row → List Diagnostic) : Prop := ∀ k final r, ∀ d ∈ f k final r, ProblemOn k d

/-- What is wrong with the form of the line. -/
def syntactic (k : Nat) (final : Bool) (r : Row) : List Diagnostic := (r.read k final).2

/-- What is wrong with the types of the line. -/
def semantic (table : ExportTable) (k : Nat) (final : Bool) (r : Row) : List Diagnostic :=
  (r.read k final).1.flatMap (checkItem table)

theorem width_resumed (ls : List Lexeme) : Lexeme.width (ls.map resumed) = Lexeme.width ls := by
  simp only [Lexeme.width, List.flatMap_map]
  rfl

theorem lexical_on : EachOn lexical := by
  intro k final r d hd
  unfold lexical at hd
  cases final
  · refine Lexeme.diagnostics_line (r.start k) ?_ hd
    rw [if_neg Bool.false_ne_true, width_resumed]
    exact start_flat
  · exact Lexeme.diagnostics_line (r.start k) start_flat hd

/-- What the lexer finds is about form. -/
theorem lexical_form {final : Bool} : AllOf (·.ofForm = true) (r.lexical k final) := by
  have hform : ∀ ls : List Lexeme, (∀ l ∈ ls, ∀ p ∈ l.problems, p.ofForm = true) → ∀ loc : Location,
      AllOf (·.ofForm = true) (Lexeme.diagnostics loc ls) := by
    intro ls
    induction ls with
    | nil => exact fun _ _ => allOf_nil
    | cons l ls ih =>
      intro h loc d hd
      rcases List.mem_append.mp hd with hd | hd
      · obtain ⟨p, hp, rfl⟩ := List.mem_map.mp hd
        exact ⟨p, loc, h l (.head _) p hp, rfl⟩
      · exact ih (fun l hl => h l (.tail _ hl)) _ d hd
  unfold lexical
  cases final
  · refine hform _ (fun l hl p hp => ?_) _
    obtain ⟨l', hl', rfl⟩ := List.mem_map.mp hl
    exact Lexeme.all_problems hl' p (List.mem_of_mem_filter hp)
  · exact hform _ (fun l hl => Lexeme.all_problems hl) _

theorem sameProblem_on {ds ds' : List Diagnostic} (h : List.Forall₂ (SameProblem (OnLine k)) ds ds') :
    ds = ds' ∧ ∀ d ∈ ds', ProblemOn k d := by
  induction h with
  | nil => exact ⟨rfl, nofun⟩
  | cons hd _ ih =>
    obtain ⟨p, loc, _, ⟨rfl, hline⟩, rfl, rfl⟩ := hd
    exact ⟨by rw [ih.1], List.forall_mem_cons.mpr ⟨⟨p, loc, hline, rfl⟩, ih.2⟩⟩

theorem syntactic_on : EachOn syntactic := fun k final r =>
  (sameProblem_on ((read_alike (r.ahead_self k final)).2.imp fun _ _ h => h.1)).2

theorem sameFault_form {ds ds' : List Diagnostic} (h : List.Forall₂ (SameFault k) ds ds') :
    AllOf (·.ofForm = true) ds' := by
  induction h with
  | nil => exact allOf_nil
  | cons hd _ ih => exact allOf_append.mpr ⟨hd.2, ih⟩

/-- What the parser finds is about form. -/
theorem syntactic_form {final : Bool} : AllOf (·.ofForm = true) (r.syntactic k final) :=
  sameFault_form (read_alike (r.ahead_self k final)).2

theorem semantic_on (table : ExportTable) : EachOn (semantic table) := fun k final r =>
  (sameProblem_on (checked_alike table ((read_alike (r.ahead_self k final)).1.imp fun _ _ => Item.Alike.behind))).2

/-- The form of some lines and the types of their items are judged line by line. -/
theorem itemsOf_source (table : ExportTable) (last : Option Location) (rows : List Row) :
    (itemsOf (tokensFrom k last rows)).2 = collect syntactic k rows ∧
      (itemsOf (tokensFrom k last rows)).1.flatMap (checkItem table) = collect (semantic table) k rows := by
  induction rows generalizing k last with
  | nil => rw [tokensFrom, itemsOf]; exact ⟨rfl, rfl⟩
  | cons r rs ih =>
    obtain ⟨items, problems, hitems, hproblems, h⟩ := itemsOf_tokensFrom (k := k) (r := r) last rs
    obtain ⟨hsyntactic, hsemantic⟩ := ih (k := k + 1) (r.stop k)
    rw [h]
    dsimp only
    rw [hsyntactic, List.flatMap_append, hsemantic, (sameProblem_on (hproblems.imp fun _ _ h => h.1)).1,
      (sameProblem_on (checked_alike table (hitems.imp fun _ _ => Item.Alike.behind))).1]
    exact ⟨rfl, rfl⟩

/-- All that is wrong with some lines: with their lexemes, with their form and with their types. -/
def problems (table : ExportTable) (rows : List Row) : List Diagnostic :=
  collect lexical 0 rows ++ collect syntactic 0 rows ++ collect (semantic table) 0 rows

theorem ofText_source (table : ExportTable) (rows : List Row) :
    (SourceTree.ofText (String.ofList (source rows))).diagnostics ++
      check table (SourceTree.ofText (String.ofList (source rows))) = problems table rows := by
  obtain ⟨hsyntactic, hsemantic⟩ := itemsOf_source (k := 0) table none rows
  simp only [SourceTree.ofText, tokenize, check, String.toList_ofList]
  rw [show Location.start = ⟨0, 0⟩ from rfl, tokens_source, diagnostics_source, hsyntactic, hsemantic]
  rfl

/-! ### One line of many -/

section Collect

variable {f : Nat → Bool → Row → List Diagnostic} (hf : EachOn f)
include hf

theorem collect_on (k : Nat) (rows : List Row) : ∀ d ∈ collect f k rows, ∃ i < rows.length, ProblemOn (k + i) d := by
  induction rows generalizing k with
  | nil => exact nofun
  | cons r rs ih =>
    intro d hd
    rcases List.mem_append.mp hd with hd | hd
    · exact ⟨0, Nat.zero_lt_succ _, hf k _ r d hd⟩
    · obtain ⟨i, hi, hon⟩ := ih (k + 1) d hd
      exact ⟨i + 1, Nat.succ_lt_succ hi, by rwa [Nat.add_comm i, ← Nat.add_assoc]⟩

/-- What is found on a line is what the line gives. -/
theorem filter_collect (k i : Nat) (rows : List Row) : (collect f k rows).filter (Diagnostic.onLine (k + i)) =
    match rows[i]? with
    | some r => f (k + i) (i + 1 == rows.length) r
    | none => [] := by
  induction rows generalizing k i with
  | nil => rfl
  | cons r rs ih =>
    rw [collect, List.filter_append]
    cases i with
    | zero =>
      have hfirst : (f k rs.isEmpty r).filter (Diagnostic.onLine k) = f k rs.isEmpty r :=
        List.filter_eq_self.mpr fun d hd => by rw [(hf k _ r d hd).onLine, beq_self_eq_true]
      have hothers : (collect f (k + 1) rs).filter (Diagnostic.onLine k) = [] := by
        refine List.filter_eq_nil_iff.mpr fun d hd => ?_
        obtain ⟨i, -, hon⟩ := collect_on hf (k + 1) rs d hd
        rw [hon.onLine, beq_iff_eq]
        omega
      have hfinal : (0 + 1 == (r :: rs).length) = rs.isEmpty := by cases rs <;> rfl
      rw [Nat.add_zero, hfirst, hothers, List.append_nil, hfinal]
      rfl
    | succ i =>
      have hfirst : (f k rs.isEmpty r).filter (Diagnostic.onLine (k + (i + 1))) = [] := by
        refine List.filter_eq_nil_iff.mpr fun d hd => ?_
        rw [(hf k _ r d hd).onLine, beq_iff_eq]
        omega
      have hfinal : (i + 1 + 1 == (r :: rs).length) = (i + 1 == rs.length) := by simp
      rw [hfirst, List.nil_append, show k + (i + 1) = k + 1 + i by omega, ih, List.getElem?_cons_succ, hfinal]

end Collect

/-- All that is wrong with the line. -/
def diagnostics (table : ExportTable) (k : Nat) (final : Bool) (r : Row) : List Diagnostic :=
  r.lexical k final ++ r.syntactic k final ++ r.semantic table k final

theorem problems_on (table : ExportTable) {rows : List Row} :
    ∀ d ∈ problems table rows, ∃ i < rows.length, ProblemOn i d := by
  have hon : ∀ {f}, EachOn f → ∀ d ∈ collect f 0 rows, ∃ i < rows.length, ProblemOn i d := by
    intro f hf d hd
    obtain ⟨i, hi, h⟩ := collect_on hf 0 rows d hd
    exact ⟨i, hi, Nat.zero_add i ▸ h⟩
  intro d hd
  rcases List.mem_append.mp hd with hd | hd
  · rcases List.mem_append.mp hd with hd | hd
    · exact hon lexical_on d hd
    · exact hon syntactic_on d hd
  · exact hon (semantic_on table) d hd

/-- What is wrong on a line of many is what is wrong with that line. -/
theorem filter_problems (table : ExportTable) (rows : List Row) (i : Nat) :
    (problems table rows).filter (Diagnostic.onLine i) = match rows[i]? with
      | some r => r.diagnostics table i (i + 1 == rows.length)
      | none => [] := by
  have hlexical := filter_collect lexical_on 0 i rows
  have hsyntactic := filter_collect syntactic_on 0 i rows
  have hsemantic := filter_collect (semantic_on table) 0 i rows
  rw [Nat.zero_add] at hlexical hsyntactic hsemantic
  rw [problems, List.filter_append, List.filter_append, hlexical, hsyntactic, hsemantic]
  cases rows[i]? <;> rfl

end Row

end FlowCheck.Flow

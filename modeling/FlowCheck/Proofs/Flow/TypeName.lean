import FlowCheck.Proofs.Flow.Pasting
import FlowCheck.Proofs.Flow.Rules

/-! Names of types without arguments. Such a name is some identifiers with points between them; it says just these
    words, whatever follows that no name goes on with, and is read from them as it is. -/

namespace FlowCheck.Flow

open FlowCheck.Text FlowCheck.Flow.Parser

/-! ### Paths -/

/-- Some identifiers with points between them. -/
def joinPath (first : String) (others : List String) : String := others.foldl (fun path name => path ++ "." ++ name) first

/-- The words of a path. -/
def pathKinds (first : String) (others : List String) : List TokenKind :=
  .identifier first :: others.flatMap fun name => [.symbol .dot, .identifier name]

theorem toList_joinPath (first : String) (others : List String) :
    (joinPath first others).toList = first.toList ++ others.flatMap fun name => '.' :: name.toList := by
  induction others generalizing first with
  | nil => simp [joinPath]
  | cons name others ih =>
    have hstep : joinPath first (name :: others) = joinPath (first ++ "." ++ name) others := rfl
    simp [hstep, ih]

/-- Reads a path. -/
def pathParser : Parser String := do
  let first ← identifier
  loop (only .dot) (fun path _ _ => do pure (path ++ "." ++ (← identifier))) first

/-- Reads the arguments of a type, if there are any, when `room` more levels may be opened. -/
def argsParser (room : Nat) : Parser (List TypeExpr) := do
  if ← eat .less then
    let args ← commaSeparated (typeExpr room)
    expect .greater
    pure args
  else pure []

theorem typeExpr_succ (room : Nat) : typeExpr (room + 1) = peek >>= fun start => pathParser >>= fun path =>
    argsParser room >>= fun args => pure ⟨path, args, start.start⟩ := by
  simp only [typeExpr, pathParser, argsParser, bind_assoc]
  congr 1
  funext start
  congr 1
  funext first
  congr 1
  funext path
  congr 1
  funext more
  cases more <;> simp [bind_assoc, pure_bind]

theorem reads_path {ts rest : List Token} {path : String} (h : Reads pathParser ts path rest) :
    ∃ first others w, ts = w ++ rest ∧ w.map (·.kind) = pathKinds first others ∧ path = joinPath first others := by
  obtain ⟨first, mid, hfirst, hloop⟩ := h.of_bind
  obtain ⟨t, rfl, ht⟩ := reads_identifier.mp hfirst
  refine (hloop.loop_induction (I := fun path rest => ∃ first others w, t :: mid = w ++ rest ∧
    w.map (·.kind) = pathKinds first others ∧ path = joinPath first others) ?_ ⟨first, [], [t], by simp [ht, pathKinds, joinPath]⟩).1
  rintro _ dot ts _ _ rest ⟨first, others, w, hw, hkinds, rfl⟩ hdot hstep
  obtain ⟨name, _, hname, hpure⟩ := hstep.of_bind
  obtain ⟨u, rfl, hu⟩ := reads_identifier.mp hname
  obtain ⟨rfl, rfl⟩ := reads_pure.mp hpure
  refine ⟨first, others ++ [name], w ++ [dot, u], by simp [hw], ?_, by simp [joinPath]⟩
  have hdot : dot.kind = .symbol .dot := by simpa [only] using hdot
  simp [hkinds, pathKinds, hdot, hu]

theorem yields_path (first : String) (others : List String) :
    Yields pathParser (pathKinds first others) (· ≠ .symbol .dot) (· = joinPath first others) := by
  have hloop (path : String) : Yields (loop (only .dot) (fun path _ _ => do pure (path ++ "." ++ (← identifier))) path)
      (others.flatMap fun name => [.symbol .dot, .identifier name]) (· ≠ .symbol .dot) (· = joinPath path others) := by
    induction others generalizing path with
    | nil =>
      intro w more hw hmore
      obtain rfl := List.map_eq_nil_iff.mp hw
      exact ⟨path, (reads_loop_of_none (Border.only_eq_none.mpr hmore)).mpr ⟨rfl, rfl⟩, rfl⟩
    | cons name others ih =>
      intro w more hw hmore
      obtain ⟨dot, w, rfl, hdot, hw⟩ := List.map_eq_cons_iff.mp hw
      obtain ⟨t, w, rfl, ht, hw⟩ := List.map_eq_cons_iff.mp hw
      obtain ⟨last, hlast, rfl⟩ := ih (path ++ "." ++ name) hw hmore
      refine ⟨_, (reads_loop_of_some (d := ()) (by simp [only, hdot])).mpr ⟨_, w ++ more, ?_, hlast⟩, rfl⟩
      exact (reads_identifier.mpr ⟨t, rfl, ht⟩).bind (reads_pure.mpr ⟨rfl, rfl⟩)
  refine yields_bind (K := [_]) (N := fun _ => True) (yields_identifier first) (fun name hname => ?_) fun _ _ => trivial
  subst hname
  exact hloop name

/-! ### Arguments -/

/-- The words of some arguments. -/
def argsKinds {ι : Type} (K : ι → List TokenKind) : List ι → List TokenKind
  | [] => []
  | x :: xs => .symbol .less :: (K x ++ (xs.flatMap fun y => .symbol .comma :: K y) ++ [.symbol .greater])

theorem yields_args {ι : Type} {room : Nat} {K : ι → List TokenKind} {V : ι → TypeExpr → Prop} {xs : List ι}
    (h : ∀ x ∈ xs, Yields (typeExpr room) (K x) endsType (V x)) :
    Yields (argsParser room) (argsKinds K xs) endsType (List.Forall₂ V xs) := by
  cases xs with
  | nil =>
    refine yields_bind (K := []) (yields_eat_none .less) (fun more hmore => ?_) fun _ hk => hk.2
    subst hmore
    exact yields_pure .nil
  | cons x xs =>
    refine yields_bind (K := [_]) (N := fun _ => True) (yields_eat .less) (fun more hmore => ?_) fun _ _ => trivial
    subst hmore
    refine yields_bind (yields_commaSeparated h ⟨nofun, nofun⟩) (fun args hargs => ?_) fun _ _ => ⟨nofun, nofun, nofun⟩
    exact yields_bind (K := [_]) (N := fun _ => True) (yields_expect .greater) (fun _ _ => yields_pure hargs)
      fun _ _ => trivial

/-- The words of a path and of arguments are read as the type of that name with those arguments. -/
theorem yields_type {ι : Type} {room : Nat} (first : String) (others : List String) {K : ι → List TokenKind}
    {V : ι → TypeExpr → Prop} {xs : List ι} (h : ∀ x ∈ xs, Yields (typeExpr room) (K x) endsType (V x)) :
    Yields (typeExpr (room + 1)) (pathKinds first others ++ argsKinds K xs) endsType fun te =>
      match te with | ⟨path, args, _⟩ => path = joinPath first others ∧ List.Forall₂ V xs args := by
  rw [typeExpr_succ]
  refine yields_peek fun start => yields_bind (yields_path first others) (fun path hpath => ?_) fun kind hkind => ?_
  · rw [← List.append_nil (argsKinds K xs)]
    exact yields_bind (yields_args h) (fun args hargs => yields_pure ⟨hpath, hargs⟩) fun _ hk => hk
  · cases xs with
    | nil => exact hkind.1
    | cons x xs => exact nofun

theorem reads_of_commaSeparated {α : Type} {p : Parser α} {ts rest : List Token} {xs : List α}
    (h : Reads (commaSeparated p) ts xs rest) : ∀ x ∈ xs, ∃ us rest, us <:+ ts ∧ Reads p us x rest := by
  obtain ⟨first, mid, hfirst, hloop⟩ := h.of_bind
  refine (hloop.loop_induction (I := fun xs rest => rest <:+ ts ∧ ∀ x ∈ xs, ∃ us rest, us <:+ ts ∧ Reads p us x rest)
    ?_ ⟨hfirst.suffix, ?_⟩).1.2
  · rintro xs _ us _ ys _ ⟨hsuffix, hxs⟩ _ hstep
    have hus := (List.suffix_cons _ us).trans hsuffix
    refine ⟨hstep.suffix.trans hus, ?_⟩
    obtain ⟨y, _, hy, hpure⟩ := hstep.of_bind
    obtain ⟨rfl, -⟩ := reads_pure.mp hpure
    intro x hx
    rcases List.mem_append.mp hx with hx | hx
    · exact hxs x hx
    · rw [List.mem_singleton.mp hx]
      exact ⟨_, _, hus, hy⟩
  · intro x hx
    rw [List.mem_singleton.mp hx]
    exact ⟨_, _, List.suffix_refl _, hfirst⟩

theorem reads_of_args {room : Nat} {ts rest : List Token} {args : List TypeExpr}
    (h : Reads (argsParser room) ts args rest) :
    ∀ te ∈ args, ∃ us rest, us <:+ ts ∧ Reads (typeExpr room) us te rest := by
  obtain ⟨more, _, heat, h⟩ := h.of_bind
  cases more with
  | false =>
    obtain ⟨rfl, -⟩ := reads_pure.mp h
    exact nofun
  | true =>
    obtain ⟨args', _, hargs, h⟩ := h.of_bind
    obtain ⟨_, _, -, h⟩ := h.of_bind
    obtain ⟨rfl, -⟩ := reads_pure.mp h
    intro te hte
    obtain ⟨us, rest, hus, hread⟩ := reads_of_commaSeparated hargs te hte
    exact ⟨us, rest, hus.trans heat.suffix, hread⟩

/-- A text that says words of which a type is read is read as this type. -/
theorem ofText?_of_yields {text : String} {ks : List TokenKind} {V : TypeExpr → Prop}
    (hcontent : content text.toList = ⟨ks, []⟩) (hyields : Yields (typeExpr maxNesting) ks endsType V) :
    ∃ te, TypeExpr.ofText? text = some te ∧ V te := by
  obtain ⟨w, last, htokens, hlast, hkinds⟩ := tokenize_tokens text
  rw [hcontent] at hkinds
  have hends : endsType (current [last]).kind := by
    show endsType last.kind
    rw [hlast]
    exact ⟨nofun, nofun⟩
  obtain ⟨te, hreads, hte⟩ := hyields hkinds hends
  refine ⟨te, ?_, hte⟩
  rw [TypeExpr.ofText?_eq, wholeText?_iff, tokenize_diagnostics, hcontent, htokens]
  exact ⟨rfl, [last], hreads, hlast⟩

/-! ### Paths in a text -/

/-- What follows does not go on with a name. -/
def EndsName (more : List Char) : Prop := ∀ d ∈ more.head?, continuesName d = false

theorem content_name_before {name : String} (h : Named name) {more : List Char} (hmore : EndsName more) :
    content (name.toList ++ more) = ⟨[.identifier name], []⟩ ++ content more := by
  cases more with
  | cons d more => exact content_name h (hmore d rfl) more
  | nil =>
    obtain ⟨c, rest, hname, hblank, hslash, hquote, hdigit, hstart, hrest⟩ := h.start
    have hword : wordToken (c :: rest) = .identifier name := by
      rw [wordToken, ← hname, String.ofList_toList, h.word]
    rw [hname, List.append_nil, content_cons]
    simp only [Lexeme.next, hblank, hslash, hquote, hdigit, hstart, false_and, ↓reduceIte, Bool.false_eq_true,
      List.takeWhile_eq_self_iff.mpr hrest, List.dropWhile_eq_nil_iff.mpr hrest, hword]
    rfl

theorem content_dot (more : List Char) : content ('.' :: more) = ⟨[.symbol .dot], []⟩ ++ content more := by
  have hsign : Lexeme.next '.' more = (⟨['.'], some (.symbol .dot), []⟩, more) := by cases more <;> rfl
  rw [content_cons, hsign]
  rfl

theorem content_path {first : String} {others : List String} (hnames : ∀ name ∈ first :: others, Named name)
    {more : List Char} (hmore : EndsName more) : content ((joinPath first others).toList ++ more) =
      ⟨pathKinds first others, []⟩ ++ content more := by
  rw [toList_joinPath, List.append_assoc]
  induction others generalizing first with
  | nil => simpa [pathKinds] using content_name_before (hnames first (.head _)) hmore
  | cons name others ih =>
    obtain ⟨hfirst, hothers⟩ := List.forall_mem_cons.mp hnames
    have hdot : EndsName ('.' :: (name.toList ++ (others.flatMap (fun name => '.' :: name.toList) ++ more))) := by
      simp only [EndsName, List.head?_cons, Option.mem_some_iff]
      rintro d rfl
      decide
    rw [List.flatMap_cons, List.append_assoc, List.cons_append, content_name_before hfirst hdot, content_dot, ih hothers]
    simp only [← Content.append_assoc]
    rfl

/-! ### Names that are read back -/

/-- The type has this name and no arguments. -/
def TypeExpr.isName (name : String) : TypeExpr → Bool
  | ⟨path, args, _⟩ => path == name && args.isEmpty

/-- The text is read as a type of just this name. -/
def IsPath (name : String) : Prop := (TypeExpr.ofText? name).map (·.isName name) = some true

instance : DecidablePred IsPath := fun _ => inferInstanceAs (Decidable (_ = _))

theorem IsPath.read {name : String} (h : IsPath name) : ∃ loc, TypeExpr.ofText? name = some ⟨name, [], loc⟩ := by
  obtain ⟨⟨path, args, loc⟩, ht, hname⟩ := Option.map_eq_some_iff.mp h
  obtain ⟨rfl, rfl⟩ : path = name ∧ args = [] := by simpa [TypeExpr.isName] using hname
  exact ⟨loc, ht⟩

theorem identifier_mem_pathKinds {name first : String} {others : List String} (h : name ∈ first :: others) :
    .identifier name ∈ pathKinds first others := by
  rcases List.mem_cons.mp h with rfl | h
  · exact .head _
  · exact .tail _ (List.mem_flatMap.mpr ⟨name, h, .tail _ (.head _)⟩)

/-- Such a text is some identifiers with points between them. -/
theorem IsPath.spec {name : String} (h : IsPath name) :
    ∃ first others, (∀ n ∈ first :: others, Named n) ∧ name = joinPath first others := by
  obtain ⟨loc, ht⟩ := h.read
  obtain ⟨-, w, last, hkinds, hlast, hreads⟩ := TypeExpr.ofText?_spec ht
  rw [show maxNesting = 63 + 1 from rfl, typeExpr_succ, reads_peek_bind] at hreads
  obtain ⟨path', mid, hpath, hrest⟩ := hreads.of_bind
  obtain ⟨first, others, w', hw, hw', rfl⟩ := reads_path hpath
  refine ⟨first, others, fun n hn => ?_, ?_⟩
  · have hmem : .identifier n ∈ (w ++ [last]).map (·.kind) := by
      rw [hw, List.map_append, hw']
      exact List.mem_append_left _ (identifier_mem_pathKinds hn)
    simp only [List.map_append, hkinds, List.map_cons, List.map_nil, hlast, List.mem_append, List.mem_singleton,
      reduceCtorEq, or_false] at hmem
    exact named_of_content hmem
  · obtain ⟨_, _, -, hrest⟩ := hrest.of_bind
    exact (TypeExpr.mk.inj (reads_pure.mp hrest).1).1

/-- Identifiers with points between them are read as one name. -/
theorem isPath_joinPath {first : String} {others : List String} (hnames : ∀ n ∈ first :: others, Named n) :
    IsPath (joinPath first others) := by
  have hcontent : content (joinPath first others).toList = ⟨pathKinds first others, []⟩ := by
    have hends : EndsName [] := nofun
    have h := content_path hnames hends
    rwa [List.append_nil, content_nil, Content.append_empty] at h
  have hnone : ∀ x ∈ ([] : List Empty), Yields (typeExpr 63) [] endsType fun _ => True := nofun
  have hyields := yields_type first others hnone
  rw [argsKinds, List.append_nil] at hyields
  obtain ⟨⟨path, args, loc⟩, hte, rfl, hargs⟩ := ofText?_of_yields hcontent hyields
  rw [IsPath, hte, List.forall₂_nil_left_iff.mp hargs]
  simp [TypeExpr.isName]

theorem isPath_iff {name : String} :
    IsPath name ↔ ∃ first others, (∀ n ∈ first :: others, Named n) ∧ name = joinPath first others :=
  ⟨IsPath.spec, fun ⟨_, _, hnames, hname⟩ => hname ▸ isPath_joinPath hnames⟩

theorem head_joinPath {first : String} (h : Named first) (others : List String) :
    ∃ c rest, (joinPath first others).toList = c :: rest ∧ startsName c = true := by
  obtain ⟨c, rest, hfirst, -, -, -, -, hstart, -⟩ := h.start
  exact ⟨c, _, by rw [toList_joinPath, hfirst, List.cons_append], hstart⟩

theorem IsPath.head {name : String} (h : IsPath name) :
    ∃ c rest, name.toList = c :: rest ∧ startsName c = true := by
  obtain ⟨first, others, hnames, rfl⟩ := h.spec
  exact head_joinPath (hnames first (.head _)) others

/-! ### Types that were read -/

/-- Every path in the type starts as a name does. -/
inductive TypeExpr.Rooted : TypeExpr → Prop where
  | intro {path : String} {args : List TypeExpr} {loc : Location}
      (start : ∃ c rest, path.toList = c :: rest ∧ startsName c = true) (below : ∀ t ∈ args, Rooted t) :
      Rooted ⟨path, args, loc⟩

theorem TypeExpr.rooted_of_reads {room : Nat} {ts rest : List Token} {t : TypeExpr}
    (h : Reads (typeExpr room) ts t rest) (hnames : ∀ u ∈ ts, ∀ name, u.kind = .identifier name → Named name) :
    t.Rooted := by
  induction room generalizing ts rest t with
  | zero => exact (reads_fail h).elim
  | succ room ih =>
    rw [typeExpr_succ, reads_peek_bind] at h
    obtain ⟨path, mid, hpath, h⟩ := h.of_bind
    obtain ⟨args, _, hargs, h⟩ := h.of_bind
    obtain ⟨rfl, -⟩ := reads_pure.mp h
    refine .intro ?_ fun t ht => ?_
    · obtain ⟨first, others, w, rfl, hkinds, rfl⟩ := reads_path hpath
      obtain ⟨u, w, rfl, hu, -⟩ := List.map_eq_cons_iff.mp hkinds
      exact head_joinPath (hnames u (.head _) first hu) others
    · obtain ⟨us, _, hus, hread⟩ := reads_of_args hargs t ht
      exact ih hread fun u hu => hnames u ((hus.trans hpath.suffix).subset hu)

theorem TypeExpr.rooted_of_text {source : String} {t : TypeExpr} (h : TypeExpr.ofText? source = some t) : t.Rooted := by
  obtain ⟨-, w, last, hkinds, hlast, hreads⟩ := TypeExpr.ofText?_spec h
  refine rooted_of_reads hreads fun u hu name hname => ?_
  rcases List.mem_append.mp hu with hu | hu
  · have hmem : u.kind ∈ w.map (·.kind) := List.mem_map_of_mem hu
    rw [hkinds, hname] at hmem
    exact named_of_content hmem
  · rw [List.mem_singleton.mp hu, hlast] at hname
    cases hname

end FlowCheck.Flow

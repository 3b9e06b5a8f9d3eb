import FlowCheck.Proofs.Flow.TypeName
import FlowCheck.Proofs.TypeDescriptor

/-! Types as they are displayed. If the names of a type are paths, its display is read as a type of that name and
    those arguments; who owns the type and what it extends is not displayed. -/

namespace FlowCheck

open FlowCheck.Flow FlowCheck.Flow.Parser

namespace TypeDescriptor

mutual
/-- The type as a text names it. -/
def written : TypeDescriptor → TypeExpr
  | ⟨ns, name, owner, base, args⟩ =>
    ⟨(⟨ns, name, owner, base, args⟩ : TypeDescriptor).fullName, writtenAll args, default⟩
/-- Some types as a text names them. -/
def writtenAll : List TypeDescriptor → List TypeExpr
  | [] => []
  | t :: ts => t.written :: writtenAll ts
end

theorem writtenAll_eq (ts : List TypeDescriptor) : writtenAll ts = ts.map written := by
  induction ts with
  | nil => rfl
  | cons t ts ih => rw [writtenAll, ih, List.map_cons]

theorem written_eq (t : TypeDescriptor) : t.written = ⟨t.fullName, t.args.map written, default⟩ := by
  obtain ⟨ns, name, owner, base, args⟩ := t
  rw [written, writtenAll_eq]

/-- Arguments as they are displayed. -/
def argsText : List (List Char) → List Char
  | [] => []
  | text :: texts => '<' :: (text ++ (texts.flatMap fun text => ',' :: ' ' :: text) ++ ['>'])

theorem toList_display (t : TypeDescriptor) :
    t.display.toList = t.fullName.toList ++ argsText (t.args.map (·.display.toList)) := by
  have hall (ts : List TypeDescriptor) : displayAll ts = ts.map display := by
    induction ts with
    | nil => rfl
    | cons t ts ih => rw [displayAll, ih, List.map_cons]
  have hjoin (u : TypeDescriptor) (us : List TypeDescriptor) : (", ".intercalate ((u :: us).map display)).toList =
      u.display.toList ++ (us.map (·.display.toList)).flatMap fun text => ',' :: ' ' :: text := by
    rw [String.toList_intercalate]
    induction us generalizing u with
    | nil => simp
    | cons v us ih => rw [List.map_cons, List.map_cons, List.map_cons, List.map_cons, List.intercalate_cons_cons,
        ← List.map_cons, ← List.map_cons, ih]; simp
  obtain ⟨ns, name, owner, base, args⟩ := t
  cases args with
  | nil => simp [display, argsText]
  | cons u us =>
    rw [display, hall]
    simp only [String.toList_append, hjoin]
    simp [argsText]

theorem display_congr {t u : TypeDescriptor} (hname : t.fullName = u.fullName)
    (hargs : t.args.map display = u.args.map display) : t.display = u.display := by
  refine String.toList_injective ?_
  have hlists := congrArg (List.map String.toList) hargs
  rw [List.map_map, List.map_map] at hlists
  rw [toList_display, toList_display, hname]
  exact congrArg (fun texts => u.fullName.toList ++ argsText texts) hlists

/-- The names of the type and of its arguments are paths, and so many levels suffice for the arguments. -/
def Spelled : (room : Nat) → TypeDescriptor → Prop
  | 0, _ => False
  | room + 1, t => IsPath t.fullName ∧ ∀ u ∈ t.args, Spelled room u

theorem Spelled.succ {room : Nat} {t : TypeDescriptor} (h : t.Spelled room) : t.Spelled (room + 1) := by
  induction room generalizing t with
  | zero => exact h.elim
  | succ room ih => exact ⟨h.1, fun u hu => ih (h.2 u hu)⟩

theorem Spelled.path {room : Nat} {t : TypeDescriptor} (h : t.Spelled room) : IsPath t.fullName := by
  cases room with
  | zero => exact h.elim
  | succ => exact h.1

theorem Spelled.arg {room : Nat} {t u : TypeDescriptor} (h : t.Spelled room) (hu : u ∈ t.args) : u.Spelled room := by
  cases room with
  | zero => exact h.elim
  | succ => exact (h.2 u hu).succ

/-! ### Reading a display -/

/-- Neither a name nor a sign goes on with what follows. -/
def EndsDisplay (more : List Char) : Prop := EndsName more ∧ more.head? ≠ some '='

theorem EndsDisplay.cons {c : Char} (hname : Text.continuesName c = false) (hsign : c ≠ '=') (more : List Char) :
    EndsDisplay (c :: more) := by
  refine ⟨?_, fun h => hsign (Option.some.inj h)⟩
  rintro d hd
  rwa [← Option.some.inj hd]

theorem content_bracket {c : Char} {s : Symbol} (hs : (c, s) = ('<', .less) ∨ (c, s) = ('>', .greater))
    {more : List Char} (hmore : more.head? ≠ some '=') : content (c :: more) = ⟨[.symbol s], []⟩ ++ content more := by
  have hsign : Lexeme.next c more = (⟨[c], some (.symbol s), []⟩, more) := by
    cases more with
    | nil => rcases hs with hs | hs <;> cases hs <;> rfl
    | cons d more =>
      have hd : d ≠ '=' := fun h => hmore (h ▸ rfl)
      rcases hs with hs | hs <;> cases hs <;> simp [Lexeme.next, Lexeme.sign, sign₂?, hd] <;> rfl
  rw [content_cons, hsign]
  rfl

/-- The display says these words, whatever follows that does not go on with it. -/
def Displays (t : TypeDescriptor) (ks : List TokenKind) : Prop :=
  ∀ more, EndsDisplay more → content (t.display.toList ++ more) = ⟨ks, []⟩ ++ content more

theorem content_others {us : List TypeDescriptor} {K : TypeDescriptor → List TokenKind}
    (h : ∀ u ∈ us, u.Displays (K u)) {more : List Char} (hmore : EndsDisplay more) :
    content ((us.flatMap fun u => ',' :: ' ' :: u.display.toList) ++ more) =
      ⟨us.flatMap fun u => .symbol .comma :: K u, []⟩ ++ content more := by
  induction us with
  | nil => rfl
  | cons u us ih =>
    obtain ⟨hu, hus⟩ := List.forall_mem_cons.mp h
    have hends : EndsDisplay ((us.flatMap fun u => ',' :: ' ' :: u.display.toList) ++ more) := by
      cases us with
      | nil => exact hmore
      | cons v us => exact .cons (by decide) (by decide) _
    rw [List.flatMap_cons, List.append_assoc, List.cons_append, List.cons_append, content_sign (s := .comma) (by decide),
      content_space, hu _ hends, ih hus]
    simp only [← Content.append_assoc]
    rfl

theorem content_args {us : List TypeDescriptor} (hpath : ∀ u ∈ us, IsPath u.fullName)
    {K : TypeDescriptor → List TokenKind} (h : ∀ u ∈ us, u.Displays (K u)) {more : List Char}
    (hmore : more.head? ≠ some '=') :
    content (argsText (us.map (·.display.toList)) ++ more) = ⟨argsKinds K us, []⟩ ++ content more := by
  cases us with
  | nil => rfl
  | cons u us =>
    obtain ⟨hu, hus⟩ := List.forall_mem_cons.mp h
    have hends : EndsDisplay ((us.flatMap fun u => ',' :: ' ' :: u.display.toList) ++ '>' :: more) := by
      cases us with
      | nil => exact .cons (by decide) (by decide) _
      | cons v us => exact .cons (by decide) (by decide) _
    have hopen : ∀ more, (u.display.toList ++ more).head? ≠ some '=' := by
      intro more
      obtain ⟨c, rest, hc, hstart⟩ := (hpath u (.head _)).head
      rw [toList_display, hc]
      rintro ⟨⟩
      exact absurd hstart (by decide)
    have htext : argsText ((u :: us).map (·.display.toList)) ++ more =
        '<' :: (u.display.toList ++ ((us.flatMap fun u => ',' :: ' ' :: u.display.toList) ++ '>' :: more)) := by
      simp [argsText, List.flatMap_map]
    rw [htext, content_bracket (.inl rfl) (hopen _), hu _ hends, content_others hus (.cons (by decide) (by decide) _),
      content_bracket (.inr rfl) hmore]
    simp only [← Content.append_assoc]
    rfl

/-- A display says words that are read as the type. -/
theorem Spelled.displays {room : Nat} {t : TypeDescriptor} (h : t.Spelled room) :
    ∃ ks, t.Displays ks ∧ Yields (typeExpr room) ks endsType (t.written.Alike anywhere) := by
  induction room generalizing t with
  | zero => exact h.elim
  | succ room ih =>
    choose! K hdisplays hyields using fun u hu => ih (h.2 u hu)
    obtain ⟨first, others, hnames, hname⟩ := h.path.spec
    refine ⟨pathKinds first others ++ argsKinds K t.args, fun more hmore => ?_, ?_⟩
    · have hends : EndsName (argsText (t.args.map (·.display.toList)) ++ more) := by
        cases t.args with
        | nil => exact hmore.1
        | cons u us => exact (EndsDisplay.cons (by decide) (by decide) _).1
      rw [toList_display, hname, List.append_assoc, content_path hnames hends,
        content_args (fun u hu => (h.2 u hu).path) hdisplays hmore.2, ← Content.append_assoc]
      rfl
    · intro w more hw hmore
      obtain ⟨⟨path, args, loc⟩, hread, hpath, hargs⟩ := yields_type first others hyields hw hmore
      refine ⟨_, hread, ?_⟩
      rw [written_eq, hpath, ← hname]
      exact .mk (List.forall₂_map_left_iff.mpr hargs) trivial

/-- The display of a type is a text that is read as the type. -/
theorem Spelled.ofText?_display {t : TypeDescriptor} (h : t.Spelled maxNesting) :
    ∃ te, TypeExpr.ofText? t.display = some te ∧ t.written.Alike anywhere te := by
  obtain ⟨ks, hdisplays, hyields⟩ := h.displays
  have hcontent : content t.display.toList = ⟨ks, []⟩ := by
    have h := hdisplays [] ⟨nofun, nofun⟩
    rwa [List.append_nil, content_nil, Content.append_empty] at h
  exact ofText?_of_yields hcontent hyields

/-! ### Types with one display -/

theorem of_written_alike {t : TypeDescriptor} {path : String} {tes : List TypeExpr} {loc : Location}
    (h : t.written.Alike anywhere ⟨path, tes, loc⟩) :
    t.fullName = path ∧ List.Forall₂ (TypeExpr.Alike anywhere) (t.args.map written) tes := by
  rw [written_eq] at h
  cases h with
  | mk hargs => exact ⟨rfl, hargs⟩

mutual
theorem display_of_alike : ∀ (te : TypeExpr) {t u : TypeDescriptor}, t.written.Alike anywhere te →
    u.written.Alike anywhere te → t.display = u.display
  | ⟨path, tes, loc⟩, t, u, ht, hu => by
    obtain ⟨htname, htargs⟩ := of_written_alike ht
    obtain ⟨huname, huargs⟩ := of_written_alike hu
    exact display_congr (htname.trans huname.symm) (displays_of_alike tes htargs huargs)
theorem displays_of_alike : ∀ (tes : List TypeExpr) {ts us : List TypeDescriptor},
    List.Forall₂ (TypeExpr.Alike anywhere) (ts.map written) tes →
    List.Forall₂ (TypeExpr.Alike anywhere) (us.map written) tes → ts.map display = us.map display
  | [], ts, us, hts, hus => by
    rw [List.map_eq_nil_iff.mp (List.forall₂_nil_right_iff.mp hts),
      List.map_eq_nil_iff.mp (List.forall₂_nil_right_iff.mp hus)]
  | te :: tes, t :: ts, u :: us, .cons ht hts, .cons hu hus => by
    rw [List.map_cons, List.map_cons, display_of_alike te ht hu, displays_of_alike tes hts hus]
end

/-- Two types with one display have one name, and their arguments have the same displays. -/
theorem Spelled.of_display {t u : TypeDescriptor} (ht : t.Spelled maxNesting) (hu : u.Spelled maxNesting)
    (h : t.display = u.display) : t.fullName = u.fullName ∧ t.args.map display = u.args.map display := by
  obtain ⟨⟨path, tes, loc⟩, hte, htalike⟩ := ht.ofText?_display
  obtain ⟨_, hue, hualike⟩ := hu.ofText?_display
  obtain rfl := Option.some.inj (hte.symm.trans (h ▸ hue))
  obtain ⟨htname, htargs⟩ := of_written_alike htalike
  obtain ⟨huname, huargs⟩ := of_written_alike hualike
  exact ⟨htname.trans huname.symm, displays_of_alike tes htargs huargs⟩

/-! ### Checking a display -/

mutual
/-- The type as the checker has it. -/
def ty : TypeDescriptor → Ty
  | ⟨ns, name, owner, base, args⟩ => .named (⟨ns, name, owner, base, args⟩ : TypeDescriptor).fullName (tyAll args)
/-- Some types as the checker has them. -/
def tyAll : List TypeDescriptor → List Ty
  | [] => []
  | t :: ts => t.ty :: tyAll ts
end

theorem error_notMem_tyAll (ts : List TypeDescriptor) : Ty.error ∉ tyAll ts := by
  induction ts with
  | nil => exact nofun
  | cons t ts ih =>
    obtain ⟨ns, name, owner, base, args⟩ := t
    simpa [tyAll, ty] using ih

variable {table : ExportTable}

mutual
/-- A display has the type that is displayed if the checker finds all names and they take as many arguments. -/
theorem typeOfExpr_written : ∀ (t : TypeDescriptor), (∀ u, t.AmongArgs u → ∃ owner e,
    table.lookup u.fullName = some (owner, e) ∧ e.name = u.fullName ∧ e.arity = u.args.length) →
    typeOfExpr table t.written = .clean t.ty
  | ⟨ns, name, owner, base, args⟩, h => by
    obtain ⟨owner', e, hlookup, hname, harity⟩ := h _ .refl
    have hargs := typesOfExprs_written args fun t ht u hu => h u (.head ht hu)
    have hlength : (writtenAll args).length = args.length := by rw [writtenAll_eq, List.length_map]
    simp only [typeOfExpr, written, hargs, hlookup, hlength, harity, hname, ne_eq, not_true_eq_false, ↓reduceIte,
      error_notMem_tyAll, ty, Typed.after, Typed.clean, List.append_nil]
theorem typesOfExprs_written : ∀ (ts : List TypeDescriptor), (∀ t ∈ ts, ∀ u, t.AmongArgs u → ∃ owner e,
    table.lookup u.fullName = some (owner, e) ∧ e.name = u.fullName ∧ e.arity = u.args.length) →
    typesOfExprs table (writtenAll ts) = (tyAll ts, [])
  | [], _ => rfl
  | t :: ts, h => by
    obtain ⟨ht, hts⟩ := List.forall_mem_cons.mp h
    simp only [writtenAll, typesOfExprs, typeOfExpr_written t ht, typesOfExprs_written ts hts, tyAll, Typed.clean,
      List.append_nil]
end

mutual
/-- If the checker finds all names of a type, it has nothing to say of its display but that a name takes another number
of arguments. -/
theorem problems_written : ∀ (t : TypeDescriptor), (∀ u, t.AmongArgs u → (table.lookup u.fullName).isSome) →
    ∀ d ∈ (typeOfExpr table t.written).diagnostics, ∃ u owner e loc, t.AmongArgs u ∧
      table.lookup u.fullName = some (owner, e) ∧ e.arity ≠ u.args.length ∧
        d = (Problem.wrongArity e.name e.arity).located loc
  | ⟨ns, name, owner, base, args⟩, h, d, hd => by
    obtain ⟨⟨owner', e⟩, hlookup⟩ := Option.isSome_iff_exists.mp (h _ .refl)
    have hlength : (writtenAll args).length = args.length := by rw [writtenAll_eq, List.length_map]
    simp only [typeOfExpr, written, hlookup, hlength, Typed.after] at hd
    rcases List.mem_append.mp hd with hd | hd
    · obtain ⟨t, ht, u, owner, e, loc, hu, hproblem⟩ := problemsAll_written args
        (fun t ht u hu => h u (.head ht hu)) d hd
      exact ⟨u, owner, e, loc, .head ht hu, hproblem⟩
    · split at hd
      · rename_i harity
        exact ⟨_, owner', e, default, .refl, hlookup, harity, List.mem_singleton.mp hd⟩
      · split at hd <;> cases hd
theorem problemsAll_written : ∀ (ts : List TypeDescriptor), (∀ t ∈ ts, ∀ u, t.AmongArgs u → (table.lookup u.fullName).isSome) →
    ∀ d ∈ (typesOfExprs table (writtenAll ts)).2, ∃ t ∈ ts, ∃ u owner e loc, t.AmongArgs u ∧
      table.lookup u.fullName = some (owner, e) ∧ e.arity ≠ u.args.length ∧
        d = (Problem.wrongArity e.name e.arity).located loc
  | [], _ => nofun
  | t :: ts, h => by
    obtain ⟨ht, hts⟩ := List.forall_mem_cons.mp h
    intro d hd
    rcases List.mem_append.mp hd with hd | hd
    · exact ⟨t, .head _, problems_written t ht d hd⟩
    · obtain ⟨u, hu, h⟩ := problemsAll_written ts hts d hd
      exact ⟨u, .tail _ hu, h⟩
end

end TypeDescriptor

end FlowCheck

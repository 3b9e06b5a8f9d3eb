import FlowCheck.Proofs.Flow.Alike
import FlowCheck.Proofs.Flow.Findings
import FlowCheck.Proofs.Flow.Rules

/-! The names of an expression that are not the name of a field. A scan of the tokens that looks out for points
    finds the very names that stand in the tree, in the same order and at the same places, and the checker reports
    each of them that is no parameter, once each time it occurs. -/

namespace FlowCheck.Flow

open FlowCheck.Flow.Parser

/-- The names in an expression, each time they occur and with their places, in the order of the text. -/
def Expr.names : Expr → List (String × Location)
  | .int .. | .float .. | .string .. | .bool .. | .null .. => []
  | .name x loc => [(x, loc)]
  | .member target _ _ => target.names
  | .unary _ operand _ => operand.names
  | .binary _ left right _ => left.names ++ right.names
  | .conditional test positive negative _ => test.names ++ positive.names ++ negative.names

/-- The identifiers of some tokens, but for those behind a point; `member` says that a point stands before them. -/
def namesOf (member : Bool) : List Token → List (String × Location)
  | [] => []
  | t :: ts =>
    match t.kind with
    | .identifier name => if member then namesOf false ts else (name, t.start) :: namesOf false ts
    | .symbol .dot => namesOf true ts
    | _ => namesOf false ts

theorem freeIdentifiers_go_eq (member : Bool) (ts : List Token) :
    freeIdentifiers.go member ts = (namesOf member ts).map (·.1) := by
  induction ts generalizing member with
  | nil => rfl
  | cons t ts ih =>
    obtain ⟨kind, start, stop, anchor⟩ := t
    cases kind with
    | identifier name => cases member <;> simp [freeIdentifiers.go, namesOf, ih]
    | symbol s => cases s <;> exact ih _
    | _ => exact ih false

/-- The scan stays within the tokens. -/
theorem namesOf_sublist (member : Bool) (ts : List Token) :
    ((namesOf member ts).map (·.2)).Sublist (ts.map (·.start)) := by
  fun_induction namesOf member ts with
  | case1 => exact .slnil
  | case2 ts t name hname ih => exact .cons _ ih
  | case3 member t ts name hname hmember ih => exact .cons_cons _ ih
  | case4 member t ts hdot ih => exact .cons _ ih
  | case5 member t ts hname hdot ih => exact .cons _ ih

section Step

variable {t : Token} {ts : List Token}

theorem namesOf_symbol {s : Symbol} (ht : t.kind = .symbol s) (hs : s ≠ .dot) :
    namesOf false (t :: ts) = namesOf false ts := by
  rw [namesOf, ht]
  cases s <;> first | rfl | exact absurd rfl hs

theorem namesOf_field {dot field : Token} {name : String} (hdot : dot.kind = .symbol .dot)
    (hfield : field.kind = .identifier name) : namesOf false (dot :: field :: ts) = namesOf false ts := by
  simp only [namesOf, hdot, hfield, ↓reduceIte]

/-- A literal has no names, and a name is one. -/
theorem namesOf_token {e : Expr} (h : Expr.ofToken? t = some e) :
    namesOf false (t :: ts) = e.names ++ namesOf false ts := by
  unfold Expr.ofToken? at h
  split at h <;> cases h <;> rename_i hkind <;> simp [namesOf, hkind, Expr.names]

end Step

/-! ### Reading -/

/-- Of the tokens that the parser takes the scan finds the names of the expression that it gives. -/
def KeepsNames (p : Parser Expr) : Prop :=
  ∀ ⦃ts rest e⦄, Reads p ts e rest → namesOf false ts = e.names ++ namesOf false rest

section Rules

variable {operand inner branch : Parser Expr}

theorem keepsNames_fail {p : Problem} : KeepsNames (fail p) := fun _ _ _ h => absurd h reads_fail

theorem keepsNames_primary (hinner : KeepsNames inner) : KeepsNames (primary inner) := by
  intro ts rest e h
  rcases reads_primary.mp h with ⟨t, rfl, ht⟩ | ⟨t, ts, u, rfl, ht, he, hu⟩
  · exact namesOf_token ht
  · rw [namesOf_symbol ht nofun, hinner he, namesOf_symbol hu nofun]

theorem keepsNames_member (hinner : KeepsNames inner) : KeepsNames (member inner) := by
  intro ts rest e h
  obtain ⟨target, mid, htarget, hloop⟩ := h.of_bind
  rw [keepsNames_primary hinner htarget]
  refine (hloop.loop_induction (I := fun e rest => target.names ++ namesOf false mid = e.names ++ namesOf false rest)
    ?_ rfl).1
  intro e dot ts _ e' rest hnames hdot hstep
  rw [reads_peek_bind] at hstep
  obtain ⟨name, rest', hname, hnode⟩ := hstep.of_bind
  obtain ⟨-, rfl, rfl⟩ := reads_node.mp hnode
  obtain ⟨field, rfl, hfield⟩ := reads_identifier.mp hname
  rw [namesOf_field (by simpa [only] using hdot) hfield] at hnames
  exact hnames

theorem keepsNames_unary (hoperand : KeepsNames operand) (hinner : KeepsNames inner) :
    KeepsNames (unary operand inner) := by
  intro ts rest e h
  rcases reads_unary.mp h with ⟨-, h⟩ | ⟨t, ts, op, body, rfl, ht, hbody, rfl, -⟩
  · exact keepsNames_member hinner h
  · rw [namesOf_symbol ht (by cases op <;> exact nofun), hoperand hbody]
    rfl

theorem BinaryOp.symbol_of_ofKind? {tier : List BinaryOp} {kind : TokenKind} {op : BinaryOp}
    (h : BinaryOp.ofKind? tier kind = some op) : op ∈ tier ∧ kind = .symbol op.symbol :=
  ⟨List.mem_of_find?_eq_some h, by simpa using List.find?_some h⟩

theorem keepsNames_binary (hoperand : KeepsNames operand) (tiers : List (List BinaryOp)) :
    KeepsNames (binary operand tiers) := by
  induction tiers with
  | nil => exact hoperand
  | cons tier tighter ih =>
    intro ts rest e h
    obtain ⟨left, mid, hleft, hloop⟩ := h.of_bind
    rw [ih hleft]
    refine (hloop.loop_induction (I := fun e rest => left.names ++ namesOf false mid = e.names ++ namesOf false rest)
      ?_ rfl).1
    intro e t ts op e' rest hnames hop hstep
    obtain ⟨right, rest', hright, hnode⟩ := hstep.of_bind
    obtain ⟨-, rfl, rfl⟩ := reads_node.mp hnode
    have ht := (BinaryOp.symbol_of_ofKind? hop).2
    rw [hnames, namesOf_symbol ht (by cases op <;> exact nofun), ih hright, Expr.names, List.append_assoc]

theorem keepsNames_conditional (hoperand : KeepsNames operand) (hbranch : KeepsNames branch) :
    KeepsNames (conditional operand branch) := by
  intro ts rest e h
  obtain ⟨test, mid, htest, hrest⟩ := reads_conditional.mp h
  rw [keepsNames_binary hoperand _ htest]
  rcases hrest with ⟨-, rfl, rfl⟩ | ⟨t, mid₁, positive, u, mid₂, negative, rfl, ht, hpositive, hu, hnegative, rfl, -⟩
  · rfl
  · rw [namesOf_symbol ht nofun, hbranch hpositive, namesOf_symbol hu nofun, hbranch hnegative]
    simp [Expr.names]

theorem keepsNames_level (room : Nat) : KeepsNames (level room).expression ∧ KeepsNames (level room).operand := by
  induction room with
  | zero => exact ⟨keepsNames_fail, keepsNames_unary keepsNames_fail keepsNames_fail⟩
  | succ room ih =>
    have hexpression : KeepsNames (level (room + 1)).expression := keepsNames_conditional ih.2 ih.1
    exact ⟨hexpression, keepsNames_unary ih.2 hexpression⟩

/-- Of the tokens of an expression the scan finds the names in its tree, in their order and at their places. -/
theorem keepsNames_expression : KeepsNames expression := (keepsNames_level maxNesting).1

end Rules

theorem Expr.Alike.names {r : Location → Location → Prop} {e e' : Expr} (h : e.Alike r e') :
    e.names.map (·.1) = e'.names.map (·.1) := by
  induction h with
  | member _ _ ih | unary _ _ ih => exact ih
  | binary _ _ _ ih₁ ih₂ => simp only [Expr.names, List.map_append, ih₁, ih₂]
  | conditional _ _ _ _ ih₁ ih₂ ih₃ => simp only [Expr.names, List.map_append, ih₁, ih₂, ih₃]
  | _ => rfl

/-! ### Checking -/

/-- The diagnostic says that a name stands for no parameter. -/
def isUnknownName (d : Diagnostic) : Bool := d.code == (Problem.unknownName "").code

theorem AllOf.namesKnown {ds : List Diagnostic} (h : AllOf Problem.OfUse ds) : ds.filter isUnknownName = [] := by
  refine List.filter_eq_nil_iff.mpr fun d hd => ?_
  obtain ⟨p, loc, ⟨-, hp⟩, rfl⟩ := h d hd
  cases p with
  | unknownName name => exact absurd rfl (hp name)
  | _ => simp [isUnknownName, Problem.located, Problem.code]

section Checking

variable (table : ExportTable)

/-- A name for which nothing is known is reported where it stands. -/
def unknownAt (x : String × Location) : Diagnostic := (Problem.unknownName x.1).located x.2

/-- The unknown names among what is reported of an expression are its names that are no parameters. -/
theorem filter_typeOf (context : Context) (e : Expr) : (typeOf table context e).diagnostics.filter isUnknownName =
    (e.names.filter fun x => (context.lookup x.1).isNone).map unknownAt := by
  induction e with
  | int | float | string | bool | null => rfl
  | name name loc =>
    simp only [typeOf, Expr.names, List.filter_cons, List.filter_nil]
    cases hname : context.lookup name <;> rfl
  | member target field loc ih =>
    rw [typeOf, Typed.after, List.filter_append, ih, (memberType_allOf table _ _).namesKnown, List.append_nil, Expr.names]
  | unary op operand loc ih =>
    rw [typeOf, Typed.after, List.filter_append, ih, (unaryType_allOf _ _).namesKnown, List.append_nil, Expr.names]
  | binary op left right loc ihl ihr =>
    rw [typeOf, Typed.after, List.filter_append, List.filter_append, ihl, ihr,
      (binaryType_allOf table _ _ _).namesKnown, List.append_nil, Expr.names, List.filter_append, List.map_append]
  | conditional test positive negative loc iht ihp ihn =>
    rw [typeOf, Typed.after]
    simp only [List.filter_append, iht, ihp, ihn, Expr.names, List.map_append]
    rw [(testProblems_allOf table _ _).namesKnown, (branchType_allOf table _ _).namesKnown, List.append_nil,
      List.append_nil]

/-- The unknown names among what is reported of an item are those of its body that are no parameters. -/
theorem filter_checkItem (item : Item) : (checkItem table item).filter isUnknownName =
    (item.body.names.filter fun x => x.1 ∉ item.params.map (·.name)).map unknownAt := by
  have hlookup (name : String) : ((contextOf table item.params).1.lookup name).isNone =
      decide (name ∉ item.params.map (·.name)) := by
    rw [Bool.eq_iff_iff, Option.isNone_iff_eq_none, List.lookup_eq_none_iff, contextOf_eq]
    simp [@eq_comm _ name]
  rw [checkItem, List.filter_append, List.filter_append, List.filter_append, filter_typeOf,
    (contextOf_allOf table _).namesKnown, (typeOfExpr_allOf table _).namesKnown,
    (bodyProblems_allOf table _ _ _ _).namesKnown]
  simp only [List.nil_append, List.append_nil, hlookup]

end Checking

end FlowCheck.Flow

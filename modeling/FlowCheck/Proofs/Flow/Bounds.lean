import Mathlib.Logic.Function.Iterate
import FlowCheck.Proofs.Flow.Counting
import FlowCheck.Proofs.Flow.Suppression
import FlowCheck.Proofs.RoundTrip

/-! Trees are bounded, and with them the recursion over them. The height of an expression is the number of nodes on a
    longest way down; what is read of a text is not higher than the limit, and its types are not nested more deeply than
    levels may be open. So the checker calls itself only so deep: what deeper calls would give does not matter. -/

namespace FlowCheck.Flow

open FlowCheck.Flow.Parser

/-! ### Ways down -/

namespace Expr

variable {e child part : Expr} {role : Role} {way : List Role}

theorem height_pos (e : Expr) : 0 < e.height := by cases e <;> simp [height]

theorem height_lt_of_child (h : e.child? role = some child) : child.height < e.height := by
  cases e <;> cases role <;> cases h <;> simp only [height] <;> omega

theorem leaf_or_highest (e : Expr) : (∀ role, e.child? role = none) ∧ e.height = 1 ∨
    ∃ role child, e.child? role = some child ∧ child.height + 1 = e.height := by
  cases e with
  | member target => exact .inr ⟨.target, target, rfl, rfl⟩
  | unary _ operand => exact .inr ⟨.operand, operand, rfl, rfl⟩
  | binary _ left right =>
    rcases Nat.le_total left.height right.height with h | h
    · exact .inr ⟨.right, right, rfl, by simp [height, h]⟩
    · exact .inr ⟨.left, left, rfl, by simp [height, h]⟩
  | conditional test positive negative =>
    rcases Nat.le_total (max test.height positive.height) negative.height with h | h
    · exact .inr ⟨.negative, negative, rfl, by simp [height, h]⟩
    · rcases Nat.le_total test.height positive.height with h' | h'
      · exact .inr ⟨.positive, positive, rfl, by simp only [height]; omega⟩
      · exact .inr ⟨.test, test, rfl, by simp only [height]; omega⟩
  | _ => exact .inl ⟨fun role => by cases role <;> rfl, rfl⟩

theorem height_add_length_le (h : e.at? way = some part) : part.height + way.length ≤ e.height := by
  induction way generalizing e with
  | nil => exact Nat.le_of_eq (congrArg height (Option.some.inj h).symm)
  | cons role way ih =>
    obtain ⟨child, hchild, hpart⟩ := Option.bind_eq_some_iff.mp h
    have hlt := height_lt_of_child hchild
    have hle := ih hpart
    simp only [List.length_cons]
    omega

/-- A longest way from the root to a leaf has so many nodes. -/
structure LongestWay (e : Expr) (nodes : Nat) : Prop where
  leaf : ∃ way part, e.at? way = some part ∧ (∀ role, part.child? role = none) ∧ way.length + 1 = nodes
  longest : ∀ way part, e.at? way = some part → way.length + 1 ≤ nodes

theorem exists_leaf (e : Expr) :
    ∃ way part, e.at? way = some part ∧ (∀ role, part.child? role = none) ∧ way.length + 1 = e.height := by
  induction hn : e.height using Nat.strong_induction_on generalizing e with
  | _ n ih =>
    rcases e.leaf_or_highest with ⟨hleaf, hheight⟩ | ⟨role, child, hchild, hheight⟩
    · exact ⟨[], e, rfl, hleaf, hheight.symm.trans hn⟩
    · obtain ⟨way, part, hpart, hleaf, hlength⟩ := ih child.height (by omega) child rfl
      exact ⟨role :: way, part, by rw [at?, hchild]; exact hpart, hleaf, by rw [List.length_cons]; omega⟩

theorem longestWay (e : Expr) : e.LongestWay e.height where
  leaf := e.exists_leaf
  longest way part h := by
    have hle := height_add_length_le h
    have hpos := part.height_pos
    omega

end Expr

/-! ### Nested types -/

mutual
/-- How many levels a type and its arguments make. -/
def TypeExpr.nesting : TypeExpr → Nat
  | ⟨_, args, _⟩ => nestingAll args + 1
/-- The most levels that one of some types makes. -/
def TypeExpr.nestingAll : List TypeExpr → Nat
  | [] => 0
  | t :: ts => max t.nesting (nestingAll ts)
end

theorem TypeExpr.nestingAll_le {ts : List TypeExpr} {n : Nat} : nestingAll ts ≤ n ↔ ∀ t ∈ ts, t.nesting ≤ n := by
  induction ts with
  | nil => simp [nestingAll]
  | cons t ts ih => rw [nestingAll, Nat.max_le, ih, List.forall_mem_cons]

theorem TypeExpr.nesting_le_of_reads {room : Nat} {ts rest : List Token} {t : TypeExpr}
    (h : Reads (typeExpr room) ts t rest) : t.nesting ≤ room := by
  induction room generalizing ts rest t with
  | zero => exact (reads_fail h).elim
  | succ room ih =>
    rw [typeExpr_succ, reads_peek_bind] at h
    obtain ⟨path, _, -, h⟩ := h.of_bind
    obtain ⟨args, _, hargs, h⟩ := h.of_bind
    obtain ⟨rfl, -⟩ := reads_pure.mp h
    refine Nat.succ_le_succ (nestingAll_le.mpr fun t ht => ?_)
    obtain ⟨us, _, -, hread⟩ := reads_of_args hargs t ht
    exact ih hread

theorem TypeExpr.nesting_le_of_text {source : String} {t : TypeExpr} (h : TypeExpr.ofText? source = some t) :
    t.nesting ≤ maxNesting := by
  obtain ⟨-, _, _, -, -, hreads⟩ := TypeExpr.ofText?_spec h
  exact nesting_le_of_reads hreads

/-- The types that are written in an item. -/
def Item.typeExprs (i : Item) : List TypeExpr := i.returnType :: i.params.map (·.type)

theorem reads_of_params {ts rest : List Token} {ps : List Param} (h : Reads params ts ps rest) :
    ∀ p ∈ ps, ∃ us rest, Reads (typeExpr maxNesting) us p.type rest := by
  unfold params at h
  rw [reads_peek_bind] at h
  split at h
  · obtain ⟨rfl, -⟩ := reads_pure.mp h
    exact nofun
  · intro p hp
    obtain ⟨us, rest, -, hparam⟩ := reads_of_commaSeparated h p hp
    unfold param at hparam
    rw [reads_peek_bind] at hparam
    obtain ⟨name, _, -, hparam⟩ := hparam.of_bind
    obtain ⟨_, _, -, hparam⟩ := hparam.of_bind
    obtain ⟨type, _, htype, hparam⟩ := hparam.of_bind
    obtain ⟨rfl, -⟩ := reads_pure.mp hparam
    exact ⟨_, _, htype⟩

theorem reads_of_item {start : Location} {ts rest : List Token} {i : Item} (h : Reads (item start) ts i rest) :
    ∀ t ∈ i.typeExprs, ∃ us rest, Reads (typeExpr maxNesting) us t rest := by
  unfold item at h
  obtain ⟨name, _, -, h⟩ := h.of_bind
  obtain ⟨_, _, -, h⟩ := h.of_bind
  obtain ⟨ps, _, hparams, h⟩ := h.of_bind
  obtain ⟨_, _, -, h⟩ := h.of_bind
  obtain ⟨_, _, -, h⟩ := h.of_bind
  obtain ⟨byRef, _, -, h⟩ := h.of_bind
  obtain ⟨returnType, _, htype, h⟩ := h.of_bind
  obtain ⟨_, _, -, h⟩ := h.of_bind
  obtain ⟨body, _, -, h⟩ := h.of_bind
  obtain ⟨_, _, -, h⟩ := h.of_bind
  obtain ⟨rfl, -⟩ := reads_pure.mp h
  intro t ht
  rcases List.mem_cons.mp ht with rfl | ht
  · exact ⟨_, _, htype⟩
  · obtain ⟨p, hp, rfl⟩ := List.mem_map.mp ht
    exact reads_of_params hparams p hp

/-! ### Calls of the checker -/

/-- A function whose body is `step` gives the value with so many calls of itself inside each other at most: calls that
are nested more deeply may give what they like. -/
def EndsWithin {α β : Type} (step : (α → β) → α → β) (depth : Nat) (a : α) (value : β) : Prop :=
  ∀ unknown : α → β, step^[depth] unknown a = value

section Recursion

variable {β : Type} {depth : Nat}

theorem Expr.endsWithin_height {step : (Expr → β) → Expr → β} {f : Expr → β} (hf : ∀ e, step f e = f e)
    (hstep : ∀ {g g' : Expr → β} {e : Expr}, (∀ role child, e.child? role = some child → g child = g' child) →
      step g e = step g' e) {e : Expr} (h : e.height ≤ depth) : EndsWithin step depth e (f e) := by
  intro unknown
  induction depth generalizing e with
  | zero => exact absurd e.height_pos (Nat.not_lt.mpr h)
  | succ depth ih =>
    rw [Function.iterate_succ_apply', ← hf e]
    exact hstep fun role child hchild => ih (Nat.le_of_lt_succ (Nat.lt_of_lt_of_le (height_lt_of_child hchild) h))

theorem TypeExpr.endsWithin_nesting {step : (TypeExpr → β) → TypeExpr → β} {f : TypeExpr → β}
    (hf : ∀ t, step f t = f t)
    (hstep : ∀ {g g' : TypeExpr → β} {path : String} {args : List TypeExpr} {loc : Location},
      (∀ arg ∈ args, g arg = g' arg) → step g ⟨path, args, loc⟩ = step g' ⟨path, args, loc⟩)
    {t : TypeExpr} (h : t.nesting ≤ depth) : EndsWithin step depth t (f t) := by
  intro unknown
  induction depth generalizing t with
  | zero => cases t; exact absurd h (Nat.not_succ_le_zero _)
  | succ depth ih =>
    obtain ⟨path, args, loc⟩ := t
    rw [Function.iterate_succ_apply', ← hf ⟨path, args, loc⟩]
    exact hstep fun arg harg => ih (nestingAll_le.mp (Nat.le_of_succ_le_succ h) arg harg)

end Recursion

section Checker

variable (table : ExportTable) (context : Context)

/-- The body of `typeOf`. -/
def typeOfStep (typeOf' : Expr → Typed) : Expr → Typed
  | .member target field loc =>
    let t := typeOf' target
    .after t.diagnostics (memberType table t.type field loc)
  | .unary op operand loc =>
    let t := typeOf' operand
    .after t.diagnostics (unaryType op t.type loc)
  | .binary op left right loc =>
    let a := typeOf' left
    let b := typeOf' right
    .after (a.diagnostics ++ b.diagnostics) (binaryType table op a.type b.type loc)
  | .conditional test positive negative loc =>
    let t := typeOf' test
    let a := typeOf' positive
    let b := typeOf' negative
    .after (t.diagnostics ++ testProblems table test t.type ++ a.diagnostics ++ b.diagnostics)
      (branchType table a.type b.type loc)
  | leaf => typeOf table context leaf

theorem typeOf_endsWithin {e : Expr} (h : e.height ≤ maxHeight) :
    EndsWithin (typeOfStep table context) maxHeight e (typeOf table context e) := by
  refine Expr.endsWithin_height (fun e => by cases e <;> rfl) (fun {g g' e} hchild => ?_) h
  cases e with
  | member target => simp only [typeOfStep, hchild .target target rfl]
  | unary _ operand => simp only [typeOfStep, hchild .operand operand rfl]
  | binary _ left right => simp only [typeOfStep, hchild .left left rfl, hchild .right right rfl]
  | conditional test positive negative =>
    simp only [typeOfStep, hchild .test test rfl, hchild .positive positive rfl, hchild .negative negative rfl]
  | _ => rfl

/-- The body of `isAssignable`. -/
def Expr.isAssignableStep (isAssignable' : Expr → Bool) : Expr → Bool
  | .name .. => true
  | .member target _ _ => isAssignable' target
  | _ => false

theorem Expr.isAssignable_endsWithin {e : Expr} (h : e.height ≤ maxHeight) :
    EndsWithin isAssignableStep maxHeight e e.isAssignable := by
  refine Expr.endsWithin_height (fun e => by cases e <;> rfl) (fun {g g' e} hchild => ?_) h
  cases e with
  | member target => exact hchild .target target rfl
  | _ => rfl

/-- The body of `typeOfExpr`. -/
def typeOfExprStep (typeOfExpr' : TypeExpr → Typed) : TypeExpr → Typed
  | ⟨path, args, loc⟩ =>
    let found := args.map typeOfExpr'
    .after (found.flatMap (·.diagnostics)) <| match table.lookup path with
      | none => .report (.unknownType path) loc
      | some (_, e) =>
        if e.arity ≠ args.length then .report (.wrongArity e.name e.arity) loc
        else if Ty.error ∈ found.map (·.type) then .clean .error
        else .clean (.named e.name (found.map (·.type)))

theorem typesOfExprs_eq (ts : List TypeExpr) : typesOfExprs table ts =
    ((ts.map (typeOfExpr table)).map (·.type), (ts.map (typeOfExpr table)).flatMap (·.diagnostics)) := by
  induction ts with
  | nil => rfl
  | cons t ts ih => simp only [typesOfExprs, ih, List.map_cons, List.flatMap_cons]

theorem typeOfExpr_endsWithin {t : TypeExpr} (h : t.nesting ≤ maxNesting) :
    EndsWithin (typeOfExprStep table) maxNesting t (typeOfExpr table t) := by
  refine TypeExpr.endsWithin_nesting (fun t => ?_) (fun harg => ?_) h
  · obtain ⟨path, args, loc⟩ := t
    rw [typeOfExpr, typesOfExprs_eq]
    rfl
  · simp only [typeOfExprStep, List.map_congr_left harg]

/-- The body of `Ty.ofExpr?`. -/
def Ty.ofExprStep (ofExpr' : TypeExpr → Option Ty) : TypeExpr → Option Ty
  | ⟨path, args, _⟩ =>
    match table.lookup path with
    | none => none
    | some (_, e) => if e.arity = args.length then ((args.map ofExpr').mapM id).map (.named e.name) else none

theorem Ty.ofExprs?_eq (ts : List TypeExpr) : Ty.ofExprs? table ts = (ts.map (Ty.ofExpr? table)).mapM id := by
  induction ts with
  | nil => rfl
  | cons t ts ih =>
    rw [Ty.ofExprs?, ih, List.map_cons, List.mapM_cons]
    cases Ty.ofExpr? table t <;> cases (ts.map (Ty.ofExpr? table)).mapM id <;> rfl

theorem Ty.ofExpr?_endsWithin {t : TypeExpr} (h : t.nesting ≤ maxNesting) :
    EndsWithin (Ty.ofExprStep table) maxNesting t (Ty.ofExpr? table t) := by
  refine TypeExpr.endsWithin_nesting (fun t => ?_) (fun harg => ?_) h
  · obtain ⟨path, args, loc⟩ := t
    rw [Ty.ofExpr?, Ty.ofExprs?_eq]
    rfl
  · simp only [Ty.ofExprStep, List.map_congr_left harg]

end Checker

/-- Every subtree of the body of an item has the height of its longest way down, which is within the limit, and so is the
nesting of the types of the item; no type that is named in exports is nested more deeply. So the checker calls itself
only so deep over each of them. The parser calls itself not deeper than levels may be open: with a counter it reads the
same, whatever deeper calls would do, and at any number of open levels each rule leaves the counter as it found it and
keeps within the limit, also where it stops. -/
theorem SourceTree.ofText_bounded (source : String) :
    (∀ i ∈ (SourceTree.ofText source).items,
      (∀ way part, i.body.at? way = some part → part.LongestWay part.height ∧ part.height ≤ maxHeight ∧
        EndsWithin Expr.isAssignableStep maxHeight part part.isAssignable ∧
        ∀ table context, EndsWithin (typeOfStep table context) maxHeight part (typeOf table context part)) ∧
      ∀ t ∈ i.typeExprs, t.nesting ≤ maxNesting ∧
        ∀ table, EndsWithin (typeOfExprStep table) maxNesting t (typeOfExpr table t)) ∧
    (∀ (text : String) (t : TypeExpr), TypeExpr.ofText? text = some t → t.nesting ≤ maxNesting ∧
      ∀ table, EndsWithin (Ty.ofExprStep table) maxNesting t (Ty.ofExpr? table t)) ∧
    ∀ unknown : Counter.Calls, let calls := Counter.within unknown (maxNesting + 1)
      (∀ {α : Type} (rule : Counter.Rule α), ∀ opened ≤ maxNesting,
        Counter.Follows opened (Counter.counting calls rule) (Counter.ofGrammar (maxNesting - opened) rule)) ∧
      Counter.Follows 0 (Counter.param calls) param ∧ Counter.Follows 0 (Counter.params calls) params ∧
      (∀ start, Counter.Follows 0 (Counter.item calls start) (item start)) ∧
      ∃ peak ≤ maxNesting, Counter.itemsOf calls 0 (tokenize source).tokens =
        ⟨itemsOf (tokenize source).tokens, 0, peak⟩ := by
  refine ⟨fun i hi => ⟨fun way part hpart => ?_, fun t ht => ?_⟩, fun text t ht => ?_, fun unknown => ?_⟩
  · have hheight : part.height ≤ maxHeight := by
      have hle := Expr.height_add_length_le hpart
      have hbody := (written_body hi).1
      omega
    exact ⟨part.longestWay, hheight, Expr.isAssignable_endsWithin hheight, fun _ _ => typeOf_endsWithin _ _ hheight⟩
  · obtain ⟨start, ts, rest, -, hitem⟩ := mem_itemsOf hi
    obtain ⟨us, rest, hread⟩ := reads_of_item hitem t ht
    have hnesting := TypeExpr.nesting_le_of_reads hread
    exact ⟨hnesting, fun _ => typeOfExpr_endsWithin _ hnesting⟩
  · have hnesting := TypeExpr.nesting_le_of_text ht
    exact ⟨hnesting, fun _ => Ty.ofExpr?_endsWithin _ hnesting⟩
  · have hrule {α : Type} (rule : Counter.Rule α) (opened : Nat) (h : opened ≤ maxNesting) :=
      Counter.follows_rule unknown (Nat.add_sub_cancel' h) rule
    have htype := hrule .typeExpr 0 (Nat.zero_le _)
    have hitem := Counter.follows_item htype (hrule .expression 0 (Nat.zero_le _))
    exact ⟨hrule, Counter.follows_param htype, Counter.follows_params htype, hitem,
      Counter.follows_itemsOf hitem (tokenize source).tokens⟩

/-- A member in a test under a prefix operator, and a type with an argument in an argument. -/
theorem SourceTree.ofText_bounded_nested :
    let source := "fn f(x: L<L<T>>) -> T => -(x.y ? 1 : x);"
    ∃ i ∈ (SourceTree.ofText source).items,
      (∃ part, i.body.at? [.operand, .test] = some part ∧ part.LongestWay 2) ∧
      i.typeExprs.map TypeExpr.nesting = [1, 3] ∧ ∀ t ∈ i.typeExprs, t.nesting ≤ maxNesting := by
  intro source
  have hread : (SourceTree.ofText source).items.map (fun i =>
      ((i.body.at? [.operand, .test]).map Expr.height, i.typeExprs.map TypeExpr.nesting)) = [(some 2, [1, 3])] := by
    decide +kernel
  obtain ⟨i, hi, hparts⟩ := List.mem_map.mp (hread ▸ List.mem_singleton_self (some 2, [1, 3]))
  obtain ⟨hheight, hnesting⟩ := Prod.mk.inj hparts
  obtain ⟨part, hpart, hheight⟩ := Option.map_eq_some_iff.mp hheight
  obtain ⟨hbody, htypes⟩ := (SourceTree.ofText_bounded source).1 i hi
  exact ⟨i, hi, ⟨part, hpart, hheight ▸ (hbody _ part hpart).1⟩, hnesting, fun t ht => (htypes t ht).1⟩

end FlowCheck.Flow

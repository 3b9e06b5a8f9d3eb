import Mathlib.Data.List.Forall2
import FlowCheck.Flow.Typing

/-! Trees up to their places. Two trees are alike when they differ at most in the places of their nodes, and
    each place of the one is related to the same place of the other. Equality of places on one line, a shift
    by some columns and no demand at all are such relations. The checker gives to alike items the same
    problems at related places. -/

namespace FlowCheck.Flow

variable {r : Location → Location → Prop}

/-! ### Trees -/

/-- The same expression at related places. -/
inductive Expr.Alike (r : Location → Location → Prop) : Expr → Expr → Prop where
  | int {value loc loc'} : r loc loc' → Alike r (.int value loc) (.int value loc')
  | float {value loc loc'} : r loc loc' → Alike r (.float value loc) (.float value loc')
  | string {value loc loc'} : r loc loc' → Alike r (.string value loc) (.string value loc')
  | bool {value loc loc'} : r loc loc' → Alike r (.bool value loc) (.bool value loc')
  | null {loc loc'} : r loc loc' → Alike r (.null loc) (.null loc')
  | name {name loc loc'} : r loc loc' → Alike r (.name name loc) (.name name loc')
  | member {target target' field loc loc'} :
    Alike r target target' → r loc loc' → Alike r (.member target field loc) (.member target' field loc')
  | unary {op operand operand' loc loc'} :
    Alike r operand operand' → r loc loc' → Alike r (.unary op operand loc) (.unary op operand' loc')
  | binary {op left left' right right' loc loc'} :
    Alike r left left' → Alike r right right' → r loc loc' →
      Alike r (.binary op left right loc) (.binary op left' right' loc')
  | conditional {test test' positive positive' negative negative' loc loc'} :
    Alike r test test' → Alike r positive positive' → Alike r negative negative' → r loc loc' →
      Alike r (.conditional test positive negative loc) (.conditional test' positive' negative' loc')

/-- The same type name at related places. -/
inductive TypeExpr.Alike (r : Location → Location → Prop) : TypeExpr → TypeExpr → Prop where
  | mk {path args args' loc loc'} :
    List.Forall₂ (Alike r) args args' → r loc loc' → Alike r ⟨path, args, loc⟩ ⟨path, args', loc'⟩

/-- The same parameter at related places. -/
structure Param.Alike (r : Location → Location → Prop) (p q : Param) : Prop where
  name : p.name = q.name
  type : p.type.Alike r q.type
  loc : r p.loc q.loc

/-- The same item at related places. -/
structure Item.Alike (r : Location → Location → Prop) (i j : Item) : Prop where
  name : i.name = j.name
  params : List.Forall₂ (Param.Alike r) i.params j.params
  byRef : i.byRef = j.byRef
  returnType : i.returnType.Alike r j.returnType
  body : i.body.Alike r j.body
  loc : r i.loc j.loc

/-- The same item at related places, but for its name and for where it starts. -/
structure Item.AlikeBehind (r : Location → Location → Prop) (i j : Item) : Prop where
  params : List.Forall₂ (Param.Alike r) i.params j.params
  byRef : i.byRef = j.byRef
  returnType : i.returnType.Alike r j.returnType
  body : i.body.Alike r j.body

theorem Item.Alike.behind {i j : Item} (h : i.Alike r j) : i.AlikeBehind r j :=
  ⟨h.params, h.byRef, h.returnType, h.body⟩

/-- The same problem at related places. -/
def SameProblem (r : Location → Location → Prop) (d d' : Diagnostic) : Prop :=
  ∃ (p : Problem) (loc loc' : Location), r loc loc' ∧ d = p.located loc ∧ d' = p.located loc'

theorem SameProblem.located {p : Problem} {loc loc' : Location} (h : r loc loc') :
    SameProblem r (p.located loc) (p.located loc') := ⟨p, loc, loc', h, rfl, rfl⟩

namespace Expr.Alike

variable {e e' : Expr}

theorem height (h : e.Alike r e') : e.height = e'.height := by
  induction h with
  | member _ _ ih | unary _ _ ih => simp only [Expr.height, ih]
  | binary _ _ _ ih₁ ih₂ => simp only [Expr.height, ih₁, ih₂]
  | conditional _ _ _ _ ih₁ ih₂ ih₃ => simp only [Expr.height, ih₁, ih₂, ih₃]
  | _ => rfl

theorem isAssignable (h : e.Alike r e') : e.isAssignable = e'.isAssignable := by
  induction h with
  | member _ _ ih => simp only [Expr.isAssignable, ih]
  | _ => rfl

theorem loc (h : e.Alike r e') : r e.loc e'.loc := by
  cases h <;> assumption

theorem refl (hr : ∀ loc, r loc loc) {e : Expr} : e.Alike r e := by
  induction e with
  | member _ _ _ ih => exact .member ih (hr _)
  | unary _ _ _ ih => exact .unary ih (hr _)
  | binary _ _ _ _ ih₁ ih₂ => exact .binary ih₁ ih₂ (hr _)
  | conditional _ _ _ _ ih₁ ih₂ ih₃ => exact .conditional ih₁ ih₂ ih₃ (hr _)
  | _ => constructor; exact hr _

theorem symm (hr : ∀ {loc loc'}, r loc loc' → r loc' loc) (h : e.Alike r e') : e'.Alike r e := by
  induction h with
  | member _ hloc ih => exact .member ih (hr hloc)
  | unary _ hloc ih => exact .unary ih (hr hloc)
  | binary _ _ hloc ih₁ ih₂ => exact .binary ih₁ ih₂ (hr hloc)
  | conditional _ _ _ hloc ih₁ ih₂ ih₃ => exact .conditional ih₁ ih₂ ih₃ (hr hloc)
  | _ hloc => constructor; exact hr hloc

theorem trans (hr : ∀ {a b c}, r a b → r b c → r a c) {e'' : Expr} (h : e.Alike r e') (h' : e'.Alike r e'') :
    e.Alike r e'' := by
  induction h generalizing e'' with
  | member _ hloc ih => cases h' with | member h hloc' => exact .member (ih h) (hr hloc hloc')
  | unary _ hloc ih => cases h' with | unary h hloc' => exact .unary (ih h) (hr hloc hloc')
  | binary _ _ hloc ih₁ ih₂ => cases h' with | binary h₁ h₂ hloc' => exact .binary (ih₁ h₁) (ih₂ h₂) (hr hloc hloc')
  | conditional _ _ _ hloc ih₁ ih₂ ih₃ =>
    cases h' with | conditional h₁ h₂ h₃ hloc' => exact .conditional (ih₁ h₁) (ih₂ h₂) (ih₃ h₃) (hr hloc hloc')
  | _ hloc =>
    cases h'
    constructor
    exact hr hloc ‹_›

end Expr.Alike

/-! ### The same places -/

theorem Expr.Alike.eq {e e' : Expr} (h : e.Alike (· = ·) e') : e = e' := by
  induction h with
  | member _ hloc ih | unary _ hloc ih => rw [ih, hloc]
  | binary _ _ hloc ih₁ ih₂ => rw [ih₁, ih₂, hloc]
  | conditional _ _ _ hloc ih₁ ih₂ ih₃ => rw [ih₁, ih₂, ih₃, hloc]
  | _ hloc => rw [hloc]

mutual
theorem TypeExpr.Alike.eq : ∀ {t t' : TypeExpr}, t.Alike (· = ·) t' → t = t'
  | ⟨_, _, _⟩, _, .mk hargs hloc => by rw [TypeExpr.all_eq hargs, hloc]
theorem TypeExpr.all_eq : ∀ {ts ts' : List TypeExpr}, List.Forall₂ (TypeExpr.Alike (· = ·)) ts ts' → ts = ts'
  | [], _, .nil => rfl
  | _ :: _, _, .cons h hs => by rw [h.eq, TypeExpr.all_eq hs]
end

theorem Param.Alike.eq {p q : Param} (h : p.Alike (· = ·) q) : p = q := by
  cases p
  cases q
  rw [Param.mk.injEq]
  exact ⟨h.name, h.type.eq, h.loc⟩

theorem Item.Alike.eq {i j : Item} (h : i.Alike (· = ·) j) : i = j := by
  have hparams : i.params = j.params := List.forall₂_eq_eq_eq ▸ h.params.imp fun _ _ => Param.Alike.eq
  cases i
  cases j
  rw [Item.mk.injEq]
  exact ⟨h.name, hparams, h.byRef, h.returnType.eq, h.body.eq, h.loc⟩

/-! ### Types that are written -/

mutual
/-- The type of an alike name is the same, and so is what is wrong with it. -/
theorem TypeExpr.Alike.typed (table : ExportTable) : ∀ {t t' : TypeExpr}, t.Alike r t' →
    (typeOfExpr table t).type = (typeOfExpr table t').type ∧
      List.Forall₂ (SameProblem r) (typeOfExpr table t).diagnostics (typeOfExpr table t').diagnostics
  | ⟨path, args, loc⟩, _, .mk hargs hloc => by
    obtain ⟨htypes, hproblems⟩ := typesOfExprs_alike table hargs
    have hlength := hargs.length_eq
    simp only [typeOfExpr, Typed.after]
    cases table.lookup path with
    | none => exact ⟨rfl, List.rel_append hproblems (.cons (.located hloc) .nil)⟩
    | some found =>
      obtain ⟨owner, e⟩ := found
      simp only [htypes, ← hlength]
      split
      · exact ⟨rfl, List.rel_append hproblems (.cons (.located hloc) .nil)⟩
      · split <;> exact ⟨rfl, List.rel_append hproblems .nil⟩
/-- The types of alike names are the same, and so is what is wrong with them. -/
theorem typesOfExprs_alike (table : ExportTable) : ∀ {ts ts' : List TypeExpr},
    List.Forall₂ (TypeExpr.Alike r) ts ts' →
    (typesOfExprs table ts).1 = (typesOfExprs table ts').1 ∧
      List.Forall₂ (SameProblem r) (typesOfExprs table ts).2 (typesOfExprs table ts').2
  | [], _, .nil => ⟨rfl, .nil⟩
  | t :: ts, _, .cons ht hts => by
    obtain ⟨htype, hproblems⟩ := TypeExpr.Alike.typed table ht
    obtain ⟨htypes, hothers⟩ := typesOfExprs_alike table hts
    exact ⟨by simp only [typesOfExprs, htype, htypes], List.rel_append hproblems hothers⟩
end

/-! ### Expressions -/

/-- The same type, and the same problems at related places. -/
def Typed.Alike (r : Location → Location → Prop) (t t' : Typed) : Prop :=
  t.type = t'.type ∧ List.Forall₂ (SameProblem r) t.diagnostics t'.diagnostics

namespace Typed.Alike

theorem clean (t : Ty) : (Typed.clean t).Alike r (.clean t) := ⟨rfl, .nil⟩

theorem report {loc loc' : Location} (p : Problem) (h : r loc loc') :
    (Typed.report p loc).Alike r (.report p loc') := ⟨rfl, .cons (.located h) .nil⟩

theorem after {ds ds' : List Diagnostic} {t t' : Typed} (hds : List.Forall₂ (SameProblem r) ds ds')
    (h : t.Alike r t') : (t.after ds).Alike r (t'.after ds') := ⟨h.1, List.rel_append hds h.2⟩

theorem memberType (table : ExportTable) (target : Ty) (field : String) {loc loc' : Location} (h : r loc loc') :
    (Flow.memberType table target field loc).Alike r (Flow.memberType table target field loc') := by
  unfold Flow.memberType
  cases target with
  | error => exact clean _
  | null => exact report _ h
  | named name args =>
    dsimp only
    split
    · exact clean _
    · exact report _ h

theorem unaryType (op : UnaryOp) (operand : Ty) {loc loc' : Location} (h : r loc loc') :
    (Flow.unaryType op operand loc).Alike r (Flow.unaryType op operand loc') := by
  unfold Flow.unaryType
  split
  · exact clean _
  · split
    · exact clean _
    · exact report _ h

theorem binaryType (table : ExportTable) (op : BinaryOp) (left right : Ty) {loc loc' : Location} (h : r loc loc') :
    (Flow.binaryType table op left right loc).Alike r (Flow.binaryType table op left right loc') := by
  unfold Flow.binaryType
  split
  · exact clean _
  · split
    · exact clean _
    · exact report _ h

theorem branchType (table : ExportTable) (positive negative : Ty) {loc loc' : Location} (h : r loc loc') :
    (Flow.branchType table positive negative loc).Alike r (Flow.branchType table positive negative loc') := by
  unfold Flow.branchType
  split
  · exact clean _
  · split
    · exact clean _
    · split
      · exact clean _
      · exact report _ h

end Typed.Alike

theorem testProblems_alike (table : ExportTable) {test test' : Expr} (type : Ty) (h : test.Alike r test') :
    List.Forall₂ (SameProblem r) (testProblems table test type) (testProblems table test' type) := by
  unfold testProblems
  split
  · cases h with
    | bool hloc => exact .cons (.located hloc) .nil
    | _ => exact .nil
  · exact .cons (.located h.loc) .nil

/-- The type of an alike expression is the same, and so is what is wrong with it. -/
theorem Expr.Alike.typed (table : ExportTable) (context : Context) {e e' : Expr} (h : e.Alike r e') :
    (typeOf table context e).Alike r (typeOf table context e') := by
  induction h with
  | int | float | string | bool | null => exact .clean _
  | name hloc =>
    simp only [typeOf]
    split
    · exact .clean _
    · exact .report _ hloc
  | member _ hloc ih =>
    simp only [typeOf, ih.1]
    exact .after ih.2 (.memberType table _ _ hloc)
  | unary _ hloc ih =>
    simp only [typeOf, ih.1]
    exact .after ih.2 (.unaryType _ _ hloc)
  | binary _ _ hloc ihl ihr =>
    simp only [typeOf, ihl.1, ihr.1]
    exact .after (List.rel_append ihl.2 ihr.2) (.binaryType table _ _ _ hloc)
  | conditional htest _ _ hloc iht ihp ihn =>
    simp only [typeOf, iht.1, ihp.1, ihn.1]
    refine .after ?_ (.branchType table _ _ hloc)
    exact List.rel_append (List.rel_append (List.rel_append iht.2 (testProblems_alike table _ htest)) ihp.2) ihn.2

/-! ### Items -/

theorem contextOf_alike (table : ExportTable) {ps qs : List Param} (h : List.Forall₂ (Param.Alike r) ps qs) :
    (contextOf table ps).1 = (contextOf table qs).1 ∧
      List.Forall₂ (SameProblem r) (contextOf table ps).2 (contextOf table qs).2 := by
  refine List.rel_foldl (P := fun (a b : Context × List Diagnostic) => a.1 = b.1 ∧ List.Forall₂ (SameProblem r) a.2 b.2)
    ?_ ⟨rfl, .nil⟩ h
  intro a b hab p q hpq
  obtain ⟨htype, hproblems⟩ := hpq.type.typed table
  exact ⟨by simp only [hpq.name, htype, hab.1], List.rel_append hab.2 hproblems⟩

theorem bodyProblems_alike (table : ExportTable) (byRef : Bool) {body body' : Expr} (type declared : Ty)
    (h : body.Alike r body') : List.Forall₂ (SameProblem r) (bodyProblems table byRef body type declared)
      (bodyProblems table byRef body' type declared) := by
  have one : ∀ p : Problem, List.Forall₂ (SameProblem r) [p.located body.loc] [p.located body'.loc] :=
    fun _ => .cons (.located h.loc) .nil
  unfold bodyProblems
  rw [h.isAssignable]
  split
  · split
    · exact one _
    · split
      · exact one _
      · exact .nil
  · split
    · exact .nil
    · exact one _

/-- The same is wrong with alike items, at related places. The name of an item and where it starts do not matter. -/
theorem Item.AlikeBehind.checked (table : ExportTable) {i j : Item} (h : i.AlikeBehind r j) :
    List.Forall₂ (SameProblem r) (checkItem table i) (checkItem table j) := by
  obtain ⟨hcontext, hparams⟩ := contextOf_alike table h.params
  obtain ⟨hreturn, hdeclared⟩ := h.returnType.typed table
  obtain ⟨htype, hbody⟩ := h.body.typed table (contextOf table i.params).1
  simp only [checkItem]
  rw [← hcontext, ← h.byRef, ← hreturn, ← htype]
  exact List.rel_append (List.rel_append (List.rel_append hparams hdeclared) hbody)
    (bodyProblems_alike table _ _ _ h.body)

theorem checked_alike (table : ExportTable) {is js : List Item} (h : List.Forall₂ (Item.AlikeBehind r) is js) :
    List.Forall₂ (SameProblem r) (is.flatMap (checkItem table)) (js.flatMap (checkItem table)) :=
  List.rel_flatMap h fun _ _ hij => hij.checked table

end FlowCheck.Flow

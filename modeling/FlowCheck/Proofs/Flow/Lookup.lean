import Mathlib.Data.List.Forall2
import FlowCheck.Flow.Typing

/-! What the checker knows of a table of types. It looks up paths and nothing else, so two tables in which every
    path means the same give the same types to all expressions and find the same wrong with all items. -/

namespace FlowCheck

theorem ExportTable.find?_of_lookup {table : ExportTable} {path : String} {found : Module × TypeExport}
    (h : table.lookup path = some found) : table.find? found.2.name = some found := by
  have hname {name : String} (h : table.find? name = some found) : table.find? found.2.name = some found := by
    have he : found.2.name = name := by simpa using List.find?_some h
    rwa [he]
  rcases Option.or_eq_some_iff.mp h with h | ⟨-, h⟩
  · exact hname h
  · obtain ⟨ns, -, h⟩ := List.exists_of_findSome?_eq_some h
    exact hname h

/-- What a path means is found under its own name as well, whatever the namespaces are. -/
theorem ExportTable.lookup_name_of_entries {table other : ExportTable} (hentries : other.entries = table.entries)
    {path : String} {found : Module × TypeExport} (h : table.lookup path = some found) :
    other.lookup found.2.name = some found := by
  have hfind : other.find? found.2.name = table.find? found.2.name := by rw [find?, find?, hentries]
  rw [lookup, hfind, find?_of_lookup h, Option.some_or]

theorem ExportTable.lookup_name {table : ExportTable} {path : String} {found : Module × TypeExport}
    (h : table.lookup path = some found) : table.lookup found.2.name = some found :=
  lookup_name_of_entries rfl h

namespace Flow

variable {table other : ExportTable}

/-! ### Types -/

theorem Ty.ofExprs?_eq_some_iff {tes : List TypeExpr} {args : List Ty} :
    Ty.ofExprs? table tes = some args ↔ List.Forall₂ (fun te τ => Ty.ofExpr? table te = some τ) tes args := by
  induction tes generalizing args with
  | nil => cases args <;> simp [Ty.ofExprs?]
  | cons te tes ih =>
    constructor
    · intro h
      unfold Ty.ofExprs? at h
      split at h
      · rename_i u us hu hus
        obtain rfl := Option.some.inj h
        exact .cons hu (ih.mp hus)
      · cases h
    · rintro (_ | ⟨hu, hus⟩)
      rw [Ty.ofExprs?, hu, ih.mpr hus]

theorem Ty.ofExpr?_eq_some_iff {path : String} {tes : List TypeExpr} {loc : Location} {τ : Ty} :
    Ty.ofExpr? table ⟨path, tes, loc⟩ = some τ ↔ ∃ owner e args, table.lookup path = some (owner, e) ∧
      e.arity = tes.length ∧ Ty.ofExprs? table tes = some args ∧ τ = .named e.name args := by
  rw [Ty.ofExpr?]
  cases table.lookup path with
  | none => simp
  | some found =>
    obtain ⟨owner, e⟩ := found
    by_cases harity : e.arity = tes.length
    · simp only [if_pos harity, Option.map_eq_some_iff, Option.some.injEq, Prod.mk.injEq]
      constructor
      · rintro ⟨args, hargs, rfl⟩
        exact ⟨owner, e, args, ⟨rfl, rfl⟩, harity, hargs, rfl⟩
      · rintro ⟨_, _, args, ⟨rfl, rfl⟩, -, hargs, rfl⟩
        exact ⟨args, hargs, rfl⟩
    · simp only [if_neg harity, reduceCtorEq, Option.some.injEq, Prod.mk.injEq, false_iff]
      rintro ⟨_, _, _, ⟨rfl, rfl⟩, h, -⟩
      exact harity h

mutual
theorem Ty.ofExpr?_congr (h : table.lookup = other.lookup) : ∀ t : TypeExpr, Ty.ofExpr? table t = Ty.ofExpr? other t
  | ⟨path, args, _⟩ => by rw [Ty.ofExpr?, Ty.ofExpr?, h, Ty.ofExprs?_congr h args]
theorem Ty.ofExprs?_congr (h : table.lookup = other.lookup) :
    ∀ ts : List TypeExpr, Ty.ofExprs? table ts = Ty.ofExprs? other ts
  | [] => rfl
  | t :: ts => by rw [Ty.ofExprs?, Ty.ofExprs?, Ty.ofExpr?_congr h t, Ty.ofExprs?_congr h ts]
end

mutual
theorem typeOfExpr_congr (h : table.lookup = other.lookup) :
    ∀ t : TypeExpr, typeOfExpr table t = typeOfExpr other t
  | ⟨path, args, _⟩ => by rw [typeOfExpr, typeOfExpr, h, typesOfExprs_congr h args]
theorem typesOfExprs_congr (h : table.lookup = other.lookup) :
    ∀ ts : List TypeExpr, typesOfExprs table ts = typesOfExprs other ts
  | [] => rfl
  | t :: ts => by rw [typesOfExprs, typesOfExprs, typeOfExpr_congr h t, typesOfExprs_congr h ts]
end

section

variable (h : table.lookup = other.lookup)
include h

theorem Ty.ofText_congr (text : String) : Ty.ofText table text = Ty.ofText other text := by
  rw [Ty.ofText, Ty.ofText, funext (Ty.ofExpr?_congr h)]

theorem Ty.base?_congr (t : Ty) : t.base? table = t.base? other := by
  cases t with
  | named name args => simp only [Ty.base?, h, funext (Ty.ofText_congr h)]
  | _ => rfl

theorem Ty.reaches_congr (target : Ty) (steps : Nat) (t : Option Ty) :
    Ty.reaches table target steps t = Ty.reaches other target steps t := by
  induction steps generalizing t with
  | zero => rfl
  | succ steps ih =>
    cases t with
    | none => rfl
    | some t => rw [Ty.reaches, Ty.reaches, Ty.base?_congr h, ih]

theorem Ty.fieldWithin_congr (field : String) (steps : Nat) (t : Option Ty) :
    Ty.fieldWithin table field steps t = Ty.fieldWithin other field steps t := by
  induction steps generalizing t with
  | zero => rfl
  | succ steps ih =>
    rcases t with - | ⟨name, args⟩ | - | -
    · rfl
    · simp only [Ty.fieldWithin, h, Ty.base?_congr h, ih, Ty.ofText_congr h]
    · rfl
    · rfl

theorem Ty.converts_congr (source target : Ty) : source.converts table target = source.converts other target := by
  have hderives : source.derivesFrom table target = source.derivesFrom other target := by
    rw [Ty.derivesFrom, Ty.derivesFrom, Ty.base?_congr h, Ty.reaches_congr h]
  cases source <;> cases target <;> simp only [Ty.converts, hderives]

/-! ### Expressions -/

theorem memberType_congr (target : Ty) (field : String) (loc : Location) :
    memberType table target field loc = memberType other target field loc := by
  cases target with
  | named name args => simp only [memberType, Ty.field?, Ty.fieldWithin_congr h]
  | _ => rfl

theorem binaryType_congr (op : BinaryOp) (left right : Ty) (loc : Location) :
    binaryType table op left right loc = binaryType other op left right loc := by
  have hresult : op.result table left right = op.result other left right := by
    cases op <;> simp only [BinaryOp.result, Ty.converts_congr h]
  rw [binaryType, binaryType, hresult]

theorem typeOf_congr (context : Context) (e : Expr) : typeOf table context e = typeOf other context e := by
  induction e with
  | member _ _ _ ih => simp only [typeOf, ih, memberType_congr h]
  | unary _ _ _ ih => simp only [typeOf, ih]
  | binary _ _ _ _ ihl ihr => simp only [typeOf, ihl, ihr, binaryType_congr h]
  | conditional _ _ _ _ iht ihp ihn =>
    simp only [typeOf, iht, ihp, ihn, testProblems, branchType, Ty.converts_congr h]
  | _ => rfl

/-! ### Items -/

theorem checkItem_congr : checkItem table = checkItem other := by
  funext item
  have hcontext : contextOf table item.params = contextOf other item.params := by
    simp only [contextOf, typeOfExpr_congr h]
  simp only [checkItem, hcontext, typeOfExpr_congr h, typeOf_congr h, bodyProblems, Ty.converts_congr h]

end

end Flow

end FlowCheck
